import RadioServices.Logger.FileThread

namespace RadioServices.Logger

open Lib Lib.C

inductive Connect
  | noSocket
  | noHost
  | refused
  | connected

/-- The value of `net_connect` and `f_connected` after it. The early returns
convert -1 to true. -/
def netConnect : Connect → Bool × Bool
  | .noSocket => (true, false)
  | .noHost => (true, false)
  | .refused => (false, false)
  | .connected => (true, true)

inductive SendResult
  | again
  | error
  | bytes (n : Nat)

/-- The loop of `net_send` over the unsent rest: its value and what was sent.
After the listed results `send` fails. -/
def sendLoop : List SendResult → Str → Bool × Str
  | [], rest => (decide (rest = []), [])
  | r :: results, rest =>
      if rest = [] then (true, [])
      else match r with
        | .again => sendLoop results rest
        | .error => (false, [])
        | .bytes n =>
            let (value, out) := sendLoop results (rest.drop n)
            (value, rest.take n ++ out)

def netSend (fConnected : Bool) (results : List SendResult) (buf : Str) : Bool × Str :=
  if fConnected then sendLoop results buf else (false, [])

structure Attempt where
  calloc : Bool
  connect : Connect
  sends : List SendResult

inductive Outcome
  | skipped
  | refused
  | failed
  | sent
  deriving DecidableEq

def Attempt.outcome (a : Attempt) (msg : Str) : Outcome :=
  if a.calloc then
    let (value, fConnected) := netConnect a.connect
    if value then
      if (netSend fConnected a.sends msg).1 then .sent else .failed
    else .refused
  else .skipped

structure RemoteEnv where
  attempt : Nat → Attempt
  opened : Bool

def transmit (attempt : Nat → Attempt) : Vmessage → Bool → Vmessage × Bool
  | [], isOk => ([], isOk)
  | msg :: list, isOk =>
      match (attempt 0).outcome msg with
      | .skipped => transmit (fun i => attempt (i + 1)) list isOk
      | .refused => ([], isOk)
      | .failed => transmit (fun i => attempt (i + 1)) list false
      | .sent =>
          let (sent, isOk) := transmit (fun i => attempt (i + 1)) list true
          (msg :: sent, isOk)

structure RemoteThread where
  msgList : Vmessage
  flLocalExists : Bool
  sizeInMemo : Int

/-- What a round does: to the thread, the server and the local file. -/
structure Round where
  thread : RemoteThread
  sent : Vmessage
  saved : Vmessage
  unlinkLocalFile : Bool

namespace RemoteThread

def getLocalMsgList (file : Str) : Vmessage :=
  let lines := file.splitOn '\n'
  if lines.getLast? = some [] then lines.dropLast else lines

def new (c : Config) (file : Str) : RemoteThread :=
  ⟨getLocalMsgList file, !(getLocalMsgList file).isEmpty, c.remoteSizeInMemo⟩

def emptyMsgList (r : RemoteThread) : Bool := r.msgList.isEmpty

def appendMessages (sizeInMemo : Int) (acc : Vmessage × Vmessage) (msg : Vmessage) : Vmessage × Vmessage :=
  let sz := acc.1.length
  if sizeInMemo < sz then (acc.1.drop (sz * 3 / 4) ++ msg, acc.2 ++ acc.1.take (sz * 3 / 4))
  else (acc.1 ++ msg, acc.2)

def appendAll (r : RemoteThread) (mList : Mmessagelist) : Vmessage × Vmessage :=
  mList.values.foldl (appendMessages r.sizeInMemo) (r.msgList, [])

def append (r : RemoteThread) (mList : Mmessagelist) : RemoteThread :=
  { r with msgList := (r.appendAll mList).1 }

def dropped (r : RemoteThread) (mList : Mmessagelist) : Vmessage := (r.appendAll mList).2

def saveRemoteFile (r : RemoteThread) (env : RemoteEnv) : Vmessage :=
  if env.opened then r.msgList else []

def clear (r : RemoteThread) : RemoteThread := { r with msgList := [] }

def runWork (r : RemoteThread) (mList : Mmessagelist) (env : RemoteEnv) : Round :=
  let r := r.append mList
  if r.msgList = [] then ⟨r, [], [], false⟩
  else
    let (sent, isOk) := transmit env.attempt r.msgList false
    if isOk then ⟨r.clear, sent, [], r.flLocalExists⟩
    else ⟨r.clear, sent, r.saveRemoteFile env, false⟩

end RemoteThread

section Outcomes

/-- What would happen to each message of the list, were it attempted. -/
def outcomes (attempt : Nat → Attempt) (list : Vmessage) : List Outcome :=
  list.mapIdx fun i msg => (attempt i).outcome msg

def AllSent (attempt : Nat → Attempt) (list : Vmessage) : Prop :=
  ∀ o ∈ outcomes attempt list, o = .sent

def NoneSent (attempt : Nat → Attempt) (list : Vmessage) : Prop :=
  .sent ∉ (outcomes attempt list).takeWhile (· ≠ .refused)

/-- What comes of the messages a send is tried for, up to the first refused
connection. -/
def sendsMade (attempt : Nat → Attempt) (list : Vmessage) : List Outcome :=
  ((outcomes attempt list).takeWhile (· ≠ .refused)).filter (· ≠ .skipped)

def LastSent (attempt : Nat → Attempt) (list : Vmessage) : Prop :=
  (sendsMade attempt list).getLast? = some .sent

instance (attempt : Nat → Attempt) (list : Vmessage) : Decidable (AllSent attempt list) :=
  inferInstanceAs (Decidable (∀ o ∈ outcomes attempt list, o = .sent))

instance (attempt : Nat → Attempt) (list : Vmessage) : Decidable (NoneSent attempt list) :=
  inferInstanceAs (Decidable (¬ _ ∈ _))

variable {attempt : Nat → Attempt} {list : Vmessage}

theorem outcomes_cons (msg : Str) :
    outcomes attempt (msg :: list) =
      (attempt 0).outcome msg :: outcomes (fun i => attempt (i + 1)) list :=
  List.mapIdx_cons

theorem allSent_cons (msg : Str) : AllSent attempt (msg :: list) ↔
    (attempt 0).outcome msg = .sent ∧ AllSent (fun i => attempt (i + 1)) list := by
  simp only [AllSent, outcomes_cons, List.forall_mem_cons]

theorem transmit_sublist (attempt : Nat → Attempt) (list : Vmessage) (isOk : Bool) :
    (transmit attempt list isOk).1.Sublist list := by
  induction list generalizing attempt isOk with
  | nil => exact .slnil
  | cons msg list ih =>
      rw [transmit]
      cases (attempt 0).outcome msg with
      | skipped => exact (ih _ isOk).cons msg
      | refused => exact List.nil_sublist _
      | failed => exact (ih _ false).cons msg
      | sent => exact (ih _ true).cons_cons msg

theorem transmit_length_iff (attempt : Nat → Attempt) (list : Vmessage) (isOk : Bool) :
    (transmit attempt list isOk).1.length = list.length ↔ AllSent attempt list := by
  induction list generalizing attempt isOk with
  | nil => simp [transmit, AllSent, outcomes]
  | cons msg list ih =>
      have hle (b : Bool) := (transmit_sublist (fun i => attempt (i + 1)) list b).length_le
      rw [allSent_cons, transmit]
      cases h : (attempt 0).outcome msg with
      | skipped => have := hle isOk; simp; omega
      | refused => simp
      | failed => have := hle false; simp; omega
      | sent => simp [ih]

theorem transmit_nil_iff (attempt : Nat → Attempt) (list : Vmessage) (isOk : Bool) :
    (transmit attempt list isOk).1 = [] ↔ NoneSent attempt list := by
  induction list generalizing attempt isOk with
  | nil => simp [transmit, NoneSent, outcomes]
  | cons msg list ih =>
      rw [NoneSent, outcomes_cons, transmit]
      cases h : (attempt 0).outcome msg with
      | skipped => simpa [NoneSent] using ih _ isOk
      | refused => simp
      | failed => simpa [NoneSent] using ih _ false
      | sent => simp

theorem getLast?_cons_elim {α β : Type*} (f : α → β) (a : α) (l : List α) (b : β) :
    (a :: l).getLast?.elim b f = l.getLast?.elim (f a) f := by
  rw [List.getLast?_cons]
  cases l.getLast? <;> rfl

/-- `is_ok` tells of the last send tried only. -/
theorem transmit_isOk (isOk : Bool) : (transmit attempt list isOk).2 =
    (sendsMade attempt list).getLast?.elim isOk fun o => decide (o = .sent) := by
  induction list generalizing attempt isOk with
  | nil => rfl
  | cons msg list ih =>
      rw [transmit, sendsMade, outcomes_cons]
      cases h : (attempt 0).outcome msg with
      | skipped => simpa [sendsMade] using ih isOk
      | refused => simp
      | failed => simpa [sendsMade, getLast?_cons_elim] using ih false
      | sent => simpa [sendsMade, getLast?_cons_elim] using ih true

theorem transmit_isOk_iff : (transmit attempt list false).2 = true ↔ LastSent attempt list := by
  rw [transmit_isOk, LastSent]
  cases (sendsMade attempt list).getLast? with
  | none => simp
  | some o => simp

theorem transmit_isOk_of_nil (h : (transmit attempt list false).1 = []) :
    (transmit attempt list false).2 = false := by
  induction list generalizing attempt with
  | nil => rfl
  | cons msg list ih =>
      rw [transmit] at h ⊢
      cases ho : (attempt 0).outcome msg with
      | skipped => rw [ho] at h; exact ih h
      | refused => rfl
      | failed => rw [ho] at h; exact ih h
      | sent => rw [ho] at h; simp at h

theorem transmit_isOk_of_allSent (isOk : Bool) (h : AllSent attempt list) (hne : list ≠ []) :
    (transmit attempt list isOk).2 = true := by
  induction list generalizing attempt isOk with
  | nil => exact absurd rfl hne
  | cons msg list ih =>
      obtain ⟨ho, htail⟩ := (allSent_cons msg).mp h
      rw [transmit, ho]
      by_cases hlist : list = []
      · simp [hlist, transmit]
      · exact ih true htail hlist

end Outcomes

namespace RemoteThread

variable (r : RemoteThread) (mList : Mmessagelist) (env : RemoteEnv)

theorem runWork_of_nil (h : (r.append mList).msgList = []) :
    r.runWork mList env = ⟨r.append mList, [], [], false⟩ := if_pos h

theorem runWork_of_ok (h : (r.append mList).msgList ≠ [])
    (hok : (transmit env.attempt (r.append mList).msgList false).2 = true) :
    r.runWork mList env = ⟨(r.append mList).clear,
      (transmit env.attempt (r.append mList).msgList false).1, [], (r.append mList).flLocalExists⟩ := by
  simp only [runWork, if_neg h, hok, if_true]

theorem runWork_of_not_ok (h : (r.append mList).msgList ≠ [])
    (hok : (transmit env.attempt (r.append mList).msgList false).2 = false) :
    r.runWork mList env = ⟨(r.append mList).clear,
      (transmit env.attempt (r.append mList).msgList false).1, (r.append mList).saveRemoteFile env, false⟩ := by
  simp only [runWork, if_neg h, hok, Bool.false_eq_true, if_false]

theorem foldl_appendMessages (sizeInMemo : Int) (l : List Vmessage) (acc : Vmessage × Vmessage) :
    (l.foldl (appendMessages sizeInMemo) acc).2 ++ (l.foldl (appendMessages sizeInMemo) acc).1 =
      acc.2 ++ acc.1 ++ l.flatten := by
  induction l generalizing acc with
  | nil => simp
  | cons msg l ih =>
      have hmsg : (appendMessages sizeInMemo acc msg).2 ++ (appendMessages sizeInMemo acc msg).1 =
          acc.2 ++ acc.1 ++ msg := by
        simp only [appendMessages]
        split
        · rw [List.append_assoc, ← List.append_assoc (List.take _ _), List.take_append_drop,
            List.append_assoc]
        · rw [List.append_assoc]
      rw [List.foldl_cons, ih, hmsg, List.flatten_cons, List.append_assoc]

theorem dropped_append : r.dropped mList ++ (r.append mList).msgList = r.msgList ++ mList.values.flatten :=
  foldl_appendMessages r.sizeInMemo mList.values (r.msgList, [])

theorem runWork_thread : (r.runWork mList env).thread = (r.append mList).clear := by
  by_cases h : (r.append mList).msgList = []
  · rw [runWork_of_nil r mList env h, clear, ← h]
  · cases hok : (transmit env.attempt (r.append mList).msgList false).2 with
    | true => rw [runWork_of_ok r mList env h hok]
    | false => rw [runWork_of_not_ok r mList env h hok]

/-- Each message of the list is sent or saved, and only once, if and only if all
are sent or none is and the local file opens. -/
theorem runWork_keeps_iff :
    ((r.runWork mList env).sent ++ (r.runWork mList env).saved).Perm (r.append mList).msgList ↔
      AllSent env.attempt (r.append mList).msgList ∨
        NoneSent env.attempt (r.append mList).msgList ∧ env.opened = true := by
  by_cases hnil : (r.append mList).msgList = []
  · rw [runWork_of_nil r mList env hnil, hnil]
    exact ⟨fun _ => .inl fun o ho => by simp [outcomes] at ho, fun _ => .refl _⟩
  have hsub := transmit_sublist env.attempt (r.append mList).msgList false
  have hpos : 0 < (r.append mList).msgList.length := List.length_pos_iff.mpr hnil
  have hall := transmit_length_iff env.attempt (r.append mList).msgList false
  have hnone := transmit_nil_iff env.attempt (r.append mList).msgList false
  cases hok : (transmit env.attempt (r.append mList).msgList false).2 with
  | true =>
      rw [runWork_of_ok r mList env hnil hok, List.append_nil]
      constructor
      · intro h
        exact .inl (hall.mp h.length_eq)
      · rintro (h | ⟨h, -⟩)
        · rw [hsub.eq_of_length (hall.mpr h)]
        · rw [transmit_isOk_of_nil (hnone.mpr h)] at hok
          exact absurd hok Bool.false_ne_true
  | false =>
      rw [runWork_of_not_ok r mList env hnil hok]
      constructor
      · intro h
        have hlength := h.length_eq
        rw [List.length_append, saveRemoteFile] at hlength
        cases hopen : env.opened with
        | true =>
            simp only [hopen, if_true] at hlength
            exact .inr ⟨hnone.mp (List.length_eq_zero_iff.mp (by omega)), rfl⟩
        | false =>
            simp only [hopen, Bool.false_eq_true, if_false, List.length_nil] at hlength
            exact .inl (hall.mp hlength)
      · rintro (h | ⟨h, hopen⟩)
        · rw [transmit_isOk_of_allSent false h hnil] at hok
          exact absurd hok.symm Bool.false_ne_true
        · rw [hnone.mpr h, saveRemoteFile, hopen, if_pos rfl, List.nil_append]

/-- The first send fails, the second succeeds: the first message is lost. -/
theorem runWork_loses_failed : ¬ ∀ (r : RemoteThread) (mList : Mmessagelist) (env : RemoteEnv),
    ((r.runWork mList env).sent ++ (r.runWork mList env).saved).Perm (r.append mList).msgList := by
  intro h
  let mList : Mmessagelist := SortedMap.collect
    [("d/x.log".toList, "first\n".toList), ("d/x.log".toList, "second\n".toList)]
  let env : RemoteEnv := ⟨fun i => ⟨true, .connected, if i = 0 then [.error] else [.bytes 7]⟩, true⟩
  have hperm := h ⟨[], false, 1000⟩ mList env
  have hsent : (runWork ⟨[], false, 1000⟩ mList env).sent = ["second\n".toList] := by decide
  have hsaved : (runWork ⟨[], false, 1000⟩ mList env).saved = [] := by decide
  have hlist : (append ⟨[], false, 1000⟩ mList).msgList = ["first\n".toList, "second\n".toList] := by decide
  rw [hsent, hsaved, hlist] at hperm
  exact absurd hperm.length_eq (by decide)

end RemoteThread

end RadioServices.Logger

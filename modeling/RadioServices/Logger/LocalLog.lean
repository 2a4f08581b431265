import RadioServices.Lib.Lines
import RadioServices.Lib.Runs
import RadioServices.Logger.RemoteThread

namespace RadioServices.Logger.LocalLog

open Lib Lib.C Lib.Runs Lib.Lines RemoteThread

def sentFlags (attempt : Nat → Attempt) : Vmessage → List Bool
  | [] => []
  | msg :: list =>
      match (attempt 0).outcome msg with
      | .refused => false :: list.map fun _ => false
      | .sent => true :: sentFlags (fun i => attempt (i + 1)) list
      | _ => false :: sentFlags (fun i => attempt (i + 1)) list

def pick (b : Bool) : Vmessage → List Bool → Vmessage
  | msg :: list, flag :: flags => if flag = b then msg :: pick b list flags else pick b list flags
  | _, _ => []

def payload (t : Str) : Str := t.dropLast

/-- A text that was read back has no marker. Sent, it is the first message with this payload that is unsent no more. -/
def takeFrom (unsent : Vmessage) (t : Str) : Vmessage := unsent.eraseP fun u => payload u = t

/-- The local file and the thread that uses it. `held` are the messages its rounds held, each once, `unsent` those of
them that none has sent, `sent` is what the rounds sent, and `resaved` what they saved although the file held it. -/
structure State where
  file : Str
  worker : RemoteThread
  held : Vmessage
  unsent : Vmessage
  sent : Vmessage
  resaved : Str

inductive Event
  | round (mList : Mmessagelist) (env : RemoteEnv)
  | restart

def start (c : Config) : State := ⟨[], .new c [], [], [], [], []⟩

def reloaded (r : RemoteThread) (mList : Mmessagelist) : Vmessage :=
  r.msgList.drop (r.dropped mList).length

def received (r : RemoteThread) (mList : Mmessagelist) : Vmessage :=
  mList.values.flatten.drop ((r.dropped mList).length - r.msgList.length)

def unsentAfter (s : State) (mList : Mmessagelist) (attempt : Nat → Attempt) : Vmessage :=
  let flags := sentFlags attempt (s.worker.append mList).msgList
  (pick true (reloaded s.worker mList) flags).foldl takeFrom s.unsent ++
    pick false (received s.worker mList) (flags.drop (reloaded s.worker mList).length)

def step (c : Config) (s : State) : Event → State
  | .round mList env =>
      let round := s.worker.runWork mList env
      { file := if round.unlinkLocalFile then [] else s.file ++ round.saved.flatten
        worker := round.thread
        held := s.held ++ received s.worker mList
        unsent := unsentAfter s mList env.attempt
        sent := s.sent ++ round.sent
        resaved := s.resaved ++ (reloaded s.worker mList).flatten }
  | .restart => { s with worker := .new c s.file }

/-- The round is given messages of clients, its last send fails, and the file opens. -/
def Failed (s : State) : Event → Prop
  | .round mList env =>
      ¬ LastSent env.attempt (s.worker.append mList).msgList ∧ env.opened = true ∧
        ∀ t ∈ mList.values.flatten, ∃ m : TLogMsg, t = m.message
  | .restart => True

/-- No message holds the marker but at its end. -/
def Clean (list : Vmessage) : Prop := ∀ t ∈ list.map payload, '\n' ∉ t

section Pick

variable (b : Bool) (list list' : Vmessage) (flags : List Bool)

theorem pick_nil_right : pick b list [] = [] := by
  cases list <;> rfl

theorem pick_append : pick b (list ++ list') flags = pick b list flags ++ pick b list' (flags.drop list.length) := by
  induction list generalizing flags with
  | nil => rfl
  | cons msg list ih =>
      cases flags with
      | nil => simp only [pick_nil_right, List.drop_nil, List.append_nil]
      | cons flag flags =>
          simp only [List.cons_append, pick, List.length_cons, List.drop_succ_cons, ih]
          split <;> rfl

theorem pick_sublist : (pick b list flags).Sublist list := by
  induction list generalizing flags with
  | nil => exact .slnil
  | cons msg list ih =>
      cases flags with
      | nil => exact List.nil_sublist _
      | cons flag flags =>
          rw [pick]
          split
          · exact (ih flags).cons_cons msg
          · exact (ih flags).cons msg

variable {list flags}

theorem length_pick (h : flags.length = list.length) :
    (pick true list flags).length + (pick false list flags).length = list.length := by
  induction list generalizing flags with
  | nil => rfl
  | cons msg list ih =>
      cases flags with
      | nil => cases h
      | cons flag flags =>
          have hrest := ih (Nat.succ.inj h)
          cases flag <;> simp only [pick, reduceCtorEq, if_true, if_false, List.length_cons] <;> omega

theorem pick_true_eq_nil_iff (h : flags.length = list.length) :
    pick true list flags = [] ↔ pick false list flags = list := by
  have hlength := length_pick h
  constructor
  · intro hnil
    rw [hnil, List.length_nil, Nat.zero_add] at hlength
    exact (pick_sublist false list flags).eq_of_length hlength
  · intro hall
    rw [hall] at hlength
    exact List.length_eq_zero_iff.mp (by omega)

theorem length_sentFlags (attempt : Nat → Attempt) (list : Vmessage) :
    (sentFlags attempt list).length = list.length := by
  induction list generalizing attempt with
  | nil => rfl
  | cons msg list ih =>
      rw [sentFlags]
      split <;> simp [ih]

theorem pick_true_none (list : Vmessage) : pick true list (list.map fun _ => false) = [] := by
  induction list with
  | nil => rfl
  | cons msg list ih => exact ih

theorem transmit_eq_pick (attempt : Nat → Attempt) (list : Vmessage) (isOk : Bool) :
    (transmit attempt list isOk).1 = pick true list (sentFlags attempt list) := by
  induction list generalizing attempt isOk with
  | nil => rfl
  | cons msg list ih =>
      rw [transmit, sentFlags]
      cases (attempt 0).outcome msg with
      | skipped => exact ih _ isOk
      | refused => exact (pick_true_none list).symm
      | failed => exact ih _ false
      | sent => exact congrArg (msg :: ·) (ih _ true)

end Pick

section TakeFrom

variable {texts unsent : Vmessage}

theorem takeFrom_sublist (texts unsent : Vmessage) : (texts.foldl takeFrom unsent).Sublist unsent := by
  induction texts generalizing unsent with
  | nil => exact List.Sublist.refl _
  | cons t texts ih => exact (ih _).trans List.eraseP_sublist

theorem texts_eq_nil (hknown : ∀ t ∈ texts, ∃ u ∈ unsent, payload u = t)
    (hlength : unsent.length ≤ (texts.foldl takeFrom unsent).length) : texts = [] := by
  cases texts with
  | nil => rfl
  | cons t texts =>
      obtain ⟨u, hu, hpayload⟩ := hknown t List.mem_cons_self
      have hrest := (takeFrom_sublist texts (takeFrom unsent t)).length_le
      have herase : (takeFrom unsent t).length = unsent.length - 1 :=
        List.length_eraseP_of_mem hu (decide_eq_true hpayload)
      have hpos := List.length_pos_of_mem hu
      rw [List.foldl_cons] at hlength
      omega

end TakeFrom

structure Inv (s : State) : Prop where
  marked : ∀ t ∈ s.held, t = payload t ++ ['\n']
  worker : ∀ t ∈ s.worker.msgList, '\n' ∉ t
  count : s.file.count '\n' = s.held.flatten.count '\n'
  length : s.file.length = s.held.flatten.length + s.resaved.length
  once : s.resaved = [] → s.file = s.held.flatten
  empty : s.held = [] → s.file = [] ∧ s.worker.msgList = []
  sublist : s.unsent.Sublist s.held
  unsent : s.sent = [] → s.unsent = s.held
  known : Clean s.held → s.resaved = [] → s.unsent = s.held →
    s.sent = [] ∧ ∀ t ∈ s.worker.msgList, ∃ u ∈ s.held, payload u = t

section Round

variable (r : RemoteThread) (mList : Mmessagelist)

theorem append_msgList : (r.append mList).msgList = reloaded r mList ++ received r mList := by
  have h := congrArg (List.drop (r.dropped mList).length) (r.dropped_append mList)
  rwa [List.drop_left, List.drop_append] at h

theorem runWork_sent (env : RemoteEnv) :
    (r.runWork mList env).sent = (transmit env.attempt (r.append mList).msgList false).1 := by
  by_cases hnil : (r.append mList).msgList = []
  · rw [runWork_of_nil r mList env hnil, hnil]
    rfl
  · cases hok : (transmit env.attempt (r.append mList).msgList false).2 with
    | true => rw [runWork_of_ok r mList env hnil hok]
    | false => rw [runWork_of_not_ok r mList env hnil hok]

theorem runWork_failed {env : RemoteEnv} (hlast : ¬ LastSent env.attempt (r.append mList).msgList)
    (hopen : env.opened = true) :
    (r.runWork mList env).saved = (r.append mList).msgList ∧ (r.runWork mList env).unlinkLocalFile = false := by
  by_cases hnil : (r.append mList).msgList = []
  · rw [runWork_of_nil r mList env hnil, hnil]
    exact ⟨rfl, rfl⟩
  · have hok : (transmit env.attempt (r.append mList).msgList false).2 = false := by
      rw [← Bool.not_eq_true, transmit_isOk_iff]
      exact hlast
    rw [runWork_of_not_ok r mList env hnil hok, saveRemoteFile, if_pos hopen]
    exact ⟨rfl, rfl⟩

theorem not_mem_reloaded (h : ∀ t ∈ r.msgList, '\n' ∉ t) : '\n' ∉ (reloaded r mList).flatten := by
  intro hmem
  obtain ⟨t, ht, hmem⟩ := List.mem_flatten.mp hmem
  exact h t (List.mem_of_mem_drop ht) hmem

end Round

section Unsent

variable {s : State} {mList : Mmessagelist} {env : RemoteEnv}

theorem sent_eq_nil_iff (s : State) (mList : Mmessagelist) (env : RemoteEnv) :
    (s.worker.runWork mList env).sent = [] ↔
      pick true (reloaded s.worker mList) (sentFlags env.attempt (s.worker.append mList).msgList) = [] ∧
        pick false (received s.worker mList) ((sentFlags env.attempt (s.worker.append mList).msgList).drop
          (reloaded s.worker mList).length) = received s.worker mList := by
  have hflags := length_sentFlags env.attempt (s.worker.append mList).msgList
  rw [runWork_sent, transmit_eq_pick]
  generalize sentFlags env.attempt (s.worker.append mList).msgList = flags at hflags ⊢
  rw [append_msgList, List.length_append] at hflags
  have hlength : (flags.drop (reloaded s.worker mList).length).length = (received s.worker mList).length := by
    rw [List.length_drop]
    omega
  rw [append_msgList, pick_append, List.append_eq_nil_iff, pick_true_eq_nil_iff hlength]

theorem unsentAfter_sublist (h : s.unsent.Sublist s.held) (attempt : Nat → Attempt) :
    (unsentAfter s mList attempt).Sublist (s.held ++ received s.worker mList) :=
  ((takeFrom_sublist _ _).trans h).append (pick_sublist _ _ _)

theorem unsentAfter_eq (h : s.sent = [] → s.unsent = s.held)
    (hsent : s.sent ++ (s.worker.runWork mList env).sent = []) :
    unsentAfter s mList env.attempt = s.held ++ received s.worker mList := by
  obtain ⟨hold, hround⟩ := List.append_eq_nil_iff.mp hsent
  obtain ⟨hreloaded, hreceived⟩ := (sent_eq_nil_iff s mList env).mp hround
  simp only [unsentAfter, hreloaded, hreceived, List.foldl_nil, h hold]

/-- Where nothing is taken from the unsent messages, nothing was sent. -/
theorem sent_eq_nil_of_unsentAfter (hsublist : s.unsent.Sublist s.held)
    (hknown : s.unsent = s.held → s.sent = [] ∧ ∀ t ∈ s.worker.msgList, ∃ u ∈ s.held, payload u = t)
    (heq : unsentAfter s mList env.attempt = s.held ++ received s.worker mList) :
    s.sent ++ (s.worker.runWork mList env).sent = [] := by
  have hlength := congrArg List.length heq
  have htaken := (takeFrom_sublist (pick true (reloaded s.worker mList)
    (sentFlags env.attempt (s.worker.append mList).msgList)) s.unsent).length_le
  have hpicked := (pick_sublist false (received s.worker mList)
    ((sentFlags env.attempt (s.worker.append mList).msgList).drop (reloaded s.worker mList).length)).length_le
  have hle := hsublist.length_le
  simp only [unsentAfter, List.length_append] at hlength
  have hunsent : s.unsent = s.held := hsublist.eq_of_length (by omega)
  obtain ⟨hsent, htexts⟩ := hknown hunsent
  have hreloaded : pick true (reloaded s.worker mList)
      (sentFlags env.attempt (s.worker.append mList).msgList) = [] := by
    have hall : ∀ t ∈ pick true (reloaded s.worker mList) (sentFlags env.attempt (s.worker.append mList).msgList),
        ∃ u ∈ s.unsent, payload u = t := by
      intro t ht
      rw [hunsent]
      exact htexts t (List.mem_of_mem_drop ((pick_sublist _ _ _).subset ht))
    exact texts_eq_nil hall (by omega)
  have hreceived := (pick_sublist false (received s.worker mList)
    ((sentFlags env.attempt (s.worker.append mList).msgList).drop
      (reloaded s.worker mList).length)).eq_of_length (by omega)
  rw [hsent, (sent_eq_nil_iff s mList env).mpr ⟨hreloaded, hreceived⟩, List.append_nil]

end Unsent

theorem clean_append {list list' : Vmessage} (h : Clean (list ++ list')) : Clean list := by
  intro t ht
  refine h t ?_
  rw [List.map_append]
  exact List.mem_append_left _ ht

theorem file_round {c : Config} {s : State} {mList : Mmessagelist} {env : RemoteEnv}
    (hlast : ¬ LastSent env.attempt (s.worker.append mList).msgList) (hopen : env.opened = true) :
    (step c s (.round mList env)).file =
      s.file ++ ((reloaded s.worker mList).flatten ++ (received s.worker mList).flatten) := by
  obtain ⟨hsaved, hunlink⟩ := runWork_failed s.worker mList hlast hopen
  simp only [step, hunlink, hsaved, append_msgList, List.flatten_append, Bool.false_eq_true, if_false]

/-- A round leaves nothing in the list of the worker, whether it was sent or not. -/
theorem worker_round (c : Config) (s : State) (mList : Mmessagelist) (env : RemoteEnv) :
    (step c s (.round mList env)).worker.msgList = [] := by
  change (s.worker.runWork mList env).thread.msgList = []
  rw [runWork_thread]
  rfl

theorem inv_round {c : Config} {s : State} {mList : Mmessagelist} {env : RemoteEnv} (h : Inv s)
    (hfailed : Failed s (.round mList env)) : Inv (step c s (.round mList env)) := by
  obtain ⟨hlast, hopen, hmessages⟩ := hfailed
  have hfile := file_round (c := c) hlast hopen
  have hheld : (step c s (.round mList env)).held = s.held ++ received s.worker mList := rfl
  have hresaved : (step c s (.round mList env)).resaved =
      s.resaved ++ (reloaded s.worker mList).flatten := rfl
  have hworker := worker_round c s mList env
  constructor
  · intro t ht
    rw [hheld] at ht
    rcases List.mem_append.mp ht with ht | ht
    · exact h.marked t ht
    · obtain ⟨m, rfl⟩ := hmessages t (List.mem_of_mem_drop ht)
      exact (congrArg (· ++ ['\n']) List.dropLast_concat).symm
  · intro t ht
    rw [hworker] at ht
    cases ht
  · have hnot := not_mem_reloaded s.worker mList h.worker
    rw [hfile, hheld, List.flatten_append, List.count_append, List.count_append, List.count_append,
      h.count, List.count_eq_zero.mpr hnot, Nat.zero_add]
  · rw [hfile, hheld, hresaved, List.flatten_append]
    simp only [List.length_append, h.length]
    omega
  · intro hnil
    rw [hresaved] at hnil
    obtain ⟨hold, hreloaded⟩ := List.append_eq_nil_iff.mp hnil
    rw [hfile, hheld, h.once hold, hreloaded, List.nil_append, List.flatten_append]
  · intro hnil
    rw [hheld] at hnil
    obtain ⟨hold, hreceived⟩ := List.append_eq_nil_iff.mp hnil
    obtain ⟨hempty, hlist⟩ := h.empty hold
    refine ⟨?_, hworker⟩
    rw [hfile, hempty, hreceived, reloaded, hlist, List.drop_nil]
    rfl
  · exact unsentAfter_sublist h.sublist env.attempt
  · exact unsentAfter_eq h.unsent
  · intro hclean hnil heq
    rw [hresaved] at hnil
    have hknown := h.known (clean_append hclean) (List.append_eq_nil_iff.mp hnil).1
    refine ⟨sent_eq_nil_of_unsentAfter h.sublist hknown heq, fun t ht => ?_⟩
    rw [hworker] at ht
    cases ht

theorem terminated_payloads {s : State} (h : Inv s) : terminated '\n' (s.held.map payload) = s.held.flatten := by
  rw [terminated, List.flatMap_map, List.flatMap_def]
  apply congrArg List.flatten
  conv_rhs => rw [← List.map_id s.held]
  exact List.map_congr_left fun t ht => (h.marked t ht).symm

/-- Without markers inside and with nothing saved twice, the file is read as the payloads of what was held. -/
theorem getLocalMsgList_of_clean {s : State} (h : Inv s) (hclean : Clean s.held) (hresaved : s.resaved = []) :
    getLocalMsgList s.file = s.held.map payload := by
  rw [h.once hresaved, ← terminated_payloads h]
  exact (lines_terminated_iff _).mpr hclean

theorem inv_restart {c : Config} {s : State} (h : Inv s) : Inv (step c s .restart) := by
  refine ⟨h.marked, fun t ht => not_mem_of_mem_lines ht, h.count, h.length, h.once, fun hnil => ?_, h.sublist, h.unsent,
    fun hclean hresaved heq => ⟨(h.known hclean hresaved heq).1, fun t ht => ?_⟩⟩
  · obtain ⟨hempty, -⟩ := h.empty hnil
    refine ⟨hempty, ?_⟩
    change getLocalMsgList s.file = []
    rw [hempty]
    rfl
  · change t ∈ getLocalMsgList s.file at ht
    rw [getLocalMsgList_of_clean h hclean hresaved] at ht
    exact List.mem_map.mp ht

theorem inv_step {c : Config} (s : State) (e : Event) (h : Inv s) (hfailed : Failed s e) :
    Inv (step c s e) := by
  cases e with
  | round mList env => exact inv_round h hfailed
  | restart => exact inv_restart h

theorem inv_start (c : Config) : Inv (start c) := by
  constructor <;> simp [start, RemoteThread.new, getLocalMsgList]

theorem length_le_count {list : Vmessage} (h : ∀ t ∈ list, t = payload t ++ ['\n']) :
    list.length ≤ list.flatten.count '\n' := by
  induction list with
  | nil => exact Nat.zero_le _
  | cons t list ih =>
      have hrest := ih fun u hu => h u (List.mem_cons_of_mem t hu)
      have ht : 0 < t.count '\n' := by
        apply List.count_pos_iff.mpr
        rw [h t List.mem_cons_self]
        exact List.mem_append_right _ (List.mem_singleton_self _)
      rw [List.flatten_cons, List.count_append, List.length_cons]
      omega

theorem getLocalMsgList_eq_iff {s : State} (h : Inv s) : getLocalMsgList s.file = s.unsent ↔ s.held = [] := by
  constructor
  · intro heq
    have hunsent : s.unsent = [] := by
      apply List.eq_nil_iff_forall_not_mem.mpr
      intro t ht
      have hnot : '\n' ∉ t := not_mem_of_mem_lines (heq.symm ▸ ht)
      rw [h.marked t (h.sublist.subset ht)] at hnot
      exact hnot (List.mem_append_right _ (List.mem_singleton_self _))
    have hread : (lines '\n' s.file).length = 0 := by
      change (getLocalMsgList s.file).length = 0
      rw [heq, hunsent]
      rfl
    have hcount := count_le_length_lines '\n' s.file
    have hheld := length_le_count h.marked
    rw [h.count] at hcount
    exact List.length_eq_zero_iff.mp (by omega)
  · intro hnil
    have hunsent : s.unsent = [] := List.sublist_nil.mp (hnil ▸ h.sublist)
    rw [hunsent, (h.empty hnil).1]
    rfl

theorem getLocalMsgList_payload_iff {s : State} (h : Inv s) :
    getLocalMsgList s.file = s.unsent.map payload ↔ Clean s.unsent ∧ s.resaved = [] ∧ s.sent = [] := by
  constructor
  · intro heq
    have heq : lines '\n' s.file = s.unsent.map payload := heq
    have hclean : Clean s.unsent := fun t ht => not_mem_of_mem_lines (heq.symm ▸ ht)
    have hunsent : s.unsent = s.held := by
      have hcount := count_le_length_lines '\n' s.file
      have hheld := length_le_count h.marked
      have hle := h.sublist.length_le
      rw [h.count, heq, List.length_map] at hcount
      exact h.sublist.eq_of_length (by omega)
    have hterminated := terminated_payloads h
    have hcount := count_terminated hclean
    rw [hunsent, hterminated, ← h.count, ← hunsent, ← heq] at hcount
    have hfile := terminated_lines hcount
    rw [heq, hunsent, hterminated] at hfile
    have hlength := h.length
    rw [← hfile] at hlength
    have hresaved : s.resaved = [] := List.length_eq_zero_iff.mp (by omega)
    exact ⟨hclean, hresaved, (h.known (hunsent ▸ hclean) hresaved hunsent).1⟩
  · rintro ⟨hclean, hresaved, hsent⟩
    have hunsent := h.unsent hsent
    rw [hunsent] at hclean ⊢
    exact getLocalMsgList_of_clean h hclean hresaved

/-- After any failed rounds and restarts, the messages are read back as they were
held only if there were none, and as the clients sent them if and only if none holds
the marker, no round saved a message that was read back, and none sent one that it saved. -/
theorem run_readBack {c : Config} {es : List Event} (h : Permitted (step c) Failed (start c) es) :
    let s := run (step c) (start c) es
    (getLocalMsgList s.file = s.unsent ↔ s.held = []) ∧
      (getLocalMsgList s.file = s.unsent.map payload ↔ Clean s.unsent ∧ s.resaved = [] ∧ s.sent = []) := by
  have hinv := run_invariant Inv inv_step (inv_start c) h
  exact ⟨getLocalMsgList_eq_iff hinv, getLocalMsgList_payload_iff hinv⟩

def offline : Config := ⟨"/logs".toList, .REMOTE_STORE, 1000, 100, 0, 50⟩

def messages (texts : List Str) : Mmessagelist :=
  SortedMap.collect (texts.map fun t => ("shop/a.log".toList, (TLogMsg.new .empty t).message))

def brokenEnv : RemoteEnv := ⟨fun i => ⟨true, .connected, if i = 0 then [.bytes 2] else [.error]⟩, true⟩

def refusedEnv : RemoteEnv := ⟨fun _ => ⟨true, .refused, []⟩, true⟩

theorem given_messages {texts : List Str} (h : (messages texts).values.flatten =
    texts.map fun t => (TLogMsg.new .empty t).message) :
    ∀ t ∈ (messages texts).values.flatten, ∃ m : TLogMsg, t = m.message := by
  intro t ht
  rw [h] at ht
  obtain ⟨text, -, rfl⟩ := List.mem_map.mp ht
  exact ⟨_, rfl⟩

theorem run_readBack_demo :
    let s := run (step offline) (start offline)
      [.round (messages ["a".toList, "b".toList]) brokenEnv, .restart, .round (messages ["c".toList]) refusedEnv]
    (getLocalMsgList s.file = s.unsent ↔ s.held = []) ∧
      (getLocalMsgList s.file = s.unsent.map payload ↔ Clean s.unsent ∧ s.resaved = [] ∧ s.sent = []) := by
  refine run_readBack ⟨⟨?_, rfl, given_messages (by decide)⟩, trivial, ⟨?_, rfl, given_messages (by decide)⟩, trivial⟩
  · rw [← transmit_isOk_iff]
    decide
  · rw [← transmit_isOk_iff]
    decide

/-- One message is read back as two, without the marker. -/
theorem not_readBack : ¬ ∀ (c : Config) (es : List Event), Permitted (step c) Failed (start c) es →
    getLocalMsgList (run (step c) (start c) es).file = (run (step c) (start c) es).unsent := by
  intro h
  let es : List Event := [.round (messages ["a\nb".toList]) refusedEnv]
  have hlast : ¬ LastSent refusedEnv.attempt ((start offline).worker.append (messages ["a\nb".toList])).msgList := by
    rw [← transmit_isOk_iff]
    decide
  have heq := h offline es ⟨⟨hlast, rfl, given_messages (by decide)⟩, trivial⟩
  have hread : getLocalMsgList (run (step offline) (start offline) es).file = ["a".toList, "b".toList] := by decide
  have hunsent : (run (step offline) (start offline) es).unsent = ["a\nb\n".toList] := by decide
  rw [hread, hunsent] at heq
  exact absurd heq (by decide)

end RadioServices.Logger.LocalLog

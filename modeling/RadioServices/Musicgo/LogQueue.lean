import RadioServices.Lib.Runs
import RadioServices.Musicgo.LogRecord

namespace RadioServices.Musicgo.LogQueue

open Lib Lib.C Lib.Runs LogRecord

/-- A record that the message has room for. -/
structure Message where
  text : Str
  nul : '\x00' ∉ text
  fits : text.length ≤ MSG_SIZE - 1

def Message.bytes (m : Message) : Str := m.text ++ List.replicate (MSG_SIZE - m.text.length) '\x00'

inductive Phase
  | serving
  | leaving
  | zombie
  | reaped
  deriving DecidableEq

/-- A child, with the record it sends for its request, if that is not empty. -/
structure Child where
  message : Option Message
  phase : Phase

/-- Where the handler of SIGCHLD is: at `waitpid`, or at the queue after a child. -/
inductive Handler
  | idle
  | waiting
  | draining (child : Nat)
  deriving DecidableEq

/-- The server with its children and the queue. `taken` are the texts that `msgrcv` has had for the handler, `accepted`
and `refused` the children whose record the queue took or did not take. -/
structure State where
  children : List Child
  queue : List Str
  pending : Bool
  handler : Handler
  taken : List Str
  accepted : List Nat
  refused : List Nat

inductive Event
  | fork (message : Option Message)
  | send (child : Nat)
  | exit (child : Nat)
  | signal
  | wait (child : Nat)
  | drain (beyond : Str)

def init : State := ⟨[], [], false, .idle, [], [], []⟩

def phaseOf (s : State) (i : Nat) : Option Phase := s.children[i]?.map Child.phase

def messageOf (s : State) (i : Nat) : Option Message := s.children[i]?.bind Child.message

def setPhase (s : State) (i : Nat) (phase : Phase) : State :=
  { s with children := s.children.modify i fun c => { c with phase := phase } }

/-- The server itself goes on only while no handler runs. -/
def doFork (s : State) (message : Option Message) : State :=
  if s.handler = .idle then { s with children := s.children ++ [⟨message, .serving⟩] } else s

/-- `msg_send` with IPC_NOWAIT: a full queue takes nothing, and nobody is told. -/
def msgSend (capacity : Nat) (s : State) (i : Nat) (m : Message) : State :=
  if s.queue.length < capacity then { s with queue := s.queue ++ [m.bytes], accepted := s.accepted ++ [i] }
  else { s with refused := s.refused ++ [i] }

def doSend (capacity : Nat) (s : State) (i : Nat) : State :=
  if phaseOf s i = some .serving then
    match messageOf s i with
    | none => setPhase s i .leaving
    | some m => msgSend capacity (setPhase s i .leaving) i m
  else s

def doExit (s : State) (i : Nat) : State :=
  if phaseOf s i = some .serving ∨ phaseOf s i = some .leaving then { setPhase s i .zombie with pending := true } else s

/-- The signals of several children may have become one. -/
def sighandler (s : State) : State :=
  if s.pending = true ∧ s.handler = .idle then { s with pending := false, handler := .waiting } else s

def doWait (s : State) (i : Nat) : State :=
  if s.handler = .waiting then
    if s.children.any fun c => decide (c.phase = .zombie) then
      if phaseOf s i = some .zombie then { setPhase s i .reaped with handler := .draining i } else s
    else { s with handler := .idle }
  else s

def doDrain (s : State) (beyond : Str) : State :=
  match s.handler, s.queue with
  | .draining _, [] => { s with handler := .waiting }
  | .draining _, msg :: queue => { s with queue := queue, taken := s.taken ++ [receivedText msg beyond] }
  | _, _ => s

def step (capacity : Nat) (s : State) : Event → State
  | .fork message => doFork s message
  | .send i => doSend capacity s i
  | .exit i => doExit s i
  | .signal => sighandler s
  | .wait i => doWait s i
  | .drain beyond => doDrain s beyond

def textOf (s : State) (i : Nat) : Option Str := (messageOf s i).map Message.text

def bytesOf (s : State) (i : Nat) : Option Str := (messageOf s i).map Message.bytes

section Children

variable {s : State} {i j : Nat} {phase : Phase}

theorem phaseOf_setPhase : phaseOf (setPhase s i phase) j =
    if i = j then (phaseOf s j).map fun _ => phase else phaseOf s j := by
  rw [phaseOf, phaseOf, setPhase, List.getElem?_modify]
  cases s.children[j]? with
  | none => split <;> rfl
  | some c => split <;> simp_all

theorem phaseOf_setPhase_cases {p : Phase} (h : phaseOf (setPhase s i phase) j = some p) :
    i = j ∧ p = phase ∨ i ≠ j ∧ phaseOf s j = some p := by
  rw [phaseOf_setPhase] at h
  split at h
  · rename_i hij
    obtain ⟨old, -, rfl⟩ := Option.map_eq_some_iff.mp h
    exact .inl ⟨hij, rfl⟩
  · rename_i hij
    exact .inr ⟨hij, h⟩

theorem messageOf_setPhase : messageOf (setPhase s i phase) j = messageOf s j := by
  rw [messageOf, messageOf, setPhase, List.getElem?_modify]
  cases s.children[j]? with
  | none => rfl
  | some c => by_cases h : i = j <;> simp [h]

theorem receivedText_bytes (m : Message) (beyond : Str) : receivedText m.bytes beyond = m.text := by
  obtain ⟨msg, hmsg, hrecv⟩ := ((arrives_iff_length m.nul).mpr m.fits).received
  have hle : m.text.length ≤ MSG_SIZE := m.fits.trans (Nat.sub_le _ _)
  rw [LogRecord.msgSend, if_pos hle] at hmsg
  rw [Message.bytes, Option.some.inj hmsg, hrecv]

end Children

/-- The records received and the records in the queue are those the queue took, in
their order, and what is in the queue is of children that are not reaped, or
of the one that has been last. -/
structure Inv (s : State) (done queued : List Nat) : Prop where
  accepted : s.accepted = done ++ queued
  taken : s.taken.map some = done.map (textOf s)
  queue : s.queue.map some = queued.map (bytesOf s)
  once : (s.accepted ++ s.refused).Nodup
  sent : ∀ i ∈ s.accepted ++ s.refused, ∃ phase, phaseOf s i = some phase ∧ phase ≠ .serving
  unread : ∀ i ∈ queued, phaseOf s i = some .reaped → s.handler = .draining i
  zombies : ∀ i, phaseOf s i = some .zombie → s.pending = true ∨ s.handler ≠ .idle

section Steps

variable {s t : State} {done queued : List Nat} {capacity : Nat}

theorem inv_init : Inv init [] [] :=
  ⟨rfl, rfl, rfl, .nil, fun _ h => (nomatch h), fun _ h => (nomatch h), fun _ h => (nomatch h)⟩

theorem map_textOf_congr {l : List Nat} (h : ∀ i ∈ l, messageOf t i = messageOf s i) :
    l.map (textOf t) = l.map (textOf s) := List.map_congr_left fun i hi => congrArg (Option.map Message.text) (h i hi)

theorem map_bytesOf_congr {l : List Nat} (h : ∀ i ∈ l, messageOf t i = messageOf s i) :
    l.map (bytesOf t) = l.map (bytesOf s) := List.map_congr_left fun i hi => congrArg (Option.map Message.bytes) (h i hi)

/-- A step that leaves the queue and what has been taken and sent alone. -/
theorem Inv.of_children (h : Inv s done queued)
    (hfields : t.accepted = s.accepted ∧ t.refused = s.refused ∧ t.taken = s.taken ∧ t.queue = s.queue)
    (hmessage : ∀ i ∈ s.accepted, messageOf t i = messageOf s i)
    (hsent : ∀ i phase, phaseOf s i = some phase → phase ≠ .serving →
      ∃ phase, phaseOf t i = some phase ∧ phase ≠ .serving)
    (hunread : ∀ i ∈ queued, phaseOf t i = some .reaped → t.handler = .draining i)
    (hzombies : ∀ i, phaseOf t i = some .zombie → t.pending = true ∨ t.handler ≠ .idle) : Inv t done queued := by
  obtain ⟨haccepted, hrefused, htaken, hqueue⟩ := hfields
  have hdone : ∀ i ∈ done, messageOf t i = messageOf s i := fun i hi =>
    hmessage i (h.accepted ▸ List.mem_append_left _ hi)
  have hqueued : ∀ i ∈ queued, messageOf t i = messageOf s i := fun i hi =>
    hmessage i (h.accepted ▸ List.mem_append_right _ hi)
  refine ⟨haccepted.trans h.accepted, ?_, ?_, ?_, ?_, hunread, hzombies⟩
  · rw [htaken, h.taken, map_textOf_congr hdone]
  · rw [hqueue, h.queue, map_bytesOf_congr hqueued]
  · rw [haccepted, hrefused]
    exact h.once
  · intro i hi
    rw [haccepted, hrefused] at hi
    obtain ⟨phase, hphase, hne⟩ := h.sent i hi
    exact hsent i phase hphase hne

theorem inv_doFork (h : Inv s done queued) (message : Option Message) : Inv (doFork s message) done queued := by
  rw [doFork]
  split
  · rename_i hidle
    have hold : ∀ i phase, phaseOf s i = some phase →
        (s.children ++ [⟨message, .serving⟩])[i]? = s.children[i]? := by
      intro i phase hphase
      obtain ⟨c, hc, -⟩ := Option.map_eq_some_iff.mp hphase
      exact List.getElem?_append_left (List.getElem?_eq_some_iff.mp hc).1
    have hphases : ∀ i phase, phaseOf { s with children := s.children ++ [⟨message, .serving⟩] } i = some phase →
        phase ≠ .serving → phaseOf s i = some phase := by
      intro i phase hphase hne
      obtain ⟨c, hc, rfl⟩ := Option.map_eq_some_iff.mp hphase
      rw [List.getElem?_append] at hc
      split at hc
      · rw [phaseOf, hc]
        rfl
      · obtain ⟨hi, rfl⟩ := List.getElem?_eq_some_iff.mp hc
        rw [List.getElem_singleton] at hne
        exact absurd rfl hne
    refine h.of_children ⟨rfl, rfl, rfl, rfl⟩ ?_ ?_ ?_ ?_
    · intro i hi
      obtain ⟨phase, hphase, -⟩ := h.sent i (List.mem_append_left _ hi)
      exact congrArg (Option.bind · Child.message) (hold i phase hphase)
    · intro i phase hphase hne
      exact ⟨phase, (congrArg (Option.map Child.phase) (hold i phase hphase)).trans hphase, hne⟩
    · intro i hi hreaped
      exact h.unread i hi (hphases i _ hreaped (by decide))
    · intro i hzombie
      exact h.zombies i (hphases i _ hzombie (by decide))
  · exact h

theorem inv_setPhase (h : Inv s done queued) {i : Nat} {phase : Phase} (hne : phase ≠ .serving)
    {handler : Handler} {pending : Bool}
    (hunread : ∀ j ∈ queued, phaseOf (setPhase s i phase) j = some .reaped → handler = .draining j)
    (hzombies : ∀ j, phaseOf (setPhase s i phase) j = some .zombie → pending = true ∨ handler ≠ .idle) :
    Inv { setPhase s i phase with handler := handler, pending := pending } done queued := by
  refine h.of_children ⟨rfl, rfl, rfl, rfl⟩ (fun j _ => messageOf_setPhase) ?_ hunread hzombies
  intro j old hold hserving
  have hphase : phaseOf (setPhase s i phase) j = if i = j then some phase else some old := by
    rw [phaseOf_setPhase, hold]
    rfl
  by_cases hij : i = j
  · exact ⟨phase, hphase.trans (if_pos hij), hne⟩
  · exact ⟨old, hphase.trans (if_neg hij), hserving⟩

theorem inv_leaving (h : Inv s done queued) (i : Nat) : Inv (setPhase s i .leaving) done queued := by
  refine @inv_setPhase s done queued h i .leaving (by decide) s.handler s.pending ?_ ?_
  · intro j hj hreaped
    rcases phaseOf_setPhase_cases hreaped with ⟨-, hphase⟩ | ⟨-, hold⟩
    · cases hphase
    · exact h.unread j hj hold
  · intro j hzombie
    rcases phaseOf_setPhase_cases hzombie with ⟨-, hphase⟩ | ⟨-, hold⟩
    · cases hphase
    · exact h.zombies j hold

theorem inv_msgSend (h : Inv s done queued) {i : Nat} {m : Message} (hmessage : messageOf s i = some m)
    (hphase : phaseOf s i = some .leaving) (hnew : i ∉ s.accepted ++ s.refused) :
    ∃ queued, Inv (msgSend capacity s i m) done queued := by
  have hsent : ∀ l : List Nat, (∀ j ∈ l, j = i ∨ j ∈ s.accepted ++ s.refused) →
      ∀ j ∈ l, ∃ phase, phaseOf s j = some phase ∧ phase ≠ .serving := by
    intro l hl j hj
    rcases hl j hj with rfl | hold
    · exact ⟨.leaving, hphase, by decide⟩
    · exact h.sent j hold
  rw [msgSend]
  split
  · have hperm : (s.accepted ++ [i] ++ s.refused).Perm (i :: (s.accepted ++ s.refused)) := by
      rw [List.append_assoc]
      exact List.perm_middle
    refine ⟨queued ++ [i], ?_, h.taken, ?_, ?_, ?_, ?_, h.zombies⟩
    · change s.accepted ++ [i] = done ++ (queued ++ [i])
      rw [h.accepted, List.append_assoc]
    · change (s.queue ++ [m.bytes]).map some = (queued ++ [i]).map (bytesOf s)
      rw [List.map_append, List.map_append, h.queue, List.map_singleton, List.map_singleton, bytesOf, hmessage]
      rfl
    · exact hperm.nodup_iff.mpr (List.nodup_cons.mpr ⟨hnew, h.once⟩)
    · exact hsent _ fun j hj => List.mem_cons.mp (hperm.mem_iff.mp hj)
    · intro j hj hreaped
      rcases List.mem_append.mp hj with hj | hj
      · exact h.unread j hj hreaped
      · rw [List.mem_singleton.mp hj] at hreaped
        cases hphase.symm.trans hreaped
  · have hperm : (s.accepted ++ (s.refused ++ [i])).Perm (i :: (s.accepted ++ s.refused)) := by
      rw [← List.append_assoc]
      exact List.perm_append_singleton i _
    exact ⟨queued, h.accepted, h.taken, h.queue, hperm.nodup_iff.mpr (List.nodup_cons.mpr ⟨hnew, h.once⟩),
      hsent _ fun j hj => List.mem_cons.mp (hperm.mem_iff.mp hj), h.unread, h.zombies⟩

theorem inv_doSend (h : Inv s done queued) (i : Nat) : ∃ queued, Inv (doSend capacity s i) done queued := by
  rw [doSend]
  split
  · rename_i hserving
    have hnew : i ∉ s.accepted ++ s.refused := fun hi => by
      obtain ⟨phase, hphase, hne⟩ := h.sent i hi
      exact hne (Option.some.inj (hphase.symm.trans hserving))
    have hphase : phaseOf (setPhase s i .leaving) i = some .leaving := by
      rw [phaseOf_setPhase, if_pos rfl, hserving]
      rfl
    cases hmessage : messageOf s i with
    | none => exact ⟨queued, inv_leaving h i⟩
    | some m => exact inv_msgSend (inv_leaving h i) (messageOf_setPhase.trans hmessage) hphase hnew
  · exact ⟨queued, h⟩

theorem inv_doExit (h : Inv s done queued) (i : Nat) : Inv (doExit s i) done queued := by
  rw [doExit]
  split
  · refine @inv_setPhase s done queued h i .zombie (by decide) s.handler true ?_ fun j _ => .inl rfl
    intro j hj hreaped
    rcases phaseOf_setPhase_cases hreaped with ⟨-, hphase⟩ | ⟨-, hold⟩
    · cases hphase
    · exact h.unread j hj hold
  · exact h

theorem inv_sighandler (h : Inv s done queued) : Inv (sighandler s) done queued := by
  rw [sighandler]
  split
  · rename_i hcond
    refine h.of_children ⟨rfl, rfl, rfl, rfl⟩ (fun _ _ => rfl) (fun i phase hphase hne => ⟨phase, hphase, hne⟩) ?_
      fun i _ => .inr (fun heq => (nomatch heq))
    intro i hi hreaped
    have hhandler := h.unread i hi hreaped
    rw [hcond.2] at hhandler
    cases hhandler
  · exact h

theorem inv_doWait (h : Inv s done queued) (i : Nat) : Inv (doWait s i) done queued := by
  rw [doWait]
  split
  · rename_i hwaiting
    have hread : ∀ j ∈ queued, phaseOf s j ≠ some .reaped := fun j hj hreaped => by
      have hhandler := h.unread j hj hreaped
      rw [hwaiting] at hhandler
      cases hhandler
    split
    · split
      · refine @inv_setPhase s done queued h i .reaped (by decide) (.draining i) s.pending ?_ fun j _ => .inr (fun heq => (nomatch heq))
        intro j hj hreaped
        rcases phaseOf_setPhase_cases hreaped with ⟨hij, -⟩ | ⟨-, hold⟩
        · rw [hij]
        · exact absurd hold (hread j hj)
      · exact h
    · rename_i hnone
      refine h.of_children ⟨rfl, rfl, rfl, rfl⟩ (fun _ _ => rfl) (fun j phase hphase hne => ⟨phase, hphase, hne⟩) ?_ ?_
      · exact fun j hj hreaped => absurd hreaped (hread j hj)
      · intro j hzombie
        obtain ⟨c, hc, hphase⟩ := Option.map_eq_some_iff.mp hzombie
        have hany : s.children.any (fun c => decide (c.phase = .zombie)) = true :=
          List.any_eq_true.mpr ⟨c, List.mem_of_getElem? hc, decide_eq_true hphase⟩
        exact absurd hany hnone
  · exact h

theorem inv_doDrain (h : Inv s done queued) (beyond : Str) : ∃ done queued, Inv (doDrain s beyond) done queued := by
  rw [doDrain]
  split
  · rename_i child hhandler hqueue
    have hempty : queued = [] := by
      have hmap := h.queue
      rw [hqueue] at hmap
      exact List.map_eq_nil_iff.mp hmap.symm
    refine ⟨done, queued, h.of_children ⟨rfl, rfl, rfl, rfl⟩ (fun _ _ => rfl)
      (fun i phase hphase hne => ⟨phase, hphase, hne⟩) ?_ fun i _ => .inr (fun heq => (nomatch heq))⟩
    intro i hi
    rw [hempty] at hi
    cases hi
  · rename_i child msg queue hhandler hqueue
    have hmap := h.queue
    rw [hqueue] at hmap
    cases queued with
    | nil => cases hmap
    | cons i queued =>
        obtain ⟨hfirst, hrest⟩ := List.cons_eq_cons.mp hmap
        obtain ⟨m, hm, hbytes⟩ := Option.map_eq_some_iff.mp hfirst.symm
        have htext : some (receivedText msg beyond) = textOf s i := by
          rw [← hbytes, receivedText_bytes, textOf, hm]
          rfl
        refine ⟨done ++ [i], queued, ?_, ?_, hrest, h.once, h.sent, ?_, ?_⟩
        · rw [h.accepted, List.append_assoc]
          rfl
        · change (s.taken ++ [receivedText msg beyond]).map some = (done ++ [i]).map (textOf s)
          rw [List.map_append, List.map_append, h.taken, List.map_singleton, List.map_singleton, htext]
        · intro j hj hreaped
          exact h.unread j (List.mem_cons_of_mem _ hj) hreaped
        · intro j _
          refine .inr fun hidle => ?_
          rw [hhandler] at hidle
          cases hidle
  · exact ⟨done, queued, h⟩

theorem inv_step (h : ∃ done queued, Inv s done queued) (e : Event) : ∃ done queued, Inv (step capacity s e) done queued := by
  obtain ⟨done, queued, h⟩ := h
  cases e with
  | fork message => exact ⟨done, queued, inv_doFork h message⟩
  | send i => exact ⟨done, inv_doSend h i⟩
  | exit i => exact ⟨done, queued, inv_doExit h i⟩
  | signal => exact ⟨done, queued, inv_sighandler h⟩
  | wait i => exact ⟨done, queued, inv_doWait h i⟩
  | drain beyond => exact inv_doDrain h beyond

theorem inv_run (capacity : Nat) (events : List Event) : ∃ done queued, Inv (run (step capacity) init events) done queued :=
  run_invariant_all (fun s => ∃ done queued, Inv s done queued) (fun _ e h => inv_step h e) ⟨[], [], inv_init⟩ events

end Steps

/-- What the handler has received of the records that the queue took. -/
structure Faithful (s : State) : Prop where
  order : s.taken.map some <+: s.accepted.map (textOf s)
  once : s.accepted.Nodup
  left : s.handler = .idle → s.pending = false →
    ∀ i ∈ s.accepted.drop s.taken.length, phaseOf s i = some .leaving
  complete : s.handler = .idle → s.pending = false →
    (∀ i phase, phaseOf s i = some phase → phase ≠ .serving ∧ phase ≠ .leaving) →
    s.taken.map some = s.accepted.map (textOf s)

theorem drop_accepted {s : State} {done queued : List Nat} (h : Inv s done queued) :
    s.accepted.drop s.taken.length = queued := by
  have hlength : s.taken.length = done.length := by
    have htaken := congrArg List.length h.taken
    rwa [List.length_map, List.length_map] at htaken
  rw [hlength, h.accepted, List.drop_left]

theorem left_of_inv {s : State} {done queued : List Nat} (h : Inv s done queued) (hidle : s.handler = .idle)
    (hpending : s.pending = false) : ∀ i ∈ queued, phaseOf s i = some .leaving := by
  intro i hi
  obtain ⟨phase, hphase, hne⟩ := h.sent i (List.mem_append_left _ (h.accepted ▸ List.mem_append_right _ hi))
  cases phase with
  | serving => exact absurd rfl hne
  | leaving => exact hphase
  | zombie =>
      rcases h.zombies i hphase with hp | hh
      · rw [hpending] at hp
        cases hp
      · exact absurd hidle hh
  | reaped =>
      have hhandler := h.unread i hi hphase
      rw [hidle] at hhandler
      cases hhandler

/-- However the children, their signals and the handler come in between, the
handler receives the records that the queue took, each once and in their order,
and what it does not have yet when it has nothing to do is of children that are
still there. -/
theorem faithful_run (capacity : Nat) (events : List Event) : Faithful (run (step capacity) init events) := by
  obtain ⟨done, queued, h⟩ := inv_run capacity events
  generalize run (step capacity) init events = s at h
  have hleft := left_of_inv h
  have horder : s.accepted.map (textOf s) = s.taken.map some ++ queued.map (textOf s) := by
    rw [h.accepted, List.map_append, h.taken]
  refine ⟨horder ▸ List.prefix_append _ _, (List.nodup_append.mp h.once).1, fun hidle hpending => ?_, ?_⟩
  · rw [drop_accepted h]
    exact hleft hidle hpending
  · intro hidle hpending hgone
    have hempty : queued = [] := List.eq_nil_iff_forall_not_mem.mpr fun i hi =>
      (hgone i .leaving (hleft hidle hpending i hi)).2 rfl
    rw [horder, hempty, List.map_nil, List.append_nil]

def live (s : State) : List Nat := (List.range s.children.length).filter fun i => decide (phaseOf s i ≠ some .reaped)

theorem mem_live {s : State} {i : Nat} {phase : Phase} (h : phaseOf s i = some phase) : i ∈ live s ↔ phase ≠ .reaped := by
  obtain ⟨c, hc, -⟩ := Option.map_eq_some_iff.mp h
  have hi := (List.getElem?_eq_some_iff.mp hc).1
  rw [live, List.mem_filter, List.mem_range, h, decide_eq_true_iff, ne_eq, Option.some.injEq]
  exact and_iff_right hi

/-- One for the child that the handler has waited for last, while the queue may have its record. -/
def drained (s : State) : Nat :=
  match s.handler with
  | .draining _ => 1
  | .idle | .waiting => 0

/-- The queue has no more records than are of the other children and of the one that has been waited for. -/
theorem room_of_inv {s : State} {done queued : List Nat} (h : Inv s done queued) {i : Nat}
    (hserving : phaseOf s i = some .serving) : s.queue.length < (live s).length + drained s := by
  have hlength : s.queue.length = queued.length := by
    have hqueue := congrArg List.length h.queue
    rwa [List.length_map, List.length_map] at hqueue
  have hnodup : queued.Nodup := by
    have haccepted := (List.nodup_append.mp h.once).1
    rw [h.accepted] at haccepted
    exact (List.nodup_append.mp haccepted).2.1
  have hlive : i ∈ live s := (mem_live hserving).mpr (by decide)
  have hpos := List.length_pos_of_mem hlive
  have hother : ∀ j ∈ queued, j ∈ (live s).erase i ∨ s.handler = .draining j := by
    intro j hj
    obtain ⟨phase, hphase, hne⟩ := h.sent j (List.mem_append_left _ (h.accepted ▸ List.mem_append_right _ hj))
    by_cases hreaped : phase = .reaped
    · exact .inr (h.unread j hj (hreaped ▸ hphase))
    · have hij : j ≠ i := by
        rintro rfl
        exact hne (Option.some.inj (hphase.symm.trans hserving))
      exact .inl ((List.mem_erase_of_ne hij).mpr ((mem_live hphase).mpr hreaped))
  have hbound : ∀ l : List Nat, (∀ j, s.handler = .draining j → j ∈ l) → queued.length ≤ l.length + ((live s).length - 1) := by
    intro l hl
    have hsubset : queued ⊆ l ++ (live s).erase i := fun j hj =>
      (hother j hj).elim (List.mem_append_right _) fun hdraining => List.mem_append_left _ (hl j hdraining)
    have hle := (List.subperm_of_subset hnodup hsubset).length_le
    rwa [List.length_append, List.length_erase_of_mem hlive] at hle
  rw [hlength, drained]
  cases hhandler : s.handler with
  | draining k =>
      have hle := hbound [k] fun j hj => by cases hhandler.symm.trans hj; exact List.mem_singleton_self k
      rw [List.length_singleton] at hle
      dsimp only
      omega
  | idle =>
      have hle := hbound [] fun j hj => nomatch hhandler.symm.trans hj
      rw [List.length_nil] at hle
      dsimp only
      omega
  | waiting =>
      have hle := hbound [] fun j hj => nomatch hhandler.symm.trans hj
      rw [List.length_nil] at hle
      dsimp only
      omega

section Crowd

variable {s : State} {i capacity : Nat} {phase old : Phase}

theorem live_congr {t : State} (hlength : t.children.length = s.children.length)
    (hphase : ∀ j, phaseOf t j = some .reaped ↔ phaseOf s j = some .reaped) : live t = live s := by
  rw [live, live, hlength]
  exact List.filter_congr fun j _ => decide_eq_decide.mpr (not_congr (hphase j))

theorem live_setPhase (hold : phaseOf s i = some old) (hne : old ≠ .reaped) (hphase : phase ≠ .reaped) :
    live (setPhase s i phase) = live s := by
  refine live_congr (List.length_modify _ _ _) fun j => ?_
  rw [phaseOf_setPhase]
  split
  · rename_i hij
    subst hij
    rw [hold, Option.map_some, Option.some.injEq, Option.some.injEq]
    exact iff_of_false hphase hne
  · rfl

theorem length_live_reaped (hold : phaseOf s i = some old) (hne : old ≠ .reaped) :
    (live (setPhase s i .reaped)).length + 1 ≤ (live s).length := by
  have hreaped : phaseOf (setPhase s i .reaped) i = some .reaped := by
    rw [phaseOf_setPhase, if_pos rfl, hold]
    rfl
  have hgone : i ∉ live (setPhase s i .reaped) := fun hi => (mem_live hreaped).mp hi rfl
  have hnodup : (i :: live (setPhase s i .reaped)).Nodup :=
    List.nodup_cons.mpr ⟨hgone, List.nodup_range.filter _⟩
  refine (List.subperm_of_subset hnodup fun j hj => ?_).length_le
  rcases List.mem_cons.mp hj with rfl | hj
  · exact (mem_live hold).mpr hne
  · have hij : i ≠ j := by
      rintro rfl
      exact hgone hj
    rw [live, List.mem_filter, List.mem_range, phaseOf_setPhase, if_neg hij] at hj
    have hchildren : (setPhase s i .reaped).children.length = s.children.length := List.length_modify _ _ _
    rw [hchildren] at hj
    exact List.mem_filter.mpr ⟨List.mem_range.mpr hj.1, hj.2⟩

theorem length_live_fork {t : State} {c : Child} (ht : t.children = s.children ++ [c]) :
    (live t).length ≤ (live s).length + 1 := by
  have hlength : t.children.length = s.children.length + 1 := ht ▸ List.length_append
  rw [live, live, hlength, List.range_succ, List.filter_append, List.length_append]
  refine Nat.add_le_add (le_of_eq (congrArg List.length (List.filter_congr fun j hj => ?_))) (List.length_filter_le _ _)
  have hsame : t.children[j]? = s.children[j]? := ht ▸ List.getElem?_append_left (List.mem_range.mp hj)
  rw [phaseOf, phaseOf, hsame]

/-- The children that are there, and the one whose record may still be in the queue, have a place each. -/
def Crowd (capacity : Nat) (s : State) : Prop := (live s).length + drained s ≤ capacity

theorem doSend_refused {done queued : List Nat} (h : Inv s done queued) (i : Nat) (hcrowd : Crowd capacity s) :
    (doSend capacity s i).refused = s.refused := by
  rw [doSend]
  split
  · rename_i hserving
    have hfree : s.queue.length < capacity := Nat.lt_of_lt_of_le (room_of_inv h hserving) hcrowd
    have hlt : (setPhase s i .leaving).queue.length < capacity := hfree
    cases messageOf s i with
    | none => rfl
    | some m =>
        change (msgSend capacity (setPhase s i .leaving) i m).refused = s.refused
        rw [msgSend, if_pos hlt]
        rfl
  · rfl

/-- Whenever a child is forked, those that are there leave a place of the queue to it. -/
def Room (capacity : Nat) (s : State) : Event → Prop
  | .fork _ => s.handler = .idle → (live s).length < capacity
  | _ => True

instance (capacity : Nat) (s : State) (e : Event) : Decidable (Room capacity s e) :=
  match e with
  | .fork _ => inferInstanceAs (Decidable (s.handler = .idle → (live s).length < capacity))
  | .send _ | .exit _ | .signal | .wait _ | .drain _ => isTrue trivial

theorem crowd_init : Crowd capacity init := Nat.zero_le _

theorem crowd_doSend (h : Crowd capacity s) (i : Nat) : Crowd capacity (doSend capacity s i) := by
  rw [doSend]
  split
  · rename_i hserving
    have hcrowd : Crowd capacity (setPhase s i .leaving) := by
      rw [Crowd, live_setPhase hserving (by decide) (by decide)]
      exact h
    cases messageOf s i with
    | none => exact hcrowd
    | some m =>
        change Crowd capacity (msgSend capacity (setPhase s i .leaving) i m)
        rw [msgSend]
        split <;> exact hcrowd
  · exact h

theorem crowd_doExit (h : Crowd capacity s) (i : Nat) : Crowd capacity (doExit s i) := by
  have hgone : ∀ old, phaseOf s i = some old → old ≠ .reaped →
      Crowd capacity { setPhase s i .zombie with pending := true } := by
    intro old hold hne
    change (live (setPhase s i .zombie)).length + drained s ≤ capacity
    rw [live_setPhase hold hne (by decide)]
    exact h
  rw [doExit]
  split
  · rename_i hphase
    rcases hphase with hphase | hphase
    · exact hgone _ hphase (by decide)
    · exact hgone _ hphase (by decide)
  · exact h

theorem crowd_doWait (h : Crowd capacity s) (i : Nat) : Crowd capacity (doWait s i) := by
  rw [doWait]
  split
  · rename_i hwaiting
    have hle : (live s).length ≤ capacity := (Nat.le_add_right _ _).trans h
    split
    · split
      · rename_i hzombie
        exact (length_live_reaped hzombie (by decide)).trans hle
      · exact h
    · exact hle
  · exact h

theorem crowd_step (h : Crowd capacity s) {e : Event} (hroom : Room capacity s e) : Crowd capacity (step capacity s e) := by
  have hle : (live s).length ≤ capacity := (Nat.le_add_right _ _).trans h
  cases e with
  | fork message =>
      change Crowd capacity (doFork s message)
      rw [doFork]
      split
      · rename_i hidle
        have hnone : drained { s with children := s.children ++ [⟨message, .serving⟩] } = 0 := by
          simp only [drained, hidle]
        rw [Crowd, hnone]
        exact (length_live_fork rfl).trans (hroom hidle)
      · exact h
  | send i => exact crowd_doSend h i
  | exit i => exact crowd_doExit h i
  | signal =>
      change Crowd capacity (sighandler s)
      rw [sighandler]
      split
      · exact hle
      · exact h
  | wait i => exact crowd_doWait h i
  | drain beyond =>
      change Crowd capacity (doDrain s beyond)
      rw [doDrain]
      split
      · exact hle
      · exact h
      · exact h

end Crowd

def Counted (s : State) : Prop :=
  ∀ i m, phaseOf s i = some .leaving → messageOf s i = some m → i ∈ s.accepted ++ s.refused

theorem counted_init : Counted init := by
  intro i m hphase
  cases hphase

theorem counted_setPhase {s : State} (h : Counted s) {i : Nat} {phase : Phase} (hne : phase ≠ .leaving) :
    Counted (setPhase s i phase) := by
  intro j m hphase hmessage
  rcases phaseOf_setPhase_cases hphase with ⟨-, heq⟩ | ⟨-, hold⟩
  · exact absurd heq.symm hne
  · exact h j m hold (messageOf_setPhase.symm.trans hmessage)

theorem counted_doFork {s : State} (h : Counted s) (message : Option Message) : Counted (doFork s message) := by
  rw [doFork]
  split
  · intro i m hphase hmessage
    by_cases hi : i < s.children.length
    · have hold : (s.children ++ [⟨message, .serving⟩])[i]? = s.children[i]? := List.getElem?_append_left hi
      exact h i m ((congrArg (Option.map Child.phase) hold).symm.trans hphase)
        ((congrArg (Option.bind · Child.message) hold).symm.trans hmessage)
    · obtain ⟨c, hc, hleaving⟩ := Option.map_eq_some_iff.mp hphase
      rw [List.getElem?_append_right (Nat.le_of_not_lt hi)] at hc
      obtain ⟨hlt, rfl⟩ := List.getElem?_eq_some_iff.mp hc
      rw [List.getElem_singleton] at hleaving
      cases hleaving
  · exact h

theorem counted_doSend {s : State} (h : Counted s) (capacity i : Nat) : Counted (doSend capacity s i) := by
  have hleaving : ∀ j m, phaseOf (setPhase s i .leaving) j = some .leaving →
      messageOf (setPhase s i .leaving) j = some m → (i = j ∧ messageOf s i = some m) ∨ j ∈ s.accepted ++ s.refused := by
    intro j m hphase hmessage
    rw [messageOf_setPhase] at hmessage
    rcases phaseOf_setPhase_cases hphase with ⟨rfl, -⟩ | ⟨-, hold⟩
    · exact .inl ⟨rfl, hmessage⟩
    · exact .inr (h j m hold hmessage)
  rw [doSend]
  split
  · cases hsend : messageOf s i with
    | none =>
        intro j m hphase hmessage
        rcases hleaving j m hphase hmessage with ⟨-, hsome⟩ | hold
        · rw [hsend] at hsome
          cases hsome
        · exact hold
    | some message =>
        change Counted (msgSend capacity (setPhase s i .leaving) i message)
        rw [msgSend]
        split
        · intro j m hphase hmessage
          change j ∈ s.accepted ++ [i] ++ s.refused
          rcases hleaving j m hphase hmessage with ⟨rfl, -⟩ | hold
          · simp
          · simpa using (List.mem_append.mp hold).imp_right .inr
        · intro j m hphase hmessage
          change j ∈ s.accepted ++ (s.refused ++ [i])
          rcases hleaving j m hphase hmessage with ⟨rfl, -⟩ | hold
          · simp
          · rw [← List.append_assoc]
            exact List.mem_append_left _ hold
  · exact h

theorem counted_step {s : State} (h : Counted s) (capacity : Nat) (e : Event) : Counted (step capacity s e) := by
  cases e with
  | fork message => exact counted_doFork h message
  | send i => exact counted_doSend h capacity i
  | exit i =>
      change Counted (doExit s i)
      rw [doExit]
      split
      · exact counted_setPhase h (by decide)
      · exact h
  | signal =>
      change Counted (sighandler s)
      rw [sighandler]
      split <;> exact h
  | wait i =>
      change Counted (doWait s i)
      rw [doWait]
      split
      · split
        · split
          · exact counted_setPhase h (by decide)
          · exact h
        · exact h
      · exact h
  | drain beyond =>
      change Counted (doDrain s beyond)
      rw [doDrain]
      split <;> exact h

theorem step_refused {s : State} {capacity : Nat} (hinv : ∃ done queued, Inv s done queued) (hnone : s.refused = [])
    (hcrowd : Crowd capacity s) (e : Event) : (step capacity s e).refused = [] := by
  obtain ⟨done, queued, h⟩ := hinv
  rw [← hnone]
  cases e with
  | fork message =>
      change (doFork s message).refused = _
      rw [doFork]
      split <;> rfl
  | send i => exact doSend_refused h i hcrowd
  | exit i =>
      change (doExit s i).refused = _
      rw [doExit]
      split <;> rfl
  | signal =>
      change (sighandler s).refused = _
      rw [sighandler]
      split <;> rfl
  | wait i =>
      change (doWait s i).refused = _
      rw [doWait]
      repeat' split
      all_goals rfl
  | drain beyond =>
      change (doDrain s beyond).refused = _
      rw [doDrain]
      split <;> rfl

/-- As long as the queue has a place for each child that is there when one more is forked, no record is lost: every child
that has answered is among those whose record the queue took. -/
theorem nothing_lost {capacity : Nat} {events : List Event}
    (hroom : Permitted (step capacity) (Room capacity) init events) :
    (run (step capacity) init events).refused = [] ∧
      ∀ i m, phaseOf (run (step capacity) init events) i = some .leaving →
        messageOf (run (step capacity) init events) i = some m → i ∈ (run (step capacity) init events).accepted := by
  have hcounted : Counted (run (step capacity) init events) :=
    run_invariant_all Counted (fun s e h => counted_step h capacity e) counted_init events
  have hnone := (run_invariant (fun s => (∃ done queued, Inv s done queued) ∧ s.refused = [] ∧ Crowd capacity s)
    (fun s e h hok => ⟨inv_step h.1 e, step_refused h.1 h.2.1 h.2.2 e, crowd_step h.2.2 hok⟩)
    ⟨⟨[], [], inv_init⟩, rfl, crowd_init⟩ hroom).2.1
  refine ⟨hnone, fun i m hphase hmessage => ?_⟩
  have hmem := hcounted i m hphase hmessage
  rwa [hnone, List.append_nil] at hmem

theorem nul_not_mem_letter {c : Char} (h : c ≠ '\x00') : '\x00' ∉ [c] := by
  rw [List.mem_singleton]
  exact h.symm

theorem letter_fits (c : Char) : [c].length ≤ MSG_SIZE - 1 := Nat.le_of_ble_eq_true rfl

def letter (c : Char) (h : c ≠ '\x00') : Message := ⟨[c], nul_not_mem_letter h, letter_fits c⟩

theorem a_ne_nul : 'a' ≠ '\x00' := by decide

theorem b_ne_nul : 'b' ≠ '\x00' := by decide

def sampleEvents : List Event :=
  [.fork (some (letter 'a' a_ne_nul)), .fork (some (letter 'b' b_ne_nul)), .send 1, .exit 1,
    .send 0, .signal, .wait 1, .drain [], .exit 0, .drain [], .drain [], .wait 0, .drain [], .wait 0]

theorem nothing_lost_sample : (run (step 2) init sampleEvents).refused = [] ∧
    (run (step 2) init sampleEvents).taken = ["b".toList, "a".toList] :=
  ⟨(nothing_lost (by decide)).1, by decide⟩

end RadioServices.Musicgo.LogQueue

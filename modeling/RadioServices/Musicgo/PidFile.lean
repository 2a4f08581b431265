import RadioServices.Lib.Runs
import Mathlib.Data.List.Nodup

namespace RadioServices.Musicgo.PidFile

open Lib.Runs

/-- Where a process is: in front of which call of the system. -/
inductive Phase
  | checking
  | reading (file : Nat)
  | asking (pid : Nat)
  | removing
  | creating
  | locking (file : Nat)
  | forking (file : Nat)
  | truncating (file : Nat)
  | writing (file : Nat)
  | listening
  | serving
  | looking
  | fetching (file : Nat)
  | killing (pid : Nat)
  | disposing
  deriving DecidableEq

/-- What a socket is bound to. -/
structure Address where
  host : String
  port : Int
  deriving DecidableEq

/-- A process of the program. `made` is the file that it, or the one that forked it, has made. -/
structure Process where
  pid : Nat
  handles : Bool
  daemon : Bool
  address : Option Address
  phase : Phase
  made : Option Nat
  deriving DecidableEq

/-- The files that were ever at the name of the PID file, with the number that was written to each (0 for
another text), and which of them is there. -/
structure State where
  path : Option Nat
  texts : List (Option Nat)
  procs : List Process

/-- The commands. A start has the host and the port of its settings. One whose file of settings is missing or wrong ends
in front of the signal handlers or behind them. -/
inductive Command
  | start (daemon : Bool) (address : Address)
  | stop
  | faulty (handles : Bool)

inductive Event
  | launch (pid : Nat) (command : Command)
  | call (pid : Nat) (ok : Bool) (child : Nat)
  | crash (pid : Nat)
  | term (pid : Nat)

def init (old : Option (Option Nat)) : State := ⟨old.map fun _ => 0, old.toList, []⟩

def textOf (s : State) (file : Nat) : Option Nat := s.texts.getD file none

/-- Nothing has this PID. `kill` takes 0 for the processes around the one that calls it. -/
def Free (s : State) (pid : Nat) : Prop := pid ≠ 0 ∧ ∀ p ∈ s.procs, p.pid ≠ pid

instance (s : State) (pid : Nat) : Decidable (Free s pid) :=
  inferInstanceAs (Decidable (_ ∧ ∀ p ∈ s.procs, p.pid ≠ pid))

def put (s : State) (p : Process) : State := { s with procs := p :: s.procs }

def without (s : State) (pid : Nat) : State := { s with procs := s.procs.filter fun p => decide (p.pid ≠ pid) }

def launched (pid : Nat) : Command → Process
  | .start daemon address => ⟨pid, true, daemon, some address, if daemon = true then .checking else .listening, none⟩
  | .stop => ⟨pid, false, false, none, .looking, none⟩
  | .faulty handles => ⟨pid, handles, false, none, .disposing, none⟩

/-- What SIGTERM does to a process: the handler disposes of the PID file. -/
def receive (pid : Nat) (p : Process) : Option Process :=
  if p.pid = pid then if p.handles = true then some { p with phase := .disposing } else none else some p

def signal (s : State) (pid : Nat) : State := { s with procs := s.procs.filterMap (receive pid) }

def doCall (s : State) (p : Process) (ok : Bool) (child : Nat) : State :=
  match p.phase with
  | .checking =>
      match s.path with
      | none => put s { p with phase := .creating }
      | some file => put s { p with phase := .reading file }
  | .reading file =>
      match textOf s file with
      | none => put s { p with phase := .disposing }
      | some pid => put s { p with phase := .asking pid }
  | .asking pid =>
      -- `kill` finds a process of another program where it is told so
      if ok = true ∨ pid = p.pid ∨ ¬ Free s pid then put s { p with phase := .disposing }
      else put s { p with phase := .removing }
  | .removing => put { s with path := if ok = true then none else s.path } { p with phase := .creating }
  | .creating =>
      if ok = true ∧ s.path = none then
        put { s with path := some s.texts.length, texts := s.texts ++ [none] }
          { p with phase := .locking s.texts.length, made := some s.texts.length }
      else put s { p with phase := .disposing }
  | .locking file => put s { p with phase := if ok = true then .forking file else .disposing }
  | .forking file =>
      if ok = true ∧ child ≠ p.pid ∧ Free s child then put s { p with pid := child, phase := .truncating file }
      else put s { p with phase := .disposing }
  | .truncating file => put s { p with phase := if ok = true then .writing file else .disposing }
  | .writing file =>
      -- nobody asks what `write` returns: where it fails the file stays empty
      put { s with texts := s.texts.set file (if ok = true then some p.pid else none) } { p with phase := .listening }
  | .listening =>
      -- another one has the address
      put s { p with phase := if ok = true ∧ ∀ q ∈ s.procs, q.phase = .serving → q.address ≠ p.address then .serving
                else .disposing }
  | .serving => put s { p with phase := .serving }
  | .looking =>
      match s.path with
      | none => s
      | some file => put s { p with phase := .fetching file }
  | .fetching file =>
      match textOf s file with
      | some (pid + 1) => put s { p with phase := .killing (pid + 1) }
      | _ => put s { p with phase := .disposing }
  | .killing pid => signal (put s { p with phase := .disposing }) pid
  | .disposing => { s with path := none }

def step (s : State) : Event → State
  | .launch pid command => if Free s pid then put s (launched pid command) else s
  | .call pid ok child =>
      match s.procs.find? fun p => decide (p.pid = pid) with
      | none => s
      | some p => doCall (without s pid) p ok child
  | .crash pid => without s pid
  | .term pid => signal s pid

def Unlinks (p : Process) (ok : Bool) : Prop := p.phase = .disposing ∨ p.phase = .removing ∧ ok = true

instance (p : Process) (ok : Bool) : Decidable (Unlinks p ok) := inferInstanceAs (Decidable (_ ∨ _ ∧ _))

def writes (p : Process) : Option Nat :=
  match p.phase with
  | .writing file => some file
  | _ => none

/-- What a call of a process does to the file of another one that is alive, or to its own one: none is removed, and no
PID fails to be written. -/
structure Careful (s : State) (p : Process) (ok : Bool) : Prop where
  keeps : Unlinks p ok → ∀ q ∈ s.procs, q.pid ≠ p.pid → q.made = none ∨ q.made ≠ s.path
  written : writes p ≠ none → ok = true

theorem careful_iff (s : State) (p : Process) (ok : Bool) : Careful s p ok ↔
    (Unlinks p ok → ∀ q ∈ s.procs, q.pid ≠ p.pid → q.made = none ∨ q.made ≠ s.path) ∧ (writes p ≠ none → ok = true) :=
  ⟨fun h => ⟨h.keeps, h.written⟩, fun h => ⟨h.1, h.2⟩⟩

instance (s : State) (p : Process) (ok : Bool) : Decidable (Careful s p ok) := decidable_of_iff _ (careful_iff s p ok).symm

def Harmless (s : State) : Event → Prop
  | .call pid ok _ => ∀ p ∈ s.procs, p.pid = pid → Careful s p ok
  | _ => True

instance (s : State) : ∀ e, Decidable (Harmless s e)
  | .call pid ok _ => inferInstanceAs (Decidable (∀ p ∈ s.procs, p.pid = pid → Careful s p ok))
  | .launch _ _ => isTrue trivial
  | .crash _ => isTrue trivial
  | .term _ => isTrue trivial

theorem forall_mem_none {P : Nat → Prop} : ∀ file ∈ (none : Option Nat), P file := by
  intro file hfile
  cases hfile

def Tied (p : Process) : Prop :=
  match p.phase with
  | .locking file | .forking file | .truncating file | .writing file => p.made = some file
  | .listening | .serving => p.daemon = true → p.made ≠ none
  | .disposing => True
  | _ => p.made = none

def Up (phase : Phase) : Prop := phase = .listening ∨ phase = .serving

/-- What a call does that changes nothing but where its process is. -/
structure Moves (s : State) (p : Process) (ok : Bool) (phase : Phase) : Prop where
  tied : Tied p → Tied { p with phase := phase }
  up : Up phase → Up p.phase
  serving : phase = .serving → p.phase = .serving ∨ ∀ q ∈ s.procs, q.phase = .serving → q.address ≠ p.address
  stays : p.phase = .serving → phase = .serving
  fetching : ∀ file, phase = .fetching file → s.path = some file
  killing : ∀ pid, phase = .killing pid → ∃ file, p.phase = .fetching file ∧ textOf s file = some pid

inductive Change (s : State) (p : Process) (ok : Bool) : State → Prop
  | move {phase : Phase} (h : Moves s p ok phase) : Change s p ok (put s { p with phase := phase })
  | remove (h : p.phase = .removing) (hok : ok = true) :
      Change s p ok (put { s with path := none } { p with phase := .creating })
  | create (h : p.phase = .creating) (hpath : s.path = none) :
      Change s p ok (put { s with path := some s.texts.length, texts := s.texts ++ [none] }
        { p with phase := .locking s.texts.length, made := some s.texts.length })
  | fork {file child : Nat} (h : p.phase = .forking file) (hne : child ≠ p.pid) (hfree : Free s child) :
      Change s p ok (put s { p with pid := child, phase := .truncating file })
  | write {file : Nat} (h : p.phase = .writing file) :
      Change s p ok (put { s with texts := s.texts.set file (if ok = true then some p.pid else none) }
        { p with phase := .listening })
  | leave (h : p.phase = .looking) : Change s p ok s
  | kill {pid : Nat} (h : p.phase = .killing pid) :
      Change s p ok (signal (put s { p with phase := .disposing }) pid)
  | dispose (h : p.phase = .disposing) : Change s p ok { s with path := none }

section Calls

variable {s : State} {p : Process} {ok : Bool}

theorem tied_of_phase {a b : Phase} (h : p.phase = a) (hab : Tied { p with phase := a } → Tied { p with phase := b })
    (htied : Tied p) : Tied { p with phase := b } := by
  subst h
  exact hab htied

def Quiet : Phase → Bool
  | .listening | .serving | .fetching _ | .killing _ => false
  | _ => true

theorem moves_of_quiet {phase : Phase} (hquiet : Quiet phase = true) (htied : Tied p → Tied { p with phase := phase })
    (hserving : p.phase ≠ .serving) : Moves s p ok phase where
  tied := htied
  up h := by rcases h with rfl | rfl <;> cases hquiet
  serving h := by
    subst h
    cases hquiet
  stays h := absurd h hserving
  fetching file h := by
    subst h
    cases hquiet
  killing pid h := by
    subst h
    cases hquiet

theorem doCall_change (s : State) (p : Process) (ok : Bool) (child : Nat) : Change s p ok (doCall s p ok child) := by
  rw [doCall]
  by_cases hserving : p.phase = .serving
  · rw [hserving]
    refine .move ⟨tied_of_phase hserving id, fun _ => .inr hserving, fun _ => .inl hserving, fun _ => rfl,
      fun file h => ?_, fun pid h => ?_⟩ <;> cases h
  have hdisposing : Change s p ok (put s { p with phase := .disposing }) :=
    .move (moves_of_quiet rfl (fun _ => trivial) hserving)
  cases hphase : p.phase with
  | checking =>
      dsimp only
      cases s.path with
      | none => exact .move (moves_of_quiet rfl (tied_of_phase hphase id) hserving)
      | some file => exact .move (moves_of_quiet rfl (tied_of_phase hphase id) hserving)
  | reading file =>
      dsimp only
      cases textOf s file with
      | none => exact hdisposing
      | some pid => exact .move (moves_of_quiet rfl (tied_of_phase hphase id) hserving)
  | asking pid =>
      dsimp only
      split
      · exact hdisposing
      · exact .move (moves_of_quiet rfl (tied_of_phase hphase id) hserving)
  | removing =>
      dsimp only
      cases hok : ok with
      | true => exact .remove hphase rfl
      | false => exact .move (moves_of_quiet rfl (tied_of_phase hphase id) hserving)
  | creating =>
      dsimp only
      split
      · rename_i h
        exact .create hphase h.2
      · exact hdisposing
  | locking file =>
      dsimp only
      split
      · exact .move (moves_of_quiet rfl (tied_of_phase hphase id) hserving)
      · exact hdisposing
  | forking file =>
      dsimp only
      split
      · rename_i h
        exact .fork hphase h.2.1 h.2.2
      · exact hdisposing
  | truncating file =>
      dsimp only
      split
      · exact .move (moves_of_quiet rfl (tied_of_phase hphase id) hserving)
      · exact hdisposing
  | writing file => exact .write hphase
  | listening =>
      dsimp only
      split
      · rename_i h
        refine .move ⟨tied_of_phase hphase id, fun _ => .inl hphase, fun _ => .inr h.2, fun h => absurd h hserving,
          fun file h => ?_, fun pid h => ?_⟩ <;> cases h
      · exact hdisposing
  | serving => exact absurd hphase hserving
  | looking =>
      dsimp only
      cases hpath : s.path with
      | none => exact .leave hphase
      | some file =>
          refine .move ⟨tied_of_phase hphase id, fun h => ?_, fun h => ?_, fun h => absurd h hserving,
            fun i h => ?_, fun pid h => ?_⟩
          · rcases h with h | h <;> cases h
          · cases h
          · cases h
            exact hpath
          · cases h
  | fetching file =>
      dsimp only
      split
      · rename_i pid htext
        refine .move ⟨tied_of_phase hphase id, fun h => ?_, fun h => ?_, fun h => absurd h hserving,
          fun i h => ?_, fun pid h => ?_⟩
        · rcases h with h | h <;> cases h
        · cases h
        · cases h
        · cases h
          exact ⟨file, hphase, htext⟩
      · exact hdisposing
  | killing pid => exact .kill hphase
  | disposing => exact .dispose hphase

end Calls

structure Basic (l : List Process) : Prop where
  pids : (l.map Process.pid).Nodup
  tied : ∀ p ∈ l, Tied p
  alone : ∀ p ∈ l, ∀ q ∈ l, p.phase = .serving → q.phase = .serving → p.address = q.address → p = q

structure Beside (l : List Process) (p : Process) : Prop where
  fresh : ∀ q ∈ l, q.pid ≠ p.pid
  tied : Tied p
  alone : p.phase = .serving → ∀ q ∈ l, q.phase = .serving → q.address ≠ p.address

section Processes

variable {l : List Process} {p q : Process} {pid : Nat}

theorem basic_cons (h : Basic l) (hp : Beside l p) : Basic (p :: l) where
  pids := by
    rw [List.map_cons, List.nodup_cons]
    refine ⟨fun hmem => ?_, h.pids⟩
    obtain ⟨q, hq, heq⟩ := List.mem_map.mp hmem
    exact hp.fresh q hq heq
  tied := List.forall_mem_cons.mpr ⟨hp.tied, h.tied⟩
  alone := by
    intro a ha b hb hserving hother heq
    rcases List.mem_cons.mp ha with rfl | hmem
    · rcases List.mem_cons.mp hb with rfl | hb
      · rfl
      · exact absurd heq.symm (hp.alone hserving b hb hother)
    · rcases List.mem_cons.mp hb with rfl | hb
      · exact absurd heq (hp.alone hother a hmem hserving)
      · exact h.alone a hmem b hb hserving hother heq

theorem eq_of_pid (h : Basic l) (hp : p ∈ l) (hq : q ∈ l) (heq : p.pid = q.pid) : p = q :=
  List.inj_on_of_nodup_map h.pids hp hq heq

theorem basic_filter (h : Basic l) (keep : Process → Bool) : Basic (l.filter keep) where
  pids := h.pids.sublist (List.filter_sublist.map _)
  tied p hp := h.tied p (List.mem_of_mem_filter hp)
  alone p hp q hq := h.alone p (List.mem_of_mem_filter hp) q (List.mem_of_mem_filter hq)

theorem mem_others : q ∈ (l.filter fun q => decide (q.pid ≠ pid)) ↔ q ∈ l ∧ q.pid ≠ pid := by
  rw [List.mem_filter, decide_eq_true_iff]

theorem beside_others (h : Basic l) (hp : p ∈ l) : Beside (l.filter fun q => decide (q.pid ≠ p.pid)) p where
  fresh q hq := (mem_others.mp hq).2
  tied := h.tied p hp
  alone hserving q hq hother heq := by
    obtain ⟨hmem, hne⟩ := mem_others.mp hq
    exact hne (congrArg Process.pid (h.alone q hmem p hp hother hserving heq))

theorem receive_some (h : receive pid p = some q) : q = p ∨ p.pid = pid ∧ q = { p with phase := .disposing } := by
  rw [receive] at h
  split at h
  · rename_i hpid
    split at h
    · exact .inr ⟨hpid, (Option.some.inj h).symm⟩
    · cases h
  · exact .inl (Option.some.inj h).symm

theorem receive_of_ne (h : p.pid ≠ pid) : receive pid p = some p := if_neg h

theorem receive_pid (h : receive pid p = some q) : q.pid = p.pid := by
  rcases receive_some h with rfl | ⟨-, rfl⟩ <;> rfl

theorem receive_made (h : receive pid p = some q) : q.made = p.made := by
  rcases receive_some h with rfl | ⟨-, rfl⟩ <;> rfl

theorem receive_up (h : receive pid p = some q) (hup : Up q.phase) : q = p := by
  rcases receive_some h with rfl | ⟨-, rfl⟩
  · rfl
  · rcases hup with hup | hup <;> cases hup

theorem pids_receive (pid : Nat) (l : List Process) :
    ((l.filterMap (receive pid)).map Process.pid).Sublist (l.map Process.pid) := by
  induction l with
  | nil => exact .slnil
  | cons p l ih =>
      rw [List.filterMap_cons]
      cases hp : receive pid p with
      | none => exact ih.cons _
      | some q =>
          dsimp only
          rw [List.map_cons, List.map_cons, receive_pid hp]
          exact ih.cons_cons _

theorem basic_receive (h : Basic l) (pid : Nat) : Basic (l.filterMap (receive pid)) where
  pids := h.pids.sublist (pids_receive pid l)
  tied q hq := by
    obtain ⟨p, hp, hreceive⟩ := List.mem_filterMap.mp hq
    rcases receive_some hreceive with rfl | ⟨-, rfl⟩
    · exact h.tied q hp
    · trivial
  alone a ha b hb hserving hother heq := by
    obtain ⟨p, hp, hreceive⟩ := List.mem_filterMap.mp ha
    obtain ⟨q, hq, hreceived⟩ := List.mem_filterMap.mp hb
    obtain rfl := receive_up hreceive (.inr hserving)
    obtain rfl := receive_up hreceived (.inr hother)
    exact h.alone a hp b hq hserving hother heq

end Processes

section Steps

variable {s t : State} {p : Process} {ok : Bool}

theorem beside_move {phase : Phase} (hp : Beside s.procs p) (h : Moves s p ok phase) :
    Beside s.procs { p with phase := phase } :=
  ⟨hp.fresh, h.tied hp.tied, fun hserving => (h.serving hserving).elim hp.alone id⟩

theorem basic_change (h : Basic s.procs) (hp : Beside s.procs p) (hchange : Change s p ok t) : Basic t.procs := by
  cases hchange with
  | move hmoves => exact basic_cons h (beside_move hp hmoves)
  | remove hphase => exact basic_cons h ⟨hp.fresh, tied_of_phase hphase id hp.tied, fun h => by cases h⟩
  | create => exact basic_cons h ⟨hp.fresh, rfl, fun h => by cases h⟩
  | fork hphase _ hfree => exact basic_cons h ⟨hfree.2, tied_of_phase hphase id hp.tied, fun h => by cases h⟩
  | @write file hphase =>
      refine basic_cons h ⟨hp.fresh, fun _ => ?_, fun h => by cases h⟩
      have htied : p.made = some file := tied_of_phase (b := .writing file) hphase id hp.tied
      exact Option.ne_none_iff_exists'.mpr ⟨file, htied⟩
  | leave => exact h
  | kill =>
      have hput : Basic ({ p with phase := .disposing } :: s.procs) :=
        basic_cons h ⟨hp.fresh, trivial, fun h => by cases h⟩
      exact basic_receive hput _
  | dispose => exact h

theorem launched_tied (pid : Nat) (command : Command) : Tied (launched pid command) := by
  cases command with
  | start daemon address =>
      cases daemon with
      | true => rfl
      | false => exact fun h => absurd h Bool.false_ne_true
  | stop => rfl
  | faulty handles => trivial

theorem launched_not_serving (pid : Nat) (command : Command) : (launched pid command).phase ≠ .serving := by
  cases command with
  | start daemon address => cases daemon <;> exact Phase.noConfusion
  | stop => exact Phase.noConfusion
  | faulty handles => exact Phase.noConfusion

theorem step_call (pid child : Nat) : step s (.call pid ok child) = s ∧ (∀ p ∈ s.procs, p.pid ≠ pid) ∨
    ∃ p ∈ s.procs, p.pid = pid ∧ step s (.call pid ok child) = doCall (without s pid) p ok child := by
  rw [step]
  cases hfind : s.procs.find? fun p => decide (p.pid = pid) with
  | none =>
      refine .inl ⟨rfl, fun p hp heq => ?_⟩
      exact List.find?_eq_none.mp hfind p hp (decide_eq_true heq)
  | some p =>
      have hpid := List.find?_some hfind
      exact .inr ⟨p, List.mem_of_find?_eq_some hfind, of_decide_eq_true hpid, rfl⟩

theorem basic_step (h : Basic s.procs) (e : Event) : Basic (step s e).procs := by
  cases e with
  | launch pid command =>
      rw [step]
      split
      · rename_i hfree
        have hpid : (launched pid command).pid = pid := by cases command <;> rfl
        refine basic_cons h ⟨fun q hq => ?_, launched_tied pid command, fun h => absurd h (launched_not_serving pid command)⟩
        rw [hpid]
        exact hfree.2 q hq
      · exact h
  | call pid ok child =>
      rcases step_call pid child with ⟨heq, -⟩ | ⟨p, hp, rfl, heq⟩
      · rw [heq]
        exact h
      · rw [heq]
        exact basic_change (basic_filter h _) (beside_others h hp) (doCall_change _ p ok child)
  | crash pid => exact basic_filter h _
  | term pid => exact basic_receive h pid

theorem basic_run (old : Option (Option Nat)) (events : List Event) : Basic (run step (init old) events).procs :=
  run_invariant_all (fun s : State => Basic s.procs) (fun _ e h => basic_step h e)
    (by exact ⟨List.nodup_nil, fun _ hp => absurd hp List.not_mem_nil, fun _ hp => absurd hp List.not_mem_nil⟩) events

end Steps

/-- At most one process that is alive has made a PID file. That is there, and once the process listens it has its
PID. Every daemon has one. -/
structure Single (s : State) : Prop where
  one : ∀ p ∈ s.procs, ∀ q ∈ s.procs, p.made ≠ none → q.made ≠ none → p = q
  path : ∀ p ∈ s.procs, ∀ file ∈ p.made, s.path = some file
  named : ∀ p ∈ s.procs, ∀ file ∈ p.made, Up p.phase → textOf s file = some p.pid
  daemon : ∀ p ∈ s.procs, p.daemon = true → Up p.phase → p.made ≠ none

structure Inv (s : State) : Prop where
  basic : Basic s.procs
  one : ∀ p ∈ s.procs, ∀ q ∈ s.procs, p.made ≠ none → q.made ≠ none → p = q
  path : ∀ p ∈ s.procs, ∀ file ∈ p.made, s.path = some file
  named : ∀ p ∈ s.procs, ∀ file ∈ p.made, Up p.phase → textOf s file = some p.pid
  bound : ∀ file ∈ s.path, file < s.texts.length

theorem Inv.single {s : State} (h : Inv s) : Single s where
  one := h.one
  path := h.path
  named := h.named
  daemon p hp hdaemon hup := by
    have htied := h.basic.tied p hp
    rcases hup with hup | hup <;> exact tied_of_phase hup id htied hdaemon

/-- A process whose file is the one that is there, if it has made one. -/
structure Owns (s : State) (p : Process) : Prop where
  one : p.made ≠ none → ∀ q ∈ s.procs, q.made = none
  path : ∀ file ∈ p.made, s.path = some file
  named : ∀ file ∈ p.made, Up p.phase → textOf s file = some p.pid

section Exclusion

variable {s t : State} {p : Process} {ok : Bool}

theorem inv_put (h : Inv s) (hbasic : Basic (put s p).procs) (hp : Owns s p) : Inv (put s p) where
  basic := hbasic
  one := by
    intro a ha b hb hmade hother
    rcases List.mem_cons.mp ha with rfl | hmem
    · rcases List.mem_cons.mp hb with rfl | hb
      · rfl
      · exact absurd (hp.one hmade b hb) hother
    · rcases List.mem_cons.mp hb with rfl | hb
      · exact absurd (hp.one hother a hmem) hmade
      · exact h.one a hmem b hb hmade hother
  path := List.forall_mem_cons.mpr ⟨hp.path, h.path⟩
  named := List.forall_mem_cons.mpr ⟨hp.named, h.named⟩
  bound := h.bound

theorem inv_signal (h : Inv s) (pid : Nat) : Inv (signal s pid) where
  basic := basic_receive h.basic pid
  one a ha b hb hmade hother := by
    obtain ⟨p, hp, hreceive⟩ := List.mem_filterMap.mp ha
    obtain ⟨q, hq, hreceived⟩ := List.mem_filterMap.mp hb
    obtain rfl : p = q := h.one p hp q hq (receive_made hreceive ▸ hmade) (receive_made hreceived ▸ hother)
    exact Option.some.inj (hreceive.symm.trans hreceived)
  path a ha file hfile := by
    obtain ⟨p, hp, hreceive⟩ := List.mem_filterMap.mp ha
    exact h.path p hp file (receive_made hreceive ▸ hfile)
  named a ha file hfile hup := by
    obtain ⟨p, hp, hreceive⟩ := List.mem_filterMap.mp ha
    obtain rfl := receive_up hreceive hup
    exact h.named a hp file hfile hup
  bound := h.bound

theorem inv_without (h : Inv s) (pid : Nat) : Inv (without s pid) where
  basic := basic_filter h.basic _
  one p hp q hq := h.one p (List.mem_of_mem_filter hp) q (List.mem_of_mem_filter hq)
  path p hp := h.path p (List.mem_of_mem_filter hp)
  named p hp := h.named p (List.mem_of_mem_filter hp)
  bound := h.bound

theorem inv_of_none {path : Option Nat} {texts : List (Option Nat)} (h : Inv s) (hnone : ∀ q ∈ s.procs, q.made = none)
    (hbound : ∀ file ∈ path, file < texts.length) : Inv ⟨path, texts, s.procs⟩ where
  basic := h.basic
  one p hp _ _ hmade _ := absurd (hnone p hp) hmade
  path p hp file hfile := by
    rw [hnone p hp] at hfile
    cases hfile
  named p hp file hfile := by
    rw [hnone p hp] at hfile
    cases hfile
  bound := hbound

theorem owns_others (h : Inv s) (hp : p ∈ s.procs) : Owns (without s p.pid) p where
  one hmade q hq := by
    obtain ⟨hmem, hne⟩ := mem_others.mp hq
    by_contra hother
    exact hne (congrArg Process.pid (h.one q hmem p hp hother hmade))
  path := h.path p hp
  named := h.named p hp

theorem owns_move {phase : Phase} (hp : Owns s p) (h : Up phase → Up p.phase) : Owns s { p with phase := phase } :=
  ⟨hp.one, hp.path, fun file hfile hup => hp.named file hfile (h hup)⟩

theorem owns_none {q : Process} (h : q.made = none) : Owns s q where
  one hmade := absurd h hmade
  path file hfile := by
    rw [h] at hfile
    cases hfile
  named file hfile := by
    rw [h] at hfile
    cases hfile

theorem not_up_of_quiet {phase : Phase} (h : Quiet phase = true) : ¬ Up phase := by
  rintro (rfl | rfl) <;> cases h

theorem inv_change (h : Inv s) (hbeside : Beside s.procs p) (hp : Owns s p) (hchange : Change s p ok t)
    (hharmless : Unlinks p ok → ∀ q ∈ s.procs, q.made = none) (hwritten : writes p ≠ none → ok = true) : Inv t := by
  have hbasic := basic_change h.basic hbeside hchange
  cases hchange with
  | move hmoves => exact inv_put h hbasic (owns_move hp hmoves.up)
  | remove hphase hok =>
      have hnone : p.made = none := tied_of_phase (b := .removing) hphase id hbeside.tied
      exact inv_put (inv_of_none h (hharmless (.inr ⟨hphase, hok⟩)) forall_mem_none) hbasic (owns_none hnone)
  | create hphase hpath =>
      have hnone : ∀ q ∈ s.procs, q.made = none := by
        intro q hq
        cases hmade : q.made with
        | none => rfl
        | some file => cases hpath.symm.trans (h.path q hq file hmade)
      refine inv_put (inv_of_none h hnone fun file hfile => ?_) hbasic ⟨fun _ => hnone, fun file hfile => hfile, ?_⟩
      · obtain rfl := Option.some.inj hfile
        rw [List.length_append]
        exact Nat.lt_succ_self _
      · exact fun _ _ hup => absurd hup (not_up_of_quiet rfl)
  | fork hphase _ hfree =>
      exact inv_put h hbasic ⟨hp.one, hp.path, fun _ _ hup => absurd hup (not_up_of_quiet rfl)⟩
  | @write file hphase =>
      have hmade : p.made = some file := tied_of_phase (b := .writing file) hphase id hbeside.tied
      have hpath : s.path = some file := hp.path file hmade
      have hnone : ∀ q ∈ s.procs, q.made = none := hp.one (by simp [hmade])
      refine inv_put (inv_of_none h hnone fun other hother => ?_) hbasic ⟨fun _ => hnone, hp.path, fun other hother _ => ?_⟩
      · rw [List.length_set]
        exact h.bound other hother
      · obtain rfl := Option.some.inj (hmade.symm.trans hother)
        have hlt := h.bound file hpath
        have hok : ok = true := hwritten (by simp only [writes, hphase, ne_eq, reduceCtorEq, not_false_eq_true])
        rw [textOf, if_pos hok, List.getD_eq_getElem?_getD, List.getElem?_set_self hlt, Option.getD_some]
  | leave => exact h
  | kill =>
      have hput : Basic ({ p with phase := .disposing } :: s.procs) :=
        basic_cons h.basic ⟨hbeside.fresh, trivial, fun h => by cases h⟩
      exact inv_signal (inv_put h hput (owns_move hp fun hup => absurd hup (not_up_of_quiet rfl))) _
  | dispose hphase => exact inv_of_none h (hharmless (.inl hphase)) forall_mem_none

theorem textOf_set_none {pid : Nat} (texts : List (Option Nat)) (file : Nat) :
    (texts.set file none).getD file none ≠ some pid := by
  rw [List.getD_eq_getElem?_getD, List.getElem?_set, if_pos rfl]
  split <;> exact Option.some_ne_none _ |>.symm

theorem inv_init (old : Option (Option Nat)) : Inv (init old) where
  basic := basic_run old []
  one _ hp := absurd hp List.not_mem_nil
  path _ hp := absurd hp List.not_mem_nil
  named _ hp := absurd hp List.not_mem_nil
  bound := by
    cases old with
    | none => exact forall_mem_none
    | some text =>
        intro file hfile
        obtain rfl := Option.some.inj hfile
        exact Nat.one_pos

theorem inv_step (h : Inv s) {e : Event} (hharmless : Harmless s e) : Inv (step s e) := by
  cases e with
  | launch pid command =>
      have hbasic := basic_step h.basic (.launch pid command)
      rw [step] at hbasic ⊢
      split
      · rename_i hfree
        rw [if_pos hfree] at hbasic
        exact inv_put h hbasic (owns_none (by cases command <;> rfl))
      · exact h
  | call pid ok child =>
      rcases step_call pid child with ⟨heq, -⟩ | ⟨p, hp, rfl, heq⟩
      · rw [heq]
        exact h
      · rw [heq]
        refine inv_change (inv_without h p.pid) (beside_others h.basic hp) (owns_others h hp)
          (doCall_change _ p ok child) (fun hunlinks q hq => ?_) (hharmless p hp rfl).written
        obtain ⟨hmem, hne⟩ := mem_others.mp hq
        rcases (hharmless p hp rfl).keeps hunlinks q hmem hne with hnone | hpath
        · exact hnone
        · cases hmade : q.made with
          | none => rfl
          | some file => exact absurd (hmade.trans (h.path q hmem file hmade).symm) hpath
  | crash pid => exact inv_without h pid
  | term pid => exact inv_signal h pid

/-- A process that removes the file of another one leaves that without it, and one whose PID is not written listens
with an empty file. -/
theorem careful_of_single (hbasic : Basic s.procs) (hp : p ∈ s.procs) (h : Single (doCall (without s p.pid) p ok child)) :
    Careful s p ok where
  keeps hunlinks q hq hne := by
    have hmem : q ∈ (without s p.pid).procs := mem_others.mpr ⟨hq, hne⟩
    have hgone : (doCall (without s p.pid) p ok child).path = none ∧ q ∈ (doCall (without s p.pid) p ok child).procs := by
      rcases hunlinks with hphase | ⟨hphase, rfl⟩
      · simp only [doCall, hphase]
        exact ⟨trivial, hmem⟩
      · simp only [doCall, hphase]
        exact ⟨rfl, List.mem_cons_of_mem _ hmem⟩
    cases hmade : q.made with
    | none => exact .inl rfl
    | some file => cases hgone.1.symm.trans (h.path q hgone.2 file hmade)
  written hwrites := by
    obtain ⟨file, hphase⟩ : ∃ file, p.phase = .writing file := by
      rw [writes] at hwrites
      split at hwrites
      · exact ⟨_, ‹_›⟩
      · exact absurd rfl hwrites
    have hmade : p.made = some file := tied_of_phase (b := .writing file) hphase id (hbasic.tied p hp)
    by_contra hfailed
    simp only [doCall, hphase, if_neg hfailed] at h
    have hnamed : textOf _ file = some p.pid := h.named _ List.mem_cons_self file hmade (.inl rfl)
    exact textOf_set_none s.texts file hnamed

theorem harmless_of_single (hbasic : Basic s.procs) {e : Event} (h : Single (step s e)) : Harmless s e := by
  cases e with
  | call pid ok child =>
      rintro p hp rfl
      rcases step_call p.pid child with ⟨-, hnone⟩ | ⟨other, hother, hpid, heq⟩
      · exact absurd rfl (hnone p hp)
      · obtain rfl := eq_of_pid hbasic hother hp hpid
        rw [heq] at h
        exact careful_of_single hbasic hother h
  | launch => trivial
  | crash => trivial
  | term => trivial

end Exclusion

/-- All along a run at most one process has made a PID file, and that stays and has the PID, exactly if nobody removes
the file of another one that is alive and no PID fails to be written. -/
theorem run_single (old : Option (Option Nat)) (events : List Event) :
    (∀ es fs, events = es ++ fs → Single (run step (init old) es)) ↔ Permitted step Harmless (init old) events := by
  rw [permitted_iff]
  constructor
  · intro h es e fs heq
    refine harmless_of_single (basic_run old es) ?_
    have hnext := h (es ++ [e]) fs (by rw [heq, List.append_assoc]; rfl)
    rwa [run_append] at hnext
  · intro h es fs heq
    refine (run_invariant Inv (fun _ _ h hok => inv_step h hok) (inv_init old) (permitted_iff.mpr ?_)).single
    intro gs e hs hes
    refine h gs e (hs ++ fs) ?_
    rw [heq, hes, List.append_assoc]
    rfl

/-- A process is about to send a signal to this PID, or to read it from a file. -/
def Knows (s : State) (pid : Nat) (q : Process) : Prop :=
  q.phase = .killing pid ∨ ∃ file, q.phase = .fetching file ∧ textOf s file = some pid

structure Orphan (s : State) (p : Process) : Prop where
  basic : Basic s.procs
  mem : p ∈ s.procs
  serving : p.phase = .serving
  path : ∀ file ∈ s.path, textOf s file ≠ some p.pid
  hands : ∀ q ∈ s.procs, ¬ Knows s p.pid q

/-- What ends a process otherwise than by a command. -/
def Spares (pid : Nat) : Event → Prop
  | .crash other => other ≠ pid
  | .term other => other ≠ pid
  | .launch _ _ | .call _ _ _ => True

instance (pid : Nat) : ∀ e, Decidable (Spares pid e)
  | .crash other => inferInstanceAs (Decidable (other ≠ pid))
  | .term other => inferInstanceAs (Decidable (other ≠ pid))
  | .launch _ _ => isTrue trivial
  | .call _ _ _ => isTrue trivial

section Orphans

variable {s t : State} {p q : Process} {ok : Bool}

theorem textOf_append (s : State) (file : Nat) : (s.texts ++ [none]).getD file none = textOf s file := by
  rw [textOf, List.getD_eq_getElem?_getD, List.getD_eq_getElem?_getD, List.getElem?_append]
  split
  · rfl
  · rename_i h
    rw [List.getElem?_eq_none (Nat.le_of_not_lt h)]
    cases hget : [(none : Option Nat)][file - s.texts.length]? with
    | none => rfl
    | some text => exact (List.mem_singleton.mp (List.mem_of_getElem? hget)) ▸ rfl

theorem textOf_set_ne {file other pid : Nat} {text : Option Nat} (h : textOf s other ≠ some pid) (hne : text ≠ some pid) :
    (s.texts.set file text).getD other none ≠ some pid := by
  rw [textOf, List.getD_eq_getElem?_getD] at h
  rw [List.getD_eq_getElem?_getD, List.getElem?_set]
  split
  · split
    · exact hne
    · exact Option.some_ne_none _ |>.symm
  · exact h

theorem not_knows_of_quiet (h : Quiet q.phase = true) (pid : Nat) : ¬ Knows s pid q := by
  rintro (hphase | ⟨file, hphase, -⟩)
  · rw [hphase] at h
    cases h
  · rw [hphase] at h
    cases h

theorem orphan_put (h : Orphan s p) (hbasic : Basic (put s q).procs) (hq : ¬ Knows s p.pid q) : Orphan (put s q) p :=
  ⟨hbasic, List.mem_cons_of_mem _ h.mem, h.serving, h.path, List.forall_mem_cons.mpr ⟨hq, h.hands⟩⟩

theorem orphan_signal (h : Orphan s p) {pid : Nat} (hne : p.pid ≠ pid) : Orphan (signal s pid) p where
  basic := basic_receive h.basic pid
  mem := List.mem_filterMap.mpr ⟨p, h.mem, receive_of_ne hne⟩
  serving := h.serving
  path := h.path
  hands a ha hknows := by
    obtain ⟨r, hr, hreceive⟩ := List.mem_filterMap.mp ha
    rcases receive_some hreceive with rfl | ⟨-, rfl⟩
    · exact h.hands a hr hknows
    · exact not_knows_of_quiet rfl _ hknows

theorem orphan_without (h : Orphan s p) {pid : Nat} (hne : p.pid ≠ pid) : Orphan (without s pid) p :=
  ⟨basic_filter h.basic _, mem_others.mpr ⟨h.mem, hne⟩, h.serving, h.path,
    fun q hq => h.hands q (List.mem_of_mem_filter hq)⟩

/-- What is at the path, and what the others read, may change as long as it is not the PID. -/
theorem orphan_files (h : Orphan s p) {path : Option Nat} {texts : List (Option Nat)}
    (hpath : ∀ file ∈ path, texts.getD file none ≠ some p.pid)
    (htexts : ∀ file, textOf s file ≠ some p.pid → texts.getD file none ≠ some p.pid) : Orphan ⟨path, texts, s.procs⟩ p where
  basic := h.basic
  mem := h.mem
  serving := h.serving
  path := hpath
  hands q hq hknows := by
    refine h.hands q hq (hknows.imp id fun ⟨file, hphase, htext⟩ => ⟨file, hphase, ?_⟩)
    by_contra hne
    exact htexts file hne htext

theorem orphan_change (h : Orphan s p) (hbeside : Beside s.procs q) (hne : q.pid ≠ p.pid) (hq : ¬ Knows s p.pid q)
    (hchange : Change s q ok t) : Orphan t p := by
  have hbasic := basic_change h.basic hbeside hchange
  cases hchange with
  | move hmoves =>
      refine orphan_put h hbasic ?_
      rintro (hphase | ⟨file, hphase, htext⟩)
      · obtain ⟨file, hfetching, htext⟩ := hmoves.killing _ hphase
        exact hq (.inr ⟨file, hfetching, htext⟩)
      · exact h.path file (hmoves.fetching file hphase) htext
  | remove =>
      exact orphan_put (orphan_files h forall_mem_none fun _ => id) hbasic (not_knows_of_quiet rfl _)
  | create =>
      refine orphan_put (orphan_files h (fun file hfile => ?_) fun file hfile => ?_) hbasic (not_knows_of_quiet rfl _)
      · obtain rfl := Option.some.inj hfile
        rw [List.getD_eq_getElem?_getD, List.getElem?_concat_length]
        exact Option.some_ne_none _ |>.symm
      · rwa [textOf_append]
  | fork => exact orphan_put h hbasic (not_knows_of_quiet rfl _)
  | write =>
      have htext : (if ok = true then some q.pid else none) ≠ some p.pid := by
        split
        · exact fun heq => hne (Option.some.inj heq)
        · exact Option.some_ne_none _ |>.symm
      refine orphan_put (orphan_files h (fun file hfile => ?_) fun file hfile => textOf_set_ne hfile htext) hbasic ?_
      · exact textOf_set_ne (h.path file hfile) htext
      · rintro (hphase | ⟨file, hphase, -⟩) <;> cases hphase
  | leave => exact h
  | @kill pid hphase =>
      have hput : Basic ({ q with phase := .disposing } :: s.procs) :=
        basic_cons h.basic ⟨hbeside.fresh, trivial, fun h => by cases h⟩
      refine orphan_signal (orphan_put h hput (not_knows_of_quiet rfl _)) fun heq => ?_
      exact hq (.inl (heq ▸ hphase))
  | dispose => exact orphan_files h forall_mem_none fun _ => id

theorem launched_not_knows (pid : Nat) (command : Command) (other : Nat) : ¬ Knows s other (launched pid command) := by
  rintro (hphase | ⟨file, hphase, -⟩) <;> cases command with
  | start daemon address => cases daemon <;> cases hphase
  | stop => cases hphase
  | faulty handles => cases hphase

theorem orphan_step (h : Orphan s p) {e : Event} (hspares : Spares p.pid e) : Orphan (step s e) p := by
  have hbasic := basic_step h.basic e
  cases e with
  | launch pid command =>
      rw [step] at hbasic ⊢
      split
      · rename_i hfree
        rw [if_pos hfree] at hbasic
        exact orphan_put h hbasic (launched_not_knows pid command _)
      · exact h
  | call pid ok child =>
      rcases step_call pid child with ⟨heq, -⟩ | ⟨q, hq, rfl, heq⟩
      · rw [heq]
        exact h
      · by_cases hpid : q.pid = p.pid
        · obtain rfl := eq_of_pid h.basic hq h.mem hpid
          have hsame : { q with phase := .serving } = q := by rw [← h.serving]
          have hcall : step s (.call q.pid ok child) = put (without s q.pid) q := by
            rw [heq, doCall, h.serving]
            dsimp only
            rw [hsame]
          rw [hcall] at hbasic ⊢
          refine ⟨hbasic, List.mem_cons_self, h.serving, h.path, List.forall_mem_cons.mpr ⟨h.hands q hq, ?_⟩⟩
          exact fun r hr => h.hands r (List.mem_of_mem_filter hr)
        · rw [heq]
          exact orphan_change (orphan_without h (Ne.symm hpid)) (beside_others h.basic hq) hpid (h.hands q hq)
            (doCall_change _ q ok child)
  | crash pid => exact orphan_without h (Ne.symm hspares)
  | term pid => exact orphan_signal h (Ne.symm hspares)

end Orphans

/-- Once a command has removed the PID file of a daemon, no command ends the daemon any more and none takes its place at
its address. -/
theorem run_orphan {old : Option (Option Nat)} {events : List Event} {s : State} {p q : Process}
    (hs : run step (init old) events = s) (hp : p ∈ s.procs) (hserving : p.phase = .serving) (hq : q ∈ s.procs)
    (hdisposing : q.phase = .disposing) (hne : q.pid ≠ p.pid) (hhands : ∀ r ∈ s.procs, ¬ Knows s p.pid r) (ok : Bool)
    (child : Nat) {es : List Event} (hspares : ∀ e ∈ es, Spares p.pid e) :
    p ∈ (run step s (.call q.pid ok child :: es)).procs ∧
      ∀ r ∈ (run step s (.call q.pid ok child :: es)).procs, r.phase = .serving → r.address = p.address → r = p := by
  have hbasic : Basic s.procs := hs ▸ basic_run old events
  have hfirst : Orphan (step s (.call q.pid ok child)) p := by
    rcases step_call q.pid child with ⟨-, hnone⟩ | ⟨other, hother, hpid, heq⟩
    · exact absurd rfl (hnone q hq)
    · obtain rfl := eq_of_pid hbasic hother hq hpid
      rw [heq]
      simp only [doCall, hdisposing]
      exact ⟨basic_filter hbasic _, mem_others.mpr ⟨hp, hne.symm⟩, hserving, forall_mem_none,
        fun r hr => hhands r (List.mem_of_mem_filter hr)⟩
  rw [run_cons]
  have hlast : Orphan (run step (step s (.call q.pid ok child)) es) p := by
    refine run_invariant (fun t => Orphan t p) (fun _ _ h hspares => orphan_step h hspares) hfirst ?_
    rw [permitted_iff]
    rintro fs e gs rfl
    exact hspares e (List.mem_append_right _ List.mem_cons_self)
  exact ⟨hlast.mem, fun r hr hother heq => hlast.basic.alone r hr p hlast.mem hother hserving heq⟩

def local8000 : Address := ⟨"localhost", 8000⟩

def local8001 : Address := ⟨"localhost", 8001⟩

def refusedStart : List Event :=
  [.launch 100 (.start true local8000), .call 100 true 0, .call 100 true 0, .call 100 true 0, .call 100 true 101,
    .call 101 true 0, .call 101 true 0, .call 101 true 0, .launch 200 (.start true local8001), .call 200 true 0,
    .call 200 true 0, .call 200 false 0]

/-- A stop, and one more start, which makes a file and does not get the address. The start at the other one does. -/
def furtherCommands : List Event :=
  [.launch 300 .stop, .call 300 true 0, .launch 400 (.start true local8000), .call 400 true 0, .call 400 true 0,
    .call 400 true 0, .call 400 true 401, .call 401 true 0, .call 401 true 0, .launch 500 .stop, .call 500 true 0,
    .call 401 true 0, .call 401 true 0, .launch 600 (.start true local8001), .call 600 true 0, .call 600 true 0,
    .call 600 true 0, .call 600 true 601, .call 601 true 0, .call 601 true 0, .call 601 true 0]

def firstDaemon : Process := ⟨101, true, true, some local8000, .serving, some 0⟩

theorem run_orphan_demo :
    firstDaemon ∈ (run step (run step (init none) refusedStart) (.call 200 true 0 :: furtherCommands)).procs ∧
      ∀ r ∈ (run step (run step (init none) refusedStart) (.call 200 true 0 :: furtherCommands)).procs,
        r.phase = .serving → r.address = some local8000 → r = firstDaemon := by
  have hprocs : (run step (init none) refusedStart).procs =
      [⟨200, true, true, some local8001, .disposing, none⟩, firstDaemon] := by decide
  have hrefused : ⟨200, true, true, some local8001, .disposing, none⟩ ∈ (run step (init none) refusedStart).procs :=
    hprocs ▸ List.mem_cons_self
  have hserving : firstDaemon ∈ (run step (init none) refusedStart).procs :=
    hprocs ▸ List.mem_cons_of_mem _ List.mem_cons_self
  refine run_orphan rfl hserving rfl hrefused rfl (by decide) ?_ true 0 (by decide)
  · rw [hprocs]
    intro r hr
    rcases List.mem_pair.mp hr with rfl | rfl
    · exact not_knows_of_quiet rfl _
    · rintro (hphase | ⟨file, hphase, -⟩) <;> cases hphase

end RadioServices.Musicgo.PidFile

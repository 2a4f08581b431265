import RadioServices.Lib.Runs
import Mathlib.Data.List.Range
import Mathlib.Data.Int.Basic

namespace RadioServices.Logger.ClientSocket

open Lib.Runs

/-- A client thread: the connection it was created for, and the descriptor it
read when it started. -/
structure ClientThread where
  connection : Nat
  m : Option Int

inductive Call
  | accept
  | fcntl
  | createClientThread
  deriving DecidableEq

/-- `do_accept` with its loop variable, the descriptors accepted and the threads. -/
structure State where
  call : Call
  clientfd : Int
  accepted : List Int
  threads : List ClientThread

inductive Event
  | accept (fd : Int)
  | fcntl (value : Int)
  | createClientThread (created : Bool)
  | start (thread : Nat)

def init (clientfd : Int) : State := ⟨.accept, clientfd, [], []⟩

/-- The thread reads the variable its argument points to. -/
def handlerClientThread (clientfd : Int) (t : ClientThread) : ClientThread :=
  if t.m = none then { t with m := some clientfd } else t

def doAccept (s : State) (fd : Int) : State :=
  if s.call = .accept then
    if fd = -1 then { s with clientfd := fd }
    else { s with call := .fcntl, clientfd := fd, accepted := s.accepted ++ [fd] }
  else s

def doFcntl (s : State) (value : Int) : State :=
  if s.call = .fcntl then { s with call := if value = -1 then .accept else .createClientThread } else s

def createClientThread (s : State) (created : Bool) : State :=
  if s.call = .createClientThread then
    { s with
      call := .accept
      threads := if created then s.threads ++ [⟨s.accepted.length - 1, none⟩] else s.threads }
  else s

def step (s : State) : Event → State
  | .accept fd => doAccept s fd
  | .fcntl value => doFcntl s value
  | .createClientThread created => createClientThread s created
  | .start thread => { s with threads := s.threads.modify thread (handlerClientThread s.clientfd) }

def pending (s : State) : List Nat := if s.call = .accept then [] else [s.accepted.length - 1]

/-- Every connection has one thread, which works on its descriptor. -/
structure Served (s : State) : Prop where
  own : ∀ t ∈ s.threads, ∀ fd, t.m = some fd → s.accepted[t.connection]? = some fd
  once : s.threads.map ClientThread.connection ++ pending s = List.range s.accepted.length

/-- The calls succeed, and `accept` returns only after every thread has started. -/
def Serial (s : State) : Event → Prop
  | .accept _ => s.call = .accept → ∀ t ∈ s.threads, t.m ≠ none
  | .fcntl value => s.call = .fcntl → value ≠ -1
  | .createClientThread created => s.call = .createClientThread → created = true
  | .start _ => True

/-- The variable still holds the descriptor of the threads that have not started. -/
structure Inv (s : State) : Prop extends Served s where
  waiting : ∀ t ∈ s.threads, t.m = none → s.accepted[t.connection]? = some s.clientfd
  last : s.call ≠ .accept → s.accepted.getLast? = some s.clientfd

theorem inv_init (clientfd : Int) : Inv (init clientfd) :=
  ⟨⟨fun _ h => absurd h List.not_mem_nil, rfl⟩, fun _ h => absurd h List.not_mem_nil, fun h => absurd rfl h⟩

theorem getElem?_concat {l : List Int} {i : Nat} {a : Int} (b : Int) (h : l[i]? = some a) :
    (l ++ [b])[i]? = some a := by
  obtain ⟨hi, -⟩ := List.getElem?_eq_some_iff.mp h
  rwa [List.getElem?_append_left hi]

theorem inv_doAccept {s : State} {fd : Int} (h : Inv s) (hserial : Serial s (.accept fd)) :
    Inv (doAccept s fd) := by
  by_cases hcall : s.call = .accept
  · have hstarted := hserial hcall
    by_cases hfd : fd = -1
    · rw [doAccept, if_pos hcall, if_pos hfd]
      exact ⟨⟨h.own, h.once⟩, fun t ht hm => absurd hm (hstarted t ht), fun hne => absurd hcall hne⟩
    · rw [doAccept, if_pos hcall, if_neg hfd]
      have honce := h.once
      rw [pending, if_pos hcall, List.append_nil] at honce
      refine ⟨⟨?_, ?_⟩, ?_, ?_⟩
      · intro t ht d hd
        exact getElem?_concat fd (h.own t ht d hd)
      · change s.threads.map ClientThread.connection ++ [(s.accepted ++ [fd]).length - 1] = _
        rw [honce, List.length_append, List.length_singleton, Nat.add_sub_cancel, List.range_succ]
      · intro t ht hm
        exact absurd hm (hstarted t ht)
      · intro _
        exact List.getLast?_concat
  · rw [doAccept, if_neg hcall]
    exact h

theorem inv_doFcntl {s : State} {value : Int} (h : Inv s) (hserial : Serial s (.fcntl value)) :
    Inv (doFcntl s value) := by
  by_cases hcall : s.call = .fcntl
  · have hvalue : value ≠ -1 := hserial hcall
    rw [doFcntl, if_pos hcall, if_neg hvalue]
    have honce := h.once
    rw [pending, hcall] at honce
    exact ⟨⟨h.own, honce⟩, h.waiting, fun _ => h.last (by rw [hcall]; exact Call.noConfusion)⟩
  · rw [doFcntl, if_neg hcall]
    exact h

theorem inv_createClientThread {s : State} {created : Bool} (h : Inv s)
    (hserial : Serial s (.createClientThread created)) : Inv (createClientThread s created) := by
  by_cases hcall : s.call = .createClientThread
  · have hcreated : created = true := hserial hcall
    have hlast := h.last (by rw [hcall]; exact Call.noConfusion)
    rw [createClientThread, if_pos hcall, if_pos hcreated]
    have honce := h.once
    rw [pending, hcall] at honce
    refine ⟨⟨?_, ?_⟩, ?_, fun hne => absurd rfl hne⟩
    · intro t ht d hd
      rcases List.mem_append.mp ht with ht | ht
      · exact h.own t ht d hd
      · rw [List.mem_singleton.mp ht] at hd
        cases hd
    · simpa [pending] using honce
    · intro t ht hm
      rcases List.mem_append.mp ht with ht | ht
      · exact h.waiting t ht hm
      · rw [List.mem_singleton.mp ht, ← List.getLast?_eq_getElem?]
        exact hlast
  · rw [createClientThread, if_neg hcall]
    exact h

theorem connection_handler (clientfd : Int) (t : ClientThread) :
    (handlerClientThread clientfd t).connection = t.connection := by
  rw [handlerClientThread]
  split <;> rfl

theorem mem_modify_handler {l : List ClientThread} {i : Nat} {clientfd : Int} {t : ClientThread}
    (h : t ∈ l.modify i (handlerClientThread clientfd)) :
    ∃ u ∈ l, u.connection = t.connection ∧ (u.m = t.m ∨ u.m = none ∧ t.m = some clientfd) := by
  obtain ⟨j, hj⟩ := List.mem_iff_getElem?.mp h
  rw [List.getElem?_modify] at hj
  cases hu : l[j]? with
  | none => simp [hu] at hj
  | some u =>
      refine ⟨u, List.mem_of_getElem? hu, ?_⟩
      simp only [hu, Option.map_eq_map, Option.map_some, Option.some.injEq] at hj
      split at hj
      · rw [← hj]
        refine ⟨(connection_handler clientfd u).symm, ?_⟩
        rw [handlerClientThread]
        split
        · rename_i hm
          exact .inr ⟨hm, rfl⟩
        · exact .inl rfl
      · rw [hj]
        exact ⟨rfl, .inl rfl⟩

theorem inv_start {s : State} (thread : Nat) (h : Inv s) : Inv (step s (.start thread)) := by
  refine ⟨⟨?_, ?_⟩, ?_, h.last⟩
  · intro t ht d hd
    obtain ⟨u, hu, hconnection, hm | ⟨hm, hread⟩⟩ := mem_modify_handler ht
    · rw [← hconnection]
      exact h.own u hu d (hm.trans hd)
    · rw [← hconnection, ← hd, hread]
      exact h.waiting u hu hm
  · have hmap : (s.threads.modify thread (handlerClientThread s.clientfd)).map ClientThread.connection =
        s.threads.map ClientThread.connection := by
      refine List.ext_getElem? fun j => ?_
      rw [List.getElem?_map, List.getElem?_modify, List.getElem?_map]
      cases s.threads[j]? with
      | none => rfl
      | some u =>
          by_cases hj : thread = j
          · simp [hj, connection_handler]
          · simp [hj]
    change (s.threads.modify thread (handlerClientThread s.clientfd)).map ClientThread.connection ++
      pending s = _
    rw [hmap]
    exact h.once
  · intro t ht hm
    obtain ⟨u, hu, hconnection, hsame | ⟨-, hread⟩⟩ := mem_modify_handler ht
    · rw [← hconnection]
      exact h.waiting u hu (hsame.trans hm)
    · rw [hread] at hm
      cases hm

theorem inv_step (s : State) (e : Event) (h : Inv s) (hserial : Serial s e) : Inv (step s e) := by
  cases e with
  | accept fd => exact inv_doAccept h hserial
  | fcntl value => exact inv_doFcntl h hserial
  | createClientThread created => exact inv_createClientThread h hserial
  | start thread => exact inv_start thread h

/-- Once all have started, the threads work on the accepted descriptors, one each
and in their order. -/
theorem Served.handled {s : State} (h : Served s) (hcall : s.call = .accept)
    (hstarted : ∀ t ∈ s.threads, t.m ≠ none) : s.threads.map ClientThread.m = s.accepted.map some := by
  have honce := h.once
  rw [pending, if_pos hcall, List.append_nil] at honce
  have hm : s.threads.map ClientThread.m =
      (s.threads.map ClientThread.connection).map fun i => s.accepted[i]? := by
    rw [List.map_map]
    apply List.map_congr_left
    intro t ht
    obtain ⟨d, hd⟩ := Option.ne_none_iff_exists'.mp (hstarted t ht)
    rw [hd, Function.comp_apply, h.own t ht d hd]
  rw [hm, honce]
  apply List.ext_getElem (by simp)
  intro j hj hj'
  rw [List.getElem_map, List.getElem_map, List.getElem_range]
  exact List.getElem?_eq_getElem _

/-- Whatever the interleaving, if each thread has started when the next
connection is accepted, every connection is served with its own descriptor. -/
theorem run_served {clientfd : Int} {es : List Event} (h : Permitted step Serial (init clientfd) es) :
    Served (run step (init clientfd) es) :=
  (run_invariant Inv inv_step (inv_init clientfd) h).toServed

theorem run_served_demo :
    Served (run step (init 0) [.accept 5, .fcntl 0, .createClientThread true, .start 0, .accept 6]) :=
  run_served (by simp [Permitted, Serial, step, doAccept, doFcntl, createClientThread, init, handlerClientThread])

/-- The second client connects before the first thread has run. -/
theorem not_served : ¬ ∀ es, Served (run step (init 0) es) := by
  intro h
  have hserved := h [.accept 5, .fcntl 0, .createClientThread true, .accept 6, .start 0]
  have hown := hserved.own ⟨0, some 6⟩ List.mem_cons_self 6 rfl
  exact absurd hown (by decide)

end RadioServices.Logger.ClientSocket

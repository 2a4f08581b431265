import RadioServices.Logger.Process

namespace RadioServices.Logger.LocalStore

open Lib Lib.C Lib.Runs Process

def AllSettled (c : Config) (s : Process) : Prop :=
  ∀ d ∈ s.drains, Settled c.folder d.requests d.ops

/-- A drained list is what its event code takes it for: only log messages, for
files that can be written, or only delete requests. -/
def Matching (c : Config) (env : FileEnv) (requests : List Request) (evCode : TcEvent) : Prop :=
  if evCode = .evMsg then
    (∀ r ∈ requests, ∃ file text, r = .message file text) ∧ Writable c.folder env requests
  else ∀ r ∈ requests, ∃ domain names, r = .delete domain names

/-- The step drains no list against its event code. -/
def DrainsMatching (c : Config) (s : Process) : Event → Prop
  | .message w env _ => ∀ timedOut t evCode, s.messageThread.sigtimedwait w = some (timedOut, t) →
      t.eventCode timedOut = some evCode → Matching c env s.queued evCode
  | _ => True

theorem settled_of_matching {c : Config} {env : FileEnv} {requests : List Request} {evCode : TcEvent}
    {ml : Mmessagelist} (hstore : c.currentStoreType = .LOCAL_STORE)
    (hml : ml = SortedMap.collect (requests.map Request.item)) (h : Matching c env requests evCode) :
    Settled c.folder requests (msgToLocalStore c ml evCode env) := by
  rw [msgToLocalStore]
  rw [Matching] at h
  split
  · rename_i hcode
    rw [if_pos hcode] at h
    exact FileThread.runWork_settled hml h.1 h.2 hstore
  · rename_i hcode
    rw [if_neg hcode] at h
    exact FileThread.tryToDeleteFile_settled hml h

theorem AllSettled.step {c : Config} {s : Process} {e : Event} (hstore : c.currentStoreType = .LOCAL_STORE)
    (h : Inv c s ∧ AllSettled c s) (he : DrainsMatching c s e) :
    Inv c (step c s e) ∧ AllSettled c (step c s e) := by
  refine ⟨h.1.step e, ?_⟩
  have hcases := step_cases c s e
  generalize Process.step c s e = s' at hcases ⊢
  cases hcases with
  | threads t u => exact h.2
  | stored m t u => exact h.2
  | drained w env removesLocalFile timedOut t evCode u hwait hcode =>
      intro d hd
      rcases List.mem_append.mp hd with hd | hd
      · exact h.2 d hd
      · rw [List.mem_singleton.mp hd]
        exact settled_of_matching hstore h.1.holds (he timedOut t evCode hwait hcode)
  | sent w env timedOut t hwait => exact h.2

/-- In a run that drains every list with the event code its requests need, all
drained log messages are written and all drained delete requests carried out. -/
theorem run_allSettled (c : Config) (hstore : c.currentStoreType = .LOCAL_STORE) (localFile : Str)
    (siginfo : Int) (es : List Event)
    (hes : Permitted (step c) (DrainsMatching c) (init c localFile siginfo) es) :
    AllSettled c (run (step c) (init c localFile siginfo) es) :=
  (run_invariant (fun s => Inv c s ∧ AllSettled c s) (fun _ _ h he => AllSettled.step hstore h he)
    ⟨inv_init c localFile siginfo, fun d hd => by simp [init] at hd⟩ hes).2

def localConfig : Config := ⟨"/logs".toList, .LOCAL_STORE, 1000, 100, 0, 0⟩

def fileEnv : FileEnv := ⟨fun _ => ⟨true, true, 100, 100, true⟩, fun _ => false⟩

theorem run_allSettled_timeOut : AllSettled localConfig (run (step localConfig) (init localConfig [] 0)
    [.addMessage (.clientData [] "hello".toList []), .message .timeOut fileEnv fun _ => false]) := by
  refine run_allSettled localConfig rfl [] 0 _ ⟨trivial, ?_, trivial⟩
  rintro timedOut t evCode hwait hcode
  have hevent : evCode = .evMsg := by
    have hpair : (true, (⟨[], 0, true⟩ : Waiter)) = (timedOut, t) := Option.some.inj hwait
    cases hpair
    exact (Option.some.inj hcode).symm
  have hqueued : (step localConfig (init localConfig [] 0) (.addMessage (.clientData [] "hello".toList []))).queued =
      [.message "shop/a.log".toList "hello\n".toList] := by decide
  rw [Matching, if_pos hevent, hqueued]
  refine ⟨fun r hr => ⟨_, _, List.mem_singleton.mp hr⟩, fun file text hr => ?_⟩
  cases List.mem_singleton.mp hr
  exact ⟨rfl, rfl, by decide, rfl⟩

/-- A log message and a delete request are drained together, on the signal of
the latter: the message is not written, and its text is taken for a file. -/
theorem not_allSettled : ¬ ∀ (c : Config) (localFile : Str) (siginfo : Int) (es : List Event),
    c.currentStoreType = .LOCAL_STORE →
      AllSettled c (run (step c) (init c localFile siginfo) es) := by
  intro h
  let es : List Event := [.addMessage (.clientData [] "hello".toList []),
    .addMessage (.clientData "delete".toList [] []), .message (.signal 0) fileEnv fun _ => false]
  have hdrains : (run (step localConfig) (init localConfig [] 0) es).drains =
      [⟨[.message "shop/a.log".toList "hello\n".toList, .delete "shop".toList "a.log".toList],
        [.unlink "/logs/shop/a.log".toList, .unlink "/logs/shop/a.log/hello\n".toList]⟩] := by rfl
  have hsettled := h localConfig [] 0 es rfl
  rw [AllSettled, hdrains] at hsettled
  have hwritten := (hsettled _ List.mem_cons_self).written "/logs/shop/a.log".toList
  exact absurd hwritten (by decide)

end RadioServices.Logger.LocalStore

import RadioServices.Logger.Process
import Mathlib.Data.List.Perm.Subperm

namespace RadioServices.Logger.RemoteStore

open Lib Lib.C Lib.Runs Process

def places (s : Process) : Vmessage :=
  s.client.messageList.items.map Prod.snd ++ s.worker.msgList ++ s.sent ++ s.saved ++ s.dropped

/-- No stored message is lost, each counted as often as it was stored. -/
def Kept (s : Process) : Prop := s.stored.Subperm (places s)

/-- The round sends the whole list, and then deletes no message with the local
file, or its last send fails and the local file opens. -/
def RoundKeeps (s : Process) (env : RemoteEnv) : Prop :=
  let list := (s.worker.append s.client.messageList).msgList
  AllSent env.attempt list ∧ (list ≠ [] → s.worker.flLocalExists = true → s.saved = []) ∨
    ¬ LastSent env.attempt list ∧ env.opened = true

/-- The message thread drains no log message and deletes no local file, and the
rounds of the remote thread keep what they are given. -/
def StepKeeps (c : Config) (s : Process) : Event → Prop
  | .message w _ removesLocalFile => ∀ timedOut t evCode,
      s.messageThread.sigtimedwait w = some (timedOut, t) → t.eventCode timedOut = some evCode →
        (∀ r ∈ s.queued, ∃ domain names, r = .delete domain names) ∧
          ∀ p ∈ named c.folder s.queued, removesLocalFile p = false
  | .remote w env => ∀ timedOut t, s.remoteThread.sigtimedwait w = some (timedOut, t) → RoundKeeps s env
  | _ => True

section Round

theorem append_perm (r : RemoteThread) (mList : Mmessagelist) :
    ((r.append mList).msgList ++ r.dropped mList).Perm (r.msgList ++ mList.items.map Prod.snd) := by
  rw [SortedMap.map_snd_items, ← r.dropped_append mList]
  exact List.perm_append_comm

def savedAfter (saved : Vmessage) (round : Round) : Vmessage :=
  if round.unlinkLocalFile then [] else saved ++ round.saved

theorem round_keeps {s : Process} {env : RemoteEnv} (h : RoundKeeps s env) (t : Str) :
    (s.worker.append s.client.messageList).msgList.count t + s.saved.count t ≤
      (s.worker.runWork s.client.messageList env).sent.count t +
        (savedAfter s.saved (s.worker.runWork s.client.messageList env)).count t := by
  by_cases hnil : (s.worker.append s.client.messageList).msgList = []
  · rw [RemoteThread.runWork_of_nil _ _ _ hnil, hnil]
    simp [savedAfter]
  rw [RoundKeeps] at h
  rcases h with ⟨hall, hlocal⟩ | ⟨hlast, hopen⟩
  · have hok := transmit_isOk_of_allSent false hall hnil
    have hsent := (transmit_sublist env.attempt (s.worker.append s.client.messageList).msgList
      false).eq_of_length ((transmit_length_iff _ _ false).mpr hall)
    rw [RemoteThread.runWork_of_ok _ _ _ hnil hok, hsent, savedAfter]
    cases hexists : s.worker.flLocalExists with
    | true =>
        have hflag : (s.worker.append s.client.messageList).flLocalExists = true := hexists
        simp [hflag, hlocal hnil hexists]
    | false =>
        have hflag : (s.worker.append s.client.messageList).flLocalExists = false := hexists
        simp [hflag]
  · have hok : (transmit env.attempt (s.worker.append s.client.messageList).msgList false).2 = false := by
      rw [← Bool.not_eq_true, transmit_isOk_iff]
      exact hlast
    rw [RemoteThread.runWork_of_not_ok _ _ _ hnil hok]
    simp only [savedAfter, RemoteThread.saveRemoteFile, hopen, if_true, Bool.false_eq_true, if_false,
      List.count_append]
    omega

theorem saveRemoteFile_after (s : Process) (env : RemoteEnv) :
    (s.worker.runWork s.client.messageList env).thread.saveRemoteFile env = [] := by
  rw [RemoteThread.runWork_thread, RemoteThread.saveRemoteFile, RemoteThread.clear]
  exact ite_self []

end Round

def queuedTexts (requests : List Request) : Vmessage :=
  requests.flatMap fun
    | .message _ text => [text]
    | .delete _ _ => []

theorem queuedTexts_of_deletes {requests : List Request}
    (h : ∀ r ∈ requests, ∃ domain names, r = .delete domain names) : queuedTexts requests = [] := by
  apply List.flatMap_eq_nil_iff.mpr
  intro r hr
  obtain ⟨domain, names, rfl⟩ := h r hr
  rfl

theorem queuedTexts_sublist (requests : List Request) :
    (queuedTexts requests).Sublist ((requests.map Request.item).map Prod.snd) := by
  induction requests with
  | nil => exact .slnil
  | cons r requests ih =>
      cases r with
      | message file text => exact ih.cons_cons text
      | delete domain names => exact ih.cons names

theorem count_queuedTexts_le {s : Process} (h : s.client.Holds s.queued) (t : Str) :
    (queuedTexts s.queued).count t ≤ (s.client.messageList.items.map Prod.snd).count t := by
  have hperm := (SortedMap.items_collect_perm (s.queued.map Request.item)).map Prod.snd
  rw [TClientMessage.Holds] at h
  rw [h, hperm.count_eq]
  exact (queuedTexts_sublist s.queued).count_le t

theorem queuedTexts_storedText (s : Process) (m : TLogMsg) :
    queuedTexts (s.client.request m.parseData).toList = s.storedText m := by
  rw [storedText]
  cases s.client.request m.parseData with
  | none => rfl
  | some r => cases r <;> rfl

/-- Every stored message is among the queued log messages or past the queue. -/
def Accounted (s : Process) : Prop :=
  ∀ t, s.stored.count t ≤ (queuedTexts s.queued).count t + s.worker.msgList.count t +
    s.sent.count t + s.saved.count t + s.dropped.count t

theorem Accounted.kept {s : Process} (h : Accounted s) (hholds : s.client.Holds s.queued) : Kept s := by
  apply List.subperm_ext_iff.mpr
  intro t _
  have hqueued := count_queuedTexts_le hholds t
  have hstored := h t
  simp only [places, List.count_append]
  omega

theorem unlinked_remote {c : Config} (hstore : c.currentStoreType = .REMOTE_STORE) {s : Process}
    (hinv : Inv c s) {env : FileEnv} {evCode : TcEvent}
    (hdeletes : ∀ r ∈ s.queued, ∃ domain names, r = .delete domain names) :
    ∀ p ∈ unlinked (msgToLocalStore c s.client.messageList evCode env), p ∈ named c.folder s.queued := by
  intro p hp
  rw [msgToLocalStore] at hp
  split at hp
  · have hnot : ¬ (FileThread.new c s.client.messageList).categoryStore = .LOCAL_STORE :=
      fun h => by cases hstore.symm.trans h
    rw [FileThread.runWork, if_neg hnot] at hp
    simp [unlinked] at hp
  · exact (FileThread.tryToDeleteFile_settled hinv.holds hdeletes).deleted.mem_iff.mp hp

theorem Accounted.step {c : Config} (hstore : c.currentStoreType = .REMOTE_STORE) {s : Process} {e : Event}
    (h : Inv c s ∧ Accounted s) (he : StepKeeps c s e) :
    Inv c (step c s e) ∧ Accounted (step c s e) := by
  refine ⟨h.1.step e, ?_⟩
  obtain ⟨hinv, hacc⟩ := h
  have hcases := step_cases c s e
  generalize Process.step c s e = s' at hcases ⊢
  cases hcases with
  | threads t u => exact hacc
  | stored m t u =>
      intro text
      have hold := hacc text
      have hnew := queuedTexts_storedText s m
      simp only [queuedTexts] at hold hnew ⊢
      rw [List.flatMap_append, hnew, List.count_append, List.count_append]
      omega
  | drained w env removesLocalFile timedOut t evCode u hwait hcode =>
      obtain ⟨hdeletes, hremoves⟩ := he timedOut t evCode hwait hcode
      have hkeeps : ¬ (unlinked (msgToLocalStore c s.client.messageList evCode env)).any removesLocalFile := by
        rw [List.any_eq_true]
        rintro ⟨p, hp, hremoved⟩
        rw [hremoves p (unlinked_remote hstore hinv hdeletes p hp)] at hremoved
        exact Bool.false_ne_true hremoved
      intro text
      have hold := hacc text
      rw [queuedTexts_of_deletes hdeletes] at hold
      rw [if_neg hkeeps]
      exact hold
  | sent w env timedOut t hwait =>
      intro text
      have hround := round_keeps (he timedOut t hwait) text
      have happend := (append_perm s.worker s.client.messageList).count_eq text
      have hqueued := count_queuedTexts_le hinv.holds text
      have hold := hacc text
      have hthread : (s.worker.runWork s.client.messageList env).thread.msgList = [] := by
        rw [RemoteThread.runWork_thread]
        rfl
      have hsaved : (s.handlerRemoteThread t env).saved =
          savedAfter s.saved (s.worker.runWork s.client.messageList env) := by
        simp only [handlerRemoteThread, saveRemoteFile_after, List.append_nil, ite_self]
        rfl
      rw [hsaved]
      simp only [handlerRemoteThread, clearMessageList, hthread, List.count_append] at happend ⊢
      omega

/-- In remote mode no stored message is lost in a run whose steps keep what they
are given. -/
theorem run_kept (c : Config) (hstore : c.currentStoreType = .REMOTE_STORE) (localFile : Str)
    (siginfo : Int) (es : List Event)
    (hes : Permitted (step c) (StepKeeps c) (init c localFile siginfo) es) :
    Kept (run (step c) (init c localFile siginfo) es) := by
  have hrun := run_invariant (fun s => Inv c s ∧ Accounted s)
    (fun _ _ h he => Accounted.step hstore h he)
    ⟨inv_init c localFile siginfo, fun t => by simp [init]⟩ hes
  exact hrun.2.kept hrun.1.holds

def remoteConfig : Config := ⟨"/logs".toList, .REMOTE_STORE, 1000, 100, 0, 50⟩

def connectedEnv : RemoteEnv := ⟨fun _ => ⟨true, .connected, [.bytes 100]⟩, true⟩

theorem run_kept_sent : Kept (run (step remoteConfig) (init remoteConfig [] 0)
    [.addMessage (.clientData [] "one".toList "packed".toList), .remote .timeOut connectedEnv]) := by
  refine run_kept remoteConfig rfl [] 0 _ ⟨trivial, fun timedOut t _ => .inl ⟨?_, fun _ h => ?_⟩, trivial⟩
  · decide
  · exact absurd h (by decide)

/-- The message thread times out before the remote thread: the message it drains
goes nowhere. -/
theorem not_kept : ¬ ∀ (c : Config) (localFile : Str) (siginfo : Int) (es : List Event),
    c.currentStoreType = .REMOTE_STORE → Kept (run (step c) (init c localFile siginfo) es) := by
  intro h
  let env : FileEnv := ⟨fun _ => ⟨true, true, 100, 100, true⟩, fun _ => false⟩
  have hkept := h remoteConfig [] 0
    [.addMessage (.clientData [] "one".toList "packed".toList), .message .timeOut env fun _ => false] rfl
  exact absurd hkept.length_le (by decide)

end RadioServices.Logger.RemoteStore

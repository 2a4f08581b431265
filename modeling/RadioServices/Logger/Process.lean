import RadioServices.Lib.Runs
import RadioServices.Logger.RemoteThread

namespace RadioServices.Logger

open Lib Lib.C Lib.Runs

/-- A thread that waits for SIGUSR2: the values queued for it, the last one it
was given, and whether its loop still runs. -/
structure Waiter where
  pending : List Int
  siginfo : Int
  running : Bool

inductive Wait
  | timeOut
  | signal (i : Nat)

namespace Waiter

/-- `sigtimedwait`: whether it timed out, and the thread after it. It cannot time
out while a signal is pending. -/
def sigtimedwait (t : Waiter) : Wait → Option (Bool × Waiter)
  | .timeOut => if t.running ∧ t.pending = [] then some (true, t) else none
  | .signal i =>
      if t.running then
        t.pending[i]?.map fun value => (false, { t with pending := t.pending.eraseIdx i, siginfo := value })
      else none

def eventCode (t : Waiter) (timedOut : Bool) : Option TcEvent :=
  if timedOut ∨ t.siginfo = 0xFF then some .evMsg
  else if t.siginfo = TcEvent.evMsg.value then some .evMsg
  else if t.siginfo = TcEvent.evDelete.value then some .evDelete
  else none

def next (t : Waiter) : Waiter := { t with running := decide (t.siginfo ≠ 0xFF) }

def push (t : Waiter) (value : Int) : Waiter := { t with pending := t.pending ++ [value] }

end Waiter

structure Drain where
  requests : List Request
  ops : List FileOp

/-- The logger. `queued` are the requests whose strings stand in the list of the
client, `stored` all log messages the list was given. -/
structure Process where
  client : TClientMessage
  messageThread : Waiter
  remoteThread : Waiter
  worker : RemoteThread
  queued : List Request
  drains : List Drain
  stored : Vmessage
  sent : Vmessage
  saved : Vmessage
  dropped : Vmessage

/-- One iteration of a thread is one event: what it drained is its own. -/
inductive Event
  | addMessage (m : TLogMsg)
  | queueSignal (thread : Thread) (value : Int)
  | loseSignal (thread : Thread) (i : Nat)
  | stop (thread : Thread)
  | message (w : Wait) (env : FileEnv) (removesLocalFile : Str → Bool)
  | remote (w : Wait) (env : RemoteEnv)

namespace Process

def init (c : Config) (localFile : Str) (siginfo : Int) : Process :=
  let worker := RemoteThread.new c localFile
  { client := .new c.currentStoreType c.maxListSize c.registeredErrorLevel
    messageThread := ⟨[], siginfo, true⟩
    remoteThread := ⟨if worker.emptyMsgList then [] else [0], siginfo, decide (c.currentStoreType = .REMOTE_STORE)⟩
    worker := worker
    queued := []
    drains := []
    stored := []
    sent := []
    saved := []
    dropped := [] }

def onThread (s : Process) (thread : Thread) (f : Waiter → Waiter) : Process :=
  match thread with
  | .messageThread => { s with messageThread := f s.messageThread }
  | .remoteThread => { s with remoteThread := f s.remoteThread }

def notify (s : Process) : Notice → Process
  | .queue thread value => s.onThread thread fun t => t.push value.value
  | .transmitError _ _ _ => s
  | .terminate => s

def storedText (s : Process) (m : TLogMsg) : Vmessage :=
  match s.client.request m.parseData with
  | some (.message _ text) => [text]
  | _ => []

def addMessage (s : Process) (m : TLogMsg) : Process :=
  let result := s.client.addMessage m
  result.2.foldl notify
    { s with
      client := result.1
      queued := s.queued ++ (s.client.request m.parseData).toList
      stored := s.stored ++ s.storedText m }

def clearMessageList (s : Process) : Process :=
  { s with client := s.client.clearMessageList, queued := [] }

/-- An iteration of `handler_message_thread`, woken up as `t`. In a call that does
not return it takes no further wake-up. -/
def handlerMessageThread (c : Config) (s : Process) (timedOut : Bool) (t : Waiter) (env : FileEnv)
    (removesLocalFile : Str → Bool) : Process :=
  match t.eventCode timedOut with
  | none => { s with messageThread := t }
  | some evCode =>
      let ops := msgToLocalStore c s.client.messageList evCode env
      let returns := msgToLocalStoreReturns c s.client.messageList evCode env
      { s.clearMessageList with
        messageThread := if returns = true then t.next else { t with running := false }
        drains := s.drains ++ [⟨s.queued, ops⟩]
        saved := if (unlinked ops).any removesLocalFile then [] else s.saved }

/-- An iteration of `handler_remote_thread`, woken up as `t`, with the saving
after its loop. -/
def handlerRemoteThread (s : Process) (t : Waiter) (env : RemoteEnv) : Process :=
  let round := s.worker.runWork s.client.messageList env
  let saved := if round.unlinkLocalFile then [] else s.saved ++ round.saved
  { s.clearMessageList with
    remoteThread := t.next
    worker := round.thread
    sent := s.sent ++ round.sent
    saved := if t.next.running then saved else saved ++ round.thread.saveRemoteFile env
    dropped := s.dropped ++ s.worker.dropped s.client.messageList }

def step (c : Config) (s : Process) : Event → Process
  | .addMessage m => s.addMessage m
  | .queueSignal thread value => s.onThread thread fun t => t.push value
  | .loseSignal thread i => s.onThread thread fun t => { t with pending := t.pending.eraseIdx i }
  | .stop thread => s.onThread thread fun t => { t with running := false }
  | .message w env removesLocalFile =>
      match s.messageThread.sigtimedwait w with
      | none => s
      | some (timedOut, t) => handlerMessageThread c s timedOut t env removesLocalFile
  | .remote w env =>
      match s.remoteThread.sigtimedwait w with
      | none => s
      | some (_, t) => s.handlerRemoteThread t env

theorem onThread_eq (s : Process) (thread : Thread) (f : Waiter → Waiter) :
    ∃ t u, s.onThread thread f = { s with messageThread := t, remoteThread := u } := by
  cases thread with
  | messageThread => exact ⟨f s.messageThread, s.remoteThread, rfl⟩
  | remoteThread => exact ⟨s.messageThread, f s.remoteThread, rfl⟩

theorem foldl_notify_eq (notices : List Notice) (s : Process) :
    ∃ t u, notices.foldl notify s = { s with messageThread := t, remoteThread := u } := by
  induction notices generalizing s with
  | nil => exact ⟨s.messageThread, s.remoteThread, rfl⟩
  | cons n notices ih =>
      cases n with
      | queue thread value =>
          obtain ⟨t, u, h⟩ := onThread_eq s thread fun t => t.push value.value
          obtain ⟨t', u', h'⟩ := ih (s.onThread thread fun t => t.push value.value)
          refine ⟨t', u', ?_⟩
          rw [List.foldl_cons, notify, h', h]
      | transmitError _ _ _ => exact ih s
      | terminate => exact ih s

inductive Stepped (c : Config) (s : Process) : Event → Process → Prop
  | threads {e : Event} (t u : Waiter) : Stepped c s e { s with messageThread := t, remoteThread := u }
  | stored (m : TLogMsg) (t u : Waiter) : Stepped c s (.addMessage m)
      { s with
        client := (s.client.addMessage m).1
        queued := s.queued ++ (s.client.request m.parseData).toList
        stored := s.stored ++ s.storedText m
        messageThread := t
        remoteThread := u }
  | drained (w : Wait) (env : FileEnv) (removesLocalFile : Str → Bool) (timedOut : Bool) (t : Waiter)
      (evCode : TcEvent) (u : Waiter) (hwait : s.messageThread.sigtimedwait w = some (timedOut, t))
      (hcode : t.eventCode timedOut = some evCode) :
      Stepped c s (.message w env removesLocalFile)
        { s.clearMessageList with
          messageThread := u
          drains := s.drains ++ [⟨s.queued, msgToLocalStore c s.client.messageList evCode env⟩]
          saved := if (unlinked (msgToLocalStore c s.client.messageList evCode env)).any removesLocalFile
            then [] else s.saved }
  | sent (w : Wait) (env : RemoteEnv) (timedOut : Bool) (t : Waiter)
      (hwait : s.remoteThread.sigtimedwait w = some (timedOut, t)) :
      Stepped c s (.remote w env) (s.handlerRemoteThread t env)

theorem step_cases (c : Config) (s : Process) (e : Event) : Stepped c s e (step c s e) := by
  cases e with
  | addMessage m =>
      obtain ⟨t, u, h⟩ := foldl_notify_eq (s.client.addMessage m).2
        { s with
          client := (s.client.addMessage m).1
          queued := s.queued ++ (s.client.request m.parseData).toList
          stored := s.stored ++ s.storedText m }
      rw [step, Process.addMessage, h]
      exact .stored m t u
  | queueSignal thread value =>
      obtain ⟨t, u, h⟩ := onThread_eq s thread fun t => t.push value
      rw [step, h]
      exact .threads t u
  | loseSignal thread i =>
      obtain ⟨t, u, h⟩ := onThread_eq s thread fun t => { t with pending := t.pending.eraseIdx i }
      rw [step, h]
      exact .threads t u
  | stop thread =>
      obtain ⟨t, u, h⟩ := onThread_eq s thread fun t => { t with running := false }
      rw [step, h]
      exact .threads t u
  | message w env removesLocalFile =>
      rw [step]
      cases hwait : s.messageThread.sigtimedwait w with
      | none => exact .threads s.messageThread s.remoteThread
      | some p =>
          obtain ⟨timedOut, t⟩ := p
          simp only [handlerMessageThread]
          cases hcode : t.eventCode timedOut with
          | none => exact .threads t s.remoteThread
          | some evCode => exact .drained w env removesLocalFile timedOut t evCode _ hwait hcode
  | remote w env =>
      rw [step]
      cases hwait : s.remoteThread.sigtimedwait w with
      | none => exact .threads s.messageThread s.remoteThread
      | some p => exact .sent w env p.1 p.2 hwait

/-- The list of the client is what the queued requests build, for the store the
logger was started with. -/
structure Inv (c : Config) (s : Process) : Prop where
  holds : s.client.Holds s.queued
  store : s.client.categoryStore = c.currentStoreType

theorem inv_init (c : Config) (localFile : Str) (siginfo : Int) : Inv c (init c localFile siginfo) :=
  ⟨rfl, rfl⟩

theorem Inv.step {c : Config} {s : Process} (h : Inv c s) (e : Event) : Inv c (step c s e) := by
  have hcases := step_cases c s e
  generalize Process.step c s e = s' at hcases ⊢
  cases hcases with
  | threads t u => exact ⟨h.holds, h.store⟩
  | stored m t u => exact ⟨h.holds.addMessage m, (s.client.addMessage_categoryStore m).trans h.store⟩
  | drained => exact ⟨s.client.holds_clearMessageList, h.store⟩
  | sent => exact ⟨s.client.holds_clearMessageList, h.store⟩

end Process

end RadioServices.Logger

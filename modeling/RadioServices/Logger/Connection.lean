import RadioServices.Accordion.ClientSocket
import RadioServices.Logger.RemoteThread

namespace RadioServices.Logger.Connection

open Lib Lib.C Lib.Socket
open Accordion (ClientSocket)
open Accordion.ClientSocket (Buffer ConnectResult Outcomes TellsTruth)

/-- The value of `net_connect` and `f_connected` after it. A host that is found is tried once. -/
def netConnect (fConnected socket host : Bool) (connect : ConnectResult) : Bool × Bool :=
  if socket = false then (true, fConnected)
  else if host = false then (true, fConnected)
  else
    match connect with
    | .ok => (true, true)
    | .isConnected => (false, false)
    | .error => (false, false)

/-- `none` where the loop has not returned by that many passes. -/
def netSend (fConnected : Bool) (net : Net) (buf : Buffer) (passes : Nat) : Option (Bool × Str) :=
  if fConnected = false then some (false, [])
  else (Transfer.result net buf.bytes passes).map fun t => (!t.failed, t.peer)

/-- The string that `handler_client_thread` receives. The buffer may not be there. -/
def handlerClientThread (calloc : Bool) (r : Reception Char 50000) : Str :=
  if calloc = true then r.recvLoop [] else []

section Receiving

theorem recvLoop_whole_iff (allocated : Bool) (r : Reception Char 50000) :
    (if allocated = true then r.recvLoop [] else []) = r.text ↔ allocated = true ∧ r.Uncut ∨ r.text = [] := by
  cases allocated with
  | true =>
      have h := Reception.recvLoop_eq_iff [] r
      rw [List.nil_append] at h
      rw [if_pos rfl, h]
      exact ⟨fun huncut => .inl ⟨rfl, huncut⟩, fun h => h.elim And.right Reception.uncut_of_text⟩
  | false =>
      rw [if_neg Bool.false_ne_true, eq_comm]
      simp

/-- Both programs receive all that comes if and only if nothing comes behind a call that is to be made again. -/
theorem received_whole_iff (s : ClientSocket) (allocated : Bool) (r : Reception Char 50000) :
    ((s.netRecvString allocated r).1 = r.text ↔ allocated = true ∧ r.Uncut ∨ r.text = []) ∧
      (handlerClientThread allocated r = r.text ↔ allocated = true ∧ r.Uncut ∨ r.text = []) :=
  ⟨recvLoop_whole_iff allocated r, recvLoop_whole_iff allocated r⟩

/-- The second half of a reply comes after a pause. -/
def paused : Reception Char 50000 :=
  .chunk ⟨"HTTP/1.1 200 OK".toList, by decide, by decide⟩
    (.again (.chunk ⟨"finish".toList, by decide, by decide⟩ .closed))

theorem paused_cut_off :
    ¬ (∀ (s : ClientSocket) (r : Reception Char 50000), (s.netRecvString true r).1 = r.text) ∧
      ¬ ∀ r : Reception Char 50000, handlerClientThread true r = r.text := by
  constructor
  · intro h
    exact absurd (h ⟨3, 0, .nonblock, true⟩ paused) (by decide)
  · intro h
    exact absurd (h paused) (by decide)

end Receiving

section Connecting

variable {fConnected socket host : Bool} {connect : ConnectResult}

theorem netConnect_truth_iff (fConnected socket host : Bool) (connect : ConnectResult) :
    ((netConnect fConnected socket host connect).1 = true ↔
      (netConnect fConnected socket host connect).2 = true) ↔
        fConnected = true ∨ socket = true ∧ host = true := by
  cases socket with
  | false => simp [netConnect]
  | true =>
      cases host with
      | false => simp [netConnect]
      | true => cases connect <;> simp [netConnect]

/-- `net_connect` of both programs tells the truth if and only if there is a connection already, or there is a
socket and a host, and for accordion a limit to the attempts. -/
theorem connect_truth_iff (s : ClientSocket) (o : Outcomes) (fConnected socket host : Bool)
    (connect : ConnectResult) :
    (TellsTruth s o ↔ s.fConnected = true ∨ (o.socket = true ∧ o.host = true) ∧ s.maxConections ≠ 0) ∧
      (((netConnect fConnected socket host connect).1 = true ↔
          (netConnect fConnected socket host connect).2 = true) ↔
        fConnected = true ∨ socket = true ∧ host = true) :=
  ⟨ClientSocket.tellsTruth_iff s o, netConnect_truth_iff fConnected socket host connect⟩

/-- Without a host both say that they are connected, and with no limit no attempt is made. -/
theorem no_host_told_connected :
    (¬ ∀ (s : ClientSocket) (o : Outcomes),
        (s.netConnect o).value = true ↔ (s.netConnect o).socket.fConnected = true) ∧
      (¬ ∀ (s : ClientSocket) (o : Outcomes), s.maxConections = 0 → (s.netConnect o).socket.fConnected = true) ∧
        ¬ ∀ (fConnected socket host : Bool) (connect : ConnectResult),
          (netConnect fConnected socket host connect).1 = true ↔
            (netConnect fConnected socket host connect).2 = true := by
  refine ⟨fun h => ?_, fun h => ?_, fun h => ?_⟩
  · exact absurd (h ⟨20, 0, .block, false⟩ ⟨true, false, fun _ => .ok⟩) (by decide)
  · exact absurd (h ⟨0, 0, .block, false⟩ ⟨true, true, fun _ => .ok⟩ rfl) (by decide)
  · exact absurd (h false true false .ok) (by decide)

def outcome (socket host : Bool) (connect : ConnectResult) : Connect :=
  if socket = false then .noSocket
  else if host = false then .noHost
  else
    match connect with
    | .ok => .connected
    | .isConnected => .refused
    | .error => .refused

theorem netConnect_outcome (socket host : Bool) (connect : ConnectResult) :
    netConnect false socket host connect = Logger.netConnect (outcome socket host connect) := by
  cases socket with
  | false => rfl
  | true =>
      cases host with
      | false => rfl
      | true => cases connect <;> rfl

end Connecting

section Sending

variable {fConnected : Bool} {net : Net} {buf : Buffer} {passes : Nat} {r : Bool × Str}

theorem netSend_whole_iff (h : netSend fConnected net buf passes = some r) :
    r.1 = true ↔ fConnected = true ∧ r.2 = buf.bytes := by
  rw [netSend] at h
  split at h
  · rename_i hclosed
    cases h
    simp [hclosed]
  · rename_i hopen
    obtain ⟨t, ht, rfl⟩ := Option.map_eq_some_iff.mp h
    rw [Bool.not_eq_false] at hopen
    rw [Bool.not_eq_true', Transfer.whole_iff ht]
    exact (and_iff_right hopen).symm

end Sending

end RadioServices.Logger.Connection

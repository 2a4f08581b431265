import RadioServices.Lib.Socket
import RadioServices.Accordion.Playlist

namespace RadioServices.Accordion

open Lib Lib.C Lib.Socket

inductive SocketType
  | block
  | nonblock
  deriving DecidableEq

structure ClientSocket where
  maxConections : Int
  connectionCounter : Nat
  socketType : SocketType
  fConnected : Bool

namespace ClientSocket

/-- What `connect` returns. A socket that is connected already is an error of its own. -/
inductive ConnectResult
  | ok
  | isConnected
  | error

/-- Whether there is a socket and a host, and what the calls of `connect` return by their number. -/
structure Outcomes where
  socket : Bool
  host : Bool
  connect : Nat → ConnectResult

/-- What the loop over the attempts leaves, with the number of calls it made. -/
structure Attempts where
  retValue : Int
  connectionCounter : Nat
  calls : Nat

structure Connected where
  value : Bool
  socket : ClientSocket
  calls : Nat

def netClose (s : ClientSocket) : ClientSocket := { s with fConnected := false }

def attempt (connect : Nat → ConnectResult) : Nat → Nat → Attempts
  | 0, counter => ⟨-1, counter, counter⟩
  | left + 1, counter =>
      match connect counter with
      | .ok => ⟨0, counter, counter + 1⟩
      | .isConnected => ⟨0, counter, counter + 1⟩
      | .error => attempt connect left (counter + 1)

/-- The two early returns convert -1 to true. -/
def netConnect (s : ClientSocket) (o : Outcomes) : Connected :=
  if s.fConnected = true then ⟨true, s, 0⟩
  else if o.socket = false then ⟨true, s, 0⟩
  else if o.host = false then ⟨true, s, 0⟩
  else
    let a := attempt o.connect s.maxConections.toNat 0
    if a.retValue = -1 then
      ⟨false, { s with connectionCounter := a.connectionCounter, fConnected := false }, a.calls⟩
    else
      let counter := if s.socketType = .nonblock then 0 else a.connectionCounter
      ⟨true, { s with connectionCounter := counter, fConnected := true }, a.calls⟩

structure Buffer where
  bytes : Str
  fits : bytes.length < 2 ^ 31

structure Sent where
  value : Bool
  peer : Str
  socket : ClientSocket

/-- `none` where the loop has not returned by that many passes. -/
def netSend (s : ClientSocket) (net : Net) (buf : Buffer) (passes : Nat) : Option Sent :=
  if s.fConnected = false then some ⟨false, [], s⟩
  else (Transfer.result net buf.bytes passes).map fun t =>
    ⟨!t.failed, t.peer, if t.left = true then s.netClose else s⟩

/-- The string and the socket. The buffer may not be there. -/
def netRecvString (s : ClientSocket) (malloc : Bool) (r : Reception Char 50000) : Str × ClientSocket :=
  let str := if malloc = true then r.recvLoop [] else []
  (str, if str = [] then s.netClose else s)

section Attempts

variable {connect : Nat → ConnectResult}

theorem attempt_calls_le (left counter : Nat) : (attempt connect left counter).calls ≤ counter + left := by
  induction left generalizing counter with
  | zero => exact Nat.le_refl _
  | succ left ih =>
      rw [attempt]
      cases connect counter with
      | ok => exact Nat.add_le_add_left (Nat.succ_pos left) _
      | isConnected => exact Nat.add_le_add_left (Nat.succ_pos left) _
      | error => exact (ih (counter + 1)).trans_eq (by omega)

theorem attempt_fails_iff (left counter : Nat) :
    (attempt connect left counter).retValue = -1 ↔ ∀ i < left, connect (counter + i) = .error := by
  induction left generalizing counter with
  | zero => exact ⟨fun _ _ hi => absurd hi (Nat.not_lt_zero _), fun _ => rfl⟩
  | succ left ih =>
      rw [Nat.forall_lt_succ_left, Nat.add_zero, attempt]
      cases hfirst : connect counter with
      | ok => simp
      | isConnected => simp
      | error =>
          simp only [ih, true_and]
          refine forall_congr' fun i => ?_
          rw [Nat.add_right_comm, Nat.add_assoc]

end Attempts

section Truth

variable {s : ClientSocket} {o : Outcomes}

/-- `net_connect` is true if and only if there is a connection, it makes no more attempts than it may, and
where these are without limit it does not return but with a connection. -/
structure TellsTruth (s : ClientSocket) (o : Outcomes) : Prop where
  value : (s.netConnect o).value = true ↔ (s.netConnect o).socket.fConnected = true
  atMost : 0 < s.maxConections → ((s.netConnect o).calls : Int) ≤ s.maxConections
  forever : s.maxConections = 0 → (s.netConnect o).socket.fConnected = true

theorem netConnect_of_connected (h : s.fConnected = true) : s.netConnect o = ⟨true, s, 0⟩ := if_pos h

theorem netConnect_of_early (h : s.fConnected = false) (hearly : ¬ (o.socket = true ∧ o.host = true)) :
    s.netConnect o = ⟨true, s, 0⟩ := by
  rw [netConnect, if_neg (by simp [h])]
  split
  · rfl
  · rename_i hsocket
    rw [if_pos]
    by_contra hhost
    exact hearly ⟨(Bool.not_eq_false _).mp hsocket, (Bool.not_eq_false _).mp hhost⟩

theorem netConnect_of_attempts (h : s.fConnected = false) (hready : o.socket = true ∧ o.host = true) :
    ((s.netConnect o).value = true ↔ (s.netConnect o).socket.fConnected = true) ∧
      ((s.netConnect o).socket.fConnected = false ↔ ∀ i < s.maxConections.toNat, o.connect i = .error) ∧
        (s.netConnect o).calls ≤ s.maxConections.toNat := by
  have hfails := @attempt_fails_iff o.connect s.maxConections.toNat 0
  simp only [Nat.zero_add] at hfails
  have hcalls := @attempt_calls_le o.connect s.maxConections.toNat 0
  rw [Nat.zero_add] at hcalls
  rw [netConnect, if_neg (by simp [h]), if_neg (by simp [hready.1]), if_neg (by simp [hready.2]), ← hfails]
  dsimp only
  split
  · rename_i hret
    exact ⟨Iff.rfl, iff_of_true rfl hret, hcalls⟩
  · rename_i hret
    exact ⟨Iff.rfl, iff_of_false Bool.noConfusion hret, hcalls⟩

theorem tellsTruth_iff (s : ClientSocket) (o : Outcomes) :
    TellsTruth s o ↔ s.fConnected = true ∨ (o.socket = true ∧ o.host = true) ∧ s.maxConections ≠ 0 := by
  cases hconnected : s.fConnected with
  | true =>
      have heq := netConnect_of_connected (o := o) hconnected
      refine iff_of_true ⟨?_, fun hpos => ?_, fun _ => ?_⟩ (.inl rfl)
      · rw [heq]
        exact iff_of_true rfl hconnected
      · rw [heq]
        exact hpos.le
      · rw [heq]
        exact hconnected
  | false =>
      rw [or_iff_right Bool.false_ne_true]
      by_cases hready : o.socket = true ∧ o.host = true
      · obtain ⟨hvalue, hfails, hcalls⟩ := netConnect_of_attempts hconnected hready
        constructor
        · rintro ⟨-, -, hforever⟩
          refine ⟨hready, fun hzero => ?_⟩
          have hnone := hfails.mpr fun i hi => absurd hi (by rw [hzero]; exact Nat.not_lt_zero i)
          rw [hforever hzero] at hnone
          cases hnone
        · rintro ⟨-, hne⟩
          exact ⟨hvalue, fun _ => by omega, fun hzero => absurd hzero hne⟩
      · have heq := netConnect_of_early hconnected hready
        refine iff_of_false (fun htruth => ?_) fun h => hready h.1
        have hfalse := htruth.value.mp (by rw [heq])
        rw [heq, hconnected] at hfalse
        cases hfalse

def outcome (s : ClientSocket) (o : Outcomes) : Playlist.Connect :=
  if ¬ (o.socket = true ∧ o.host = true) then .error
  else if (attempt o.connect s.maxConections.toNat 0).retValue = -1 then .refused
  else .connected

theorem netConnect_outcome (s : ClientSocket) (o : Outcomes) :
    ((s.netConnect o).value, (s.netConnect o).socket.fConnected) =
      Playlist.netConnect s.fConnected (s.outcome o) := by
  cases hconnected : s.fConnected with
  | true =>
      rw [netConnect_of_connected hconnected, hconnected]
      rfl
  | false =>
      simp only [Playlist.netConnect, Bool.false_eq_true, if_false, outcome]
      by_cases hready : o.socket = true ∧ o.host = true
      · rw [if_neg (not_not.mpr hready), netConnect, if_neg (by simp [hconnected]), if_neg (by simp [hready.1]),
          if_neg (by simp [hready.2])]
        dsimp only
        split <;> rfl
      · rw [if_pos hready, netConnect_of_early hconnected hready, hconnected]

end Truth

section Sending

variable {s : ClientSocket} {net : Net} {buf : Buffer} {passes : Nat} {r : Sent}

theorem netSend_whole_iff (h : s.netSend net buf passes = some r) :
    r.value = true ↔ s.fConnected = true ∧ r.peer = buf.bytes := by
  rw [netSend] at h
  split at h
  · rename_i hclosed
    cases h
    simp [hclosed]
  · rename_i hopen
    obtain ⟨t, ht, rfl⟩ := Option.map_eq_some_iff.mp h
    rw [Bool.not_eq_false] at hopen
    rw [Bool.not_eq_true', Transfer.whole_iff ht]
    exact (and_iff_right hopen).symm

/-- A socket on which a buffer could not be sent is closed, any other stays open. -/
theorem netSend_fConnected (h : s.netSend net buf passes = some r) : r.socket.fConnected = r.value := by
  rw [netSend] at h
  split at h
  · rename_i hclosed
    cases h
    exact hclosed
  · rename_i hopen
    obtain ⟨t, ht, rfl⟩ := Option.map_eq_some_iff.mp h
    have hleft := Transfer.left_iff ht
    dsimp only
    cases hfailed : t.failed with
    | true =>
        rw [if_pos (hleft.mpr hfailed)]
        rfl
    | false =>
        rw [if_neg fun h => Bool.false_ne_true (hfailed.symm.trans (hleft.mp h))]
        exact (Bool.not_eq_false _).mp hopen

theorem netSend_outcome (h : s.netSend net buf passes = some r) :
    r.value = Playlist.netSend s.fConnected r.value ∧ r.socket.fConnected = Playlist.netSend s.fConnected r.value := by
  have hvalue : r.value = Playlist.netSend s.fConnected r.value := by
    rw [Playlist.netSend]
    cases hvalue : r.value with
    | true => rw [((netSend_whole_iff h).mp hvalue).1]; rfl
    | false => rw [Bool.and_false]
  exact ⟨hvalue, (netSend_fConnected h).trans hvalue⟩

end Sending

end ClientSocket

end RadioServices.Accordion

import RadioServices.Logger.Connection
import RadioServices.Musicgo.Parameters

namespace RadioServices.Musicgo.Delivery

open Lib Lib.C Lib.Socket
open Accordion (ClientSocket)
open Accordion.ClientSocket (Buffer)

/-- `none` where the loop has not returned by that many passes. -/
def bsend (net : Socket.Net) (buf : Buffer) (passes : Nat) : Option (Bool × Str) :=
  (Transfer.result net buf.bytes passes).map fun t => (!t.failed, t.peer)

variable {net : Socket.Net} {buf : Buffer} {passes : Nat} {r : Bool × Str}

theorem bsend_whole_iff (h : bsend net buf passes = some r) : r.1 = true ↔ r.2 = buf.bytes := by
  obtain ⟨t, ht, rfl⟩ := Option.map_eq_some_iff.mp h
  rw [Bool.not_eq_true', Transfer.whole_iff ht]

theorem bsend_begins (h : bsend net buf passes = some r) : r.2 <+: buf.bytes := by
  obtain ⟨t, ht, rfl⟩ := Option.map_eq_some_iff.mp h
  exact (Transfer.inv_of_reached (Loop.reached_of_result ht).1).begins

/-- Whatever the calls return, the peer always has a beginning of the buffer, the loops return true if and only if
it has all of it, and accordion is not connected any more when its loop returns false. -/
theorem sent_whole_or_reported (net : Socket.Net) (buf : Buffer) (passes : Nat) (s : ClientSocket) (fConnected : Bool) :
    (∀ t, Loop.Reached (Transfer.next net buf.bytes) Transfer.start t → t.peer <+: buf.bytes) ∧
      (∀ r, s.netSend net buf passes = some r →
        (r.value = true ↔ s.fConnected = true ∧ r.peer = buf.bytes) ∧
          (r.value = false → r.socket.fConnected = false)) ∧
        (∀ r, Logger.Connection.netSend fConnected net buf passes = some r →
          (r.1 = true ↔ fConnected = true ∧ r.2 = buf.bytes)) ∧
          ∀ r, bsend net buf passes = some r → (r.1 = true ↔ r.2 = buf.bytes) := by
  refine ⟨fun t ht => (Transfer.inv_of_reached ht).begins, fun r hr => ⟨ClientSocket.netSend_whole_iff hr, ?_⟩,
    fun r hr => Logger.Connection.netSend_whole_iff hr, fun r hr => bsend_whole_iff hr⟩
  intro hfalse
  rw [ClientSocket.netSend_fConnected hr, hfalse]

section Views

/-- The view `create_answer` has of a call. -/
theorem bsend_outcome (h : bsend net buf passes = some r) :
    ∃ outcome, Musicgo.bsend outcome buf.bytes.length = (r.1, r.2.length) := by
  have hwhole := bsend_whole_iff h
  have hle := (bsend_begins h).length_le
  cases hvalue : r.1 with
  | true =>
      refine ⟨none, Prod.ext (bsend_none _) ?_⟩
      rw [bsend_ok (bsend_none _), Int.toNat_natCast, hwhole.mp hvalue]
  | false =>
      refine ⟨some r.2.length, ?_⟩
      have hne : buf.bytes ≠ [] := by
        intro hnil
        rw [hnil] at hle hwhole
        rw [hwhole.mpr (List.eq_nil_of_length_eq_zero (Nat.le_zero.mp hle))] at hvalue
        cases hvalue
      have hpos := List.length_pos_iff.mpr hne
      rw [Musicgo.bsend, if_neg (by omega), Int.toNat_natCast, Nat.min_eq_left hle]

/-- The view `RunWork` has of a call. -/
theorem netSend_outcome {fConnected : Bool} (h : Logger.Connection.netSend fConnected net buf passes = some r) :
    ∃ results, Logger.netSend fConnected results buf.bytes = r := by
  rw [Logger.Connection.netSend] at h
  split at h
  · rename_i hclosed
    cases h
    exact ⟨[], by rw [Logger.netSend, hclosed, if_neg Bool.false_ne_true]⟩
  rename_i hopen
  have hloop (results) : Logger.netSend fConnected results buf.bytes = Logger.sendLoop results buf.bytes :=
    if_pos ((Bool.not_eq_false _).mp hopen)
  simp only [hloop]
  have hprefix := bsend_begins h
  have hwhole := bsend_whole_iff h
  obtain ⟨value, peer⟩ := r
  obtain ⟨unsent, hbuf⟩ := hprefix
  dsimp only at hbuf hwhole
  have hdrop : buf.bytes.drop peer.length = unsent := by rw [← hbuf, List.drop_left]
  have htake : buf.bytes.take peer.length = peer := by rw [← hbuf, List.take_left]
  cases value with
  | true =>
      have hall := hwhole.mp rfl
      refine ⟨[.bytes peer.length], ?_⟩
      by_cases hnil : buf.bytes = []
      · simp [Logger.sendLoop, hnil, hall]
      · have hunsent : unsent = [] := by
          rw [← hdrop, hall, List.drop_length]
        simp [Logger.sendLoop, hnil, hdrop, htake, hunsent]
  | false =>
      refine ⟨[.bytes peer.length, .error], ?_⟩
      have hunsent : unsent ≠ [] := by
        intro hnil
        rw [hnil, List.append_nil] at hbuf
        exact Bool.false_ne_true (hwhole.mpr hbuf)
      have hne : buf.bytes ≠ [] := by
        rw [← hbuf]
        exact List.append_ne_nil_of_right_ne_nil _ hunsent
      simp [Logger.sendLoop, hne, hdrop, htake, hunsent]

end Views

end RadioServices.Musicgo.Delivery

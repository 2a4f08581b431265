import RadioServices.Lib.Loop
import Mathlib.Data.List.TakeDrop

namespace RadioServices.Lib.Socket

universe u

variable {α : Type u}

section Send

inductive SendResult (asked : Nat)
  | count (n : Nat) (pos : 0 < n) (le : n ≤ asked)
  | again
  | error

/-- The results of the calls by their number, whatever each is asked to send. -/
abbrev Net := Nat → (asked : Nat) → SendResult asked

/-- A loop that sends a buffer piece by piece: how much is sent, whether the last call failed and
whether the loop was left for it, and what the peer was handed. -/
structure Transfer (α : Type u) where
  calls : Nat
  sent : Nat
  failed : Bool
  left : Bool
  peer : List α

namespace Transfer

def start : Transfer α := ⟨0, 0, false, false, []⟩

/-- One pass. A call that is to be made again is made again, any other failure ends the loop. -/
def next (net : Net) (buf : List α) (t : Transfer α) : Option (Transfer α) :=
  if t.left = true ∨ buf.length ≤ t.sent then none
  else match net t.calls (buf.length - t.sent) with
    | .count n _ _ => some ⟨t.calls + 1, t.sent + n, false, false, t.peer ++ (buf.drop t.sent).take n⟩
    | .again => some { t with calls := t.calls + 1, failed := true }
    | .error => some { t with calls := t.calls + 1, failed := true, left := true }

def result (net : Net) (buf : List α) (calls : Nat) : Option (Transfer α) :=
  Loop.result (next net buf) calls start

/-- The peer has what is sent of the buffer, and after a failure some of it is not. -/
structure Inv (buf : List α) (t : Transfer α) : Prop where
  le : t.sent ≤ buf.length
  peer : t.peer = buf.take t.sent
  rest : t.failed = true → t.sent < buf.length
  failed : t.left = true → t.failed = true

variable {net : Net} {buf : List α} {t u : Transfer α}

theorem inv_start (buf : List α) : Inv buf start :=
  ⟨Nat.zero_le _, rfl, fun h => (nomatch h), fun h => (nomatch h)⟩

theorem Inv.next (h : Inv buf t) (hnext : t.next net buf = some u) : Inv buf u := by
  rw [Transfer.next] at hnext
  split at hnext
  · cases hnext
  rename_i hgoes
  rw [not_or, Nat.not_le] at hgoes
  cases hresult : net t.calls (buf.length - t.sent) with
  | count n hpos hle =>
      rw [hresult] at hnext
      cases hnext
      refine ⟨by dsimp only; omega, ?_, fun h => (nomatch h), fun h => (nomatch h)⟩
      dsimp only
      rw [h.peer, List.take_add]
  | again =>
      rw [hresult] at hnext
      cases hnext
      exact ⟨h.le, h.peer, fun _ => hgoes.2, fun hleft => absurd hleft hgoes.1⟩
  | error =>
      rw [hresult] at hnext
      cases hnext
      exact ⟨h.le, h.peer, fun _ => hgoes.2, fun _ => rfl⟩

theorem inv_of_reached (h : Loop.Reached (next net buf) start t) : Inv buf t :=
  h.invariant (Inv buf) (fun _ _ => Inv.next) (inv_start buf)

theorem Inv.begins (h : Inv buf t) : t.peer <+: buf := h.peer ▸ List.take_prefix _ _

/-- The loop ends without a failure if and only if the peer has the whole buffer. -/
theorem whole_iff {calls : Nat} (h : result net buf calls = some t) : t.failed = false ↔ t.peer = buf := by
  obtain ⟨hreach, hover⟩ := Loop.reached_of_result h
  have hinv := inv_of_reached hreach
  have hend : t.left = true ∨ buf.length ≤ t.sent := by
    rw [next] at hover
    split at hover
    · assumption
    · split at hover <;> cases hover
  rw [hinv.peer, List.take_eq_self_iff]
  constructor
  · intro hok
    refine hend.resolve_left fun hleft => ?_
    rw [hinv.failed hleft] at hok
    cases hok
  · intro hall
    by_contra hfailed
    have hlt := hinv.rest ((Bool.not_eq_false _).mp hfailed)
    omega

theorem left_iff {calls : Nat} (h : result net buf calls = some t) : t.left = true ↔ t.failed = true := by
  obtain ⟨hreach, hover⟩ := Loop.reached_of_result h
  have hinv := inv_of_reached hreach
  refine ⟨hinv.failed, fun hfailed => ?_⟩
  have hlt := hinv.rest hfailed
  rw [next] at hover
  split at hover
  · rename_i hend
    exact hend.resolve_right (Nat.not_le.mpr hlt)
  · split at hover <;> cases hover

end Transfer

end Send

section Receive

abbrev Chunk (α : Type u) (size : Nat) := {bytes : List α // 0 < bytes.length ∧ bytes.length ≤ size}

/-- What the calls that receive return one after the other, up to the end of the stream or an error. -/
inductive Reception (α : Type u) (size : Nat)
  | closed
  | error
  | again (rest : Reception α size)
  | chunk (bytes : Chunk α size) (rest : Reception α size)

namespace Reception

variable {size : Nat}

def text : Reception α size → List α
  | .closed => []
  | .error => []
  | .again rest => rest.text
  | .chunk bytes rest => bytes.val ++ rest.text

/-- A loop that goes on as long as something is received. A call that is to be made again ends it too. -/
def recvLoop : Reception α size → List α → List α
  | .chunk bytes rest, str => rest.recvLoop (str ++ bytes.val)
  | .again _, str => str
  | .error, str => str
  | .closed, str => str

/-- Nothing is received behind a call that is to be made again. -/
def Uncut : Reception α size → Prop
  | .closed => True
  | .error => True
  | .again rest => rest.text = []
  | .chunk _ rest => rest.Uncut

theorem uncut_of_text {r : Reception α size} (h : r.text = []) : r.Uncut := by
  induction r with
  | closed => trivial
  | error => trivial
  | again rest => exact h
  | chunk bytes rest ih => exact ih (List.append_eq_nil_iff.mp h).2

theorem recvLoop_eq_iff (str : List α) (r : Reception α size) : r.recvLoop str = str ++ r.text ↔ r.Uncut := by
  induction r generalizing str with
  | closed => simp [recvLoop, text, Uncut]
  | error => simp [recvLoop, text, Uncut]
  | again rest => simp [recvLoop, text, Uncut]
  | chunk bytes rest ih =>
      rw [recvLoop, text, ← List.append_assoc, ih]
      exact Iff.rfl

end Reception

end Receive

end RadioServices.Lib.Socket

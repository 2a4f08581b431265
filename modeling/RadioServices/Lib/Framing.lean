import Mathlib.Algebra.GroupWithZero.Nat
import Mathlib.Data.List.Basic

namespace RadioServices.Lib.Framing

universe u v

/-- Frames behind one another. The header of a frame tells its size, 0 where it is no
header. -/
structure Format (α : Type u) where
  headerSize : Nat
  frameSize : List α → Nat

/-- The bytes begin with frames of these sizes. The last may end behind them. -/
inductive Begins {α : Type u} (f : Format α) : List α → List Nat → Prop
  | nil (bytes : List α) : Begins f bytes []
  | cons {bytes : List α} {sizes : List Nat} (header : f.headerSize ≤ bytes.length)
      (size : f.frameSize bytes ≠ 0) (rest : Begins f (bytes.drop (f.frameSize bytes)) sizes) :
      Begins f bytes (f.frameSize bytes :: sizes)

/-- The next frames, that many at most, are not shorter than their headers, and what
there is of them finds room. -/
def Fits {α : Type u} (f : Format α) (n room : Nat) (bytes : List α) : Prop :=
  ∀ sizes, Begins f bytes sizes → sizes.length ≤ n →
    (∀ size ∈ sizes, f.headerSize ≤ size) ∧ min sizes.sum bytes.length ≤ room

variable {α : Type u} {f : Format α} {n room : Nat} {bytes : List α}

theorem fits_zero : Fits f 0 room bytes := by
  intro sizes _ hlength
  obtain rfl := List.length_eq_zero_iff.mp (Nat.le_zero.mp hlength)
  simp

theorem fits_of_stop (h : bytes.length < f.headerSize ∨ f.frameSize bytes = 0) : Fits f n room bytes := by
  intro sizes hbegins _
  cases hbegins with
  | nil => simp
  | cons header size rest =>
      rcases h with h | h
      · omega
      · exact absurd h size

theorem fits_succ (header : f.headerSize ≤ bytes.length) (size : f.frameSize bytes ≠ 0) :
    Fits f (n + 1) room bytes ↔ f.headerSize ≤ f.frameSize bytes ∧ min (f.frameSize bytes) bytes.length ≤ room ∧
      Fits f n (room - f.frameSize bytes) (bytes.drop (f.frameSize bytes)) := by
  constructor
  · intro h
    obtain ⟨hheader, hfirst⟩ := h [f.frameSize bytes] (.cons header size (.nil _)) (by simp)
    refine ⟨hheader _ List.mem_cons_self, by simpa using hfirst, fun sizes hbegins hlength => ?_⟩
    obtain ⟨hsizes, hroom⟩ := h (f.frameSize bytes :: sizes) (.cons header size hbegins) (by simpa using hlength)
    refine ⟨fun s hs => hsizes s (List.mem_cons_of_mem _ hs), ?_⟩
    rw [List.sum_cons] at hroom
    rw [List.length_drop]
    omega
  · rintro ⟨hheader, hfirst, hrest⟩ sizes hbegins hlength
    cases hbegins with
    | nil => simp
    | cons _ _ rest =>
        obtain ⟨hsizes, hroom⟩ := hrest _ rest (Nat.le_of_succ_le_succ hlength)
        rw [List.length_drop] at hroom
        refine ⟨List.forall_mem_cons.mpr ⟨hheader, hsizes⟩, ?_⟩
        rw [List.sum_cons]
        omega

theorem fits_cut (header : f.headerSize ≤ bytes.length) (size : f.frameSize bytes ≠ 0)
    (hcut : bytes.length < f.frameSize bytes) (hpos : 0 < f.headerSize) :
    Fits f (n + 1) room bytes ↔ bytes.length ≤ room := by
  have hnil : bytes.drop (f.frameSize bytes) = [] := List.drop_eq_nil_of_le (Nat.le_of_lt hcut)
  rw [fits_succ header size, Nat.min_eq_right (Nat.le_of_lt hcut), hnil]
  constructor
  · exact fun h => h.2.1
  · exact fun h => ⟨by omega, h, fits_of_stop (.inl hpos)⟩

theorem fits_of_bound {bound : Nat} (hsize : ∀ bytes, f.frameSize bytes ≠ 0 →
      f.headerSize ≤ f.frameSize bytes ∧ f.frameSize bytes ≤ bound) (h : n * bound ≤ room) :
    Fits f n room bytes := by
  induction n generalizing room bytes with
  | zero => exact fits_zero
  | succ n ih =>
      by_cases hstop : bytes.length < f.headerSize ∨ f.frameSize bytes = 0
      · exact fits_of_stop hstop
      · obtain ⟨header, size⟩ := not_or.mp hstop
        obtain ⟨hlow, hhigh⟩ := hsize bytes size
        rw [Nat.succ_mul] at h
        exact (fits_succ (Nat.le_of_not_lt header) size).mpr ⟨hlow, by omega, ih (by omega)⟩

/-- A reader of frames: its loop, what is ahead of its states, how much they wrote, and whether
they asked for what there can be. -/
structure Reader (α : Type u) (σ : Type v) where
  format : Format α
  loop : Nat → σ → σ
  rest : σ → List α
  written : σ → Nat
  Sound : σ → Prop

/-- What one turn of the loop does. It stops, asks for less than nothing, or reads all of what is ahead or
a whole frame. -/
inductive Reader.Turn {α : Type u} {σ : Type v} (m : Reader α σ) (n : Nat) (r : σ) : Prop
  | stop (header : (m.rest r).length < m.format.headerSize ∨ m.format.frameSize (m.rest r) = 0)
      (sound : m.Sound (m.loop (n + 1) r) ↔ m.Sound r) (written : m.written (m.loop (n + 1) r) = m.written r)
  | short (header : m.format.headerSize ≤ (m.rest r).length) (size : m.format.frameSize (m.rest r) ≠ 0)
      (short : m.format.frameSize (m.rest r) < m.format.headerSize) (sound : ¬ m.Sound (m.loop (n + 1) r))
  | cut (header : m.format.headerSize ≤ (m.rest r).length) (size : m.format.frameSize (m.rest r) ≠ 0)
      (length : (m.rest r).length < m.format.frameSize (m.rest r))
      (sound : m.Sound (m.loop (n + 1) r) ↔ m.Sound r)
      (written : m.written (m.loop (n + 1) r) = m.written r + (m.rest r).length)
  | whole (header : m.format.headerSize ≤ (m.rest r).length) (long : m.format.headerSize ≤ m.format.frameSize (m.rest r))
      (size : m.format.frameSize (m.rest r) ≠ 0) (length : m.format.frameSize (m.rest r) ≤ (m.rest r).length)
      (next : σ) (loop : m.loop (n + 1) r = m.loop n next)
      (rest : m.rest next = (m.rest r).drop (m.format.frameSize (m.rest r)))
      (sound : m.Sound next ↔ m.Sound r)
      (written : m.written next = m.written r + m.format.frameSize (m.rest r))

namespace Reader

variable {σ : Type v} {m : Reader α σ}

theorem written_le (hzero : ∀ r, m.loop 0 r = r) (hturn : ∀ n r, m.Turn n r) (n : Nat) (r : σ)
    (hsound : m.Sound (m.loop n r)) : m.written r ≤ m.written (m.loop n r) := by
  induction n generalizing r with
  | zero => exact Nat.le_of_eq (congrArg m.written (hzero r)).symm
  | succ n ih =>
      cases hturn n r with
      | stop _ _ hwritten => exact Nat.le_of_eq hwritten.symm
      | short _ _ _ hnot => exact absurd hsound hnot
      | cut _ _ _ _ hwritten =>
          rw [hwritten]
          exact Nat.le_add_right _ _
      | whole _ _ _ _ next hloop _ _ hwritten =>
          rw [hloop] at hsound ⊢
          have hrest := ih next hsound
          omega

/-- A reader keeps within its room just when the frames ahead do. -/
theorem sound_iff_fits (hpos : 0 < m.format.headerSize) (hzero : ∀ r, m.loop 0 r = r) (hturn : ∀ n r, m.Turn n r)
    (n room : Nat) (r : σ) (hsound : m.Sound r) :
    m.Sound (m.loop n r) ∧ m.written (m.loop n r) ≤ m.written r + room ↔ Fits m.format n room (m.rest r) := by
  induction n generalizing r room with
  | zero =>
      rw [hzero]
      exact iff_of_true ⟨hsound, Nat.le_add_right _ _⟩ fits_zero
  | succ n ih =>
      cases hturn n r with
      | stop hend hsame hwritten =>
          rw [hsame, hwritten]
          exact iff_of_true ⟨hsound, Nat.le_add_right _ _⟩ (fits_of_stop hend)
      | short header size hshort hnot =>
          rw [fits_succ header size]
          exact iff_of_false (fun h => hnot h.1) fun h => absurd h.1 (Nat.not_le.mpr hshort)
      | cut header size hlength hsame hwritten =>
          rw [hsame, hwritten, fits_cut header size hlength hpos]
          constructor
          · rintro ⟨-, h⟩
            exact Nat.le_of_add_le_add_left h
          · exact fun h => ⟨hsound, Nat.add_le_add_left h _⟩
      | whole header hlong size hlength next hloop hrest hsame hwritten =>
          have hfits := ih (room - m.format.frameSize (m.rest r)) next (hsame.mpr hsound)
          have hgrows := written_le hzero hturn n next
          rw [hrest] at hfits
          rw [hloop, fits_succ header size, ← hfits, Nat.min_eq_left hlength]
          constructor
          · rintro ⟨hnext, hroom⟩
            have hfirst := hgrows hnext
            exact ⟨hlong, by omega, hnext, by omega⟩
          · rintro ⟨-, hfirst, hnext, hroom⟩
            exact ⟨hnext, by omega⟩

end Reader

end RadioServices.Lib.Framing

import RadioServices.Lib.Loop
import RadioServices.Accordion.Aac

namespace RadioServices.Accordion.AacScan

open Lib.C Lib.Loop Aac

/-- The seven bytes from a position on, or what the file has of them. -/
def headerAt (bytes : List UInt8) (p : Nat) : List UInt8 := (bytes.drop p).take cHeaderSize

/-- A whole header stands at the position, and the check accepts it. -/
def Accepted (bytes : List UInt8) (p : Nat) : Prop :=
  (headerAt bytes p).length = cHeaderSize ∧ (isValidFrameHeader (headerAt bytes p) 0).valid = true

instance (bytes : List UInt8) (p : Nat) : Decidable (Accepted bytes p) :=
  inferInstanceAs (Decidable ((headerAt bytes p).length = cHeaderSize ∧ (isValidFrameHeader (headerAt bytes p) 0).valid = true))

def lengthAt (bytes : List UInt8) (p : Nat) : Nat := (isValidFrameHeader (headerAt bytes p) 0).length

/-- The positions of the headers that are read: the first one at the beginning of the file, every other one behind the
frame of an accepted one, as long as the frames do not reach the end of the file from `index` on. -/
inductive Visited (bytes : List UInt8) (index : Nat) : Nat → Prop
  | start : Visited bytes index 0
  | frame {p : Nat} (hp : Visited bytes index p) (haccepted : Accepted bytes p)
      (hmore : index + (p + lengthAt bytes p) < bytes.length) : Visited bytes index (p + lengthAt bytes p)

def next (bytes : List UInt8) (index p : Nat) : Option Nat :=
  if Accepted bytes p ∧ index + (p + lengthAt bytes p) < bytes.length then some (p + lengthAt bytes p) else none

theorem visited_of_reached {bytes : List UInt8} {index p : Nat} (h : Reached (next bytes index) 0 p) :
    Visited bytes index p := by
  induction h with
  | start => exact .start
  | pass _ hu ih =>
      rw [next] at hu
      split at hu
      · rename_i hcond
        cases hu
        exact .frame ih hcond.1 hcond.2
      · cases hu

theorem reached_of_visited {bytes : List UInt8} {index p : Nat} (h : Visited bytes index p) :
    Reached (next bytes index) 0 p := by
  induction h with
  | start => exact .start
  | frame _ haccepted hmore ih => exact .pass ih (by rw [next, if_pos ⟨haccepted, hmore⟩])

theorem isValidFrameHeader_arg (header : List UInt8) (sr : Int) :
    (isValidFrameHeader header sr).valid = (isValidFrameHeader header 0).valid ∧
      (isValidFrameHeader header sr).length = (isValidFrameHeader header 0).length := by
  rw [isValidFrameHeader, isValidFrameHeader]
  split
  · exact ⟨rfl, rfl⟩
  split
  · exact ⟨rfl, rfl⟩
  · exact ⟨rfl, rfl⟩

theorem scanFrames_of_not_accepted {bytes : List UInt8} {p : Nat} (h : ¬ Accepted bytes p) (fuel : Nat)
    (frame : Int) (nextFilePos : Nat) (sr : Int) (ch : Nat) :
    ∃ scan, scanFrames bytes.length (fuel + 1) ⟨bytes, p⟩ frame nextFilePos sr ch = some scan := by
  have hle : (headerAt bytes p).length ≤ cHeaderSize := List.length_take_le _ _
  have hread : (File.fread ⟨bytes, p⟩ cHeaderSize).1 = headerAt bytes p := rfl
  rw [scanFrames]
  dsimp only
  rw [hread, (isValidFrameHeader_arg _ sr).1]
  split
  · exact ⟨_, rfl⟩
  rename_i hlength
  split
  · exact ⟨_, rfl⟩
  rename_i hvalid
  exact absurd ⟨by omega, (Bool.not_eq_false _).mp hvalid⟩ h

theorem scanFrames_of_accepted {bytes : List UInt8} {p : Nat} (h : Accepted bytes p) (fuel : Nat)
    (frame : Int) (nextFilePos : Nat) (sr : Int) (ch : Nat) :
    scanFrames bytes.length (fuel + 1) ⟨bytes, p⟩ frame nextFilePos sr ch =
      if nextFilePos + lengthAt bytes p < bytes.length then
        scanFrames bytes.length fuel ⟨bytes, p + lengthAt bytes p⟩ (i32 (frame + 1)) (nextFilePos + lengthAt bytes p)
          (isValidFrameHeader (headerAt bytes p) sr).samplingFrequency
          (isValidFrameHeader (headerAt bytes p) sr).channelConfig
      else some ⟨true, ⟨bytes, p + cHeaderSize⟩, i32 (frame + 1),
        (isValidFrameHeader (headerAt bytes p) sr).samplingFrequency,
        (isValidFrameHeader (headerAt bytes p) sr).channelConfig⟩ := by
  obtain ⟨hlength, hvalid⟩ := h
  have hread : File.fread ⟨bytes, p⟩ cHeaderSize = (headerAt bytes p, ⟨bytes, p + cHeaderSize⟩) := by
    have hfread : File.fread ⟨bytes, p⟩ cHeaderSize =
        (headerAt bytes p, ⟨bytes, p + (headerAt bytes p).length⟩) := rfl
    rw [hfread, hlength]
  have harg := isValidFrameHeader_arg (headerAt bytes p) sr
  have hseek : File.fseekCur ⟨bytes, p + cHeaderSize⟩ ((lengthAt bytes p : Int) - cHeaderSize) =
      ⟨bytes, p + lengthAt bytes p⟩ := by
    have hnot : ¬ ((p + cHeaderSize : Nat) : Int) + ((lengthAt bytes p : Int) - cHeaderSize) < 0 := by omega
    have hpos : (((p + cHeaderSize : Nat) : Int) + ((lengthAt bytes p : Int) - cHeaderSize)).toNat =
        p + lengthAt bytes p := by omega
    rw [File.fseekCur, if_neg hnot, hpos]
  rw [scanFrames]
  simp only [hread, hlength, harg.1, harg.2, hvalid, Bool.true_eq_false, if_false, Nat.lt_irrefl]
  rw [← lengthAt, hseek]

theorem scanFrames_isSome (bytes : List UInt8) (index fuel p : Nat) (frame sr : Int) (ch : Nat) :
    (∃ scan, scanFrames bytes.length fuel ⟨bytes, p⟩ frame (index + p) sr ch = some scan) ↔
      Ends (next bytes index) fuel p := by
  induction fuel generalizing p frame sr ch with
  | zero => simp [scanFrames, Ends]
  | succ fuel ih =>
      by_cases haccepted : Accepted bytes p
      · rw [scanFrames_of_accepted haccepted, Ends, next, Nat.add_assoc]
        by_cases hmore : index + (p + lengthAt bytes p) < bytes.length
        · rw [if_pos hmore, if_pos ⟨haccepted, hmore⟩, ih]
          exact ⟨fun h t ht => Option.some.inj ht ▸ h, fun h => h _ rfl⟩
        · rw [if_neg hmore, if_neg fun h => hmore h.2]
          exact ⟨fun _ t ht => absurd ht.symm (Option.some_ne_none t), fun _ => ⟨_, rfl⟩⟩
      · rw [Ends, next, if_neg fun h => haccepted h.1]
        exact ⟨fun _ t ht => absurd ht.symm (Option.some_ne_none t), fun _ => scanFrames_of_not_accepted haccepted _ _ _ _ _⟩

def NoEmptyFrame (bytes : List UInt8) (index : Nat) : Prop :=
  ∀ p, Visited bytes index p → Accepted bytes p → lengthAt bytes p ≠ 0

theorem Visited.lt {bytes : List UInt8} {index p : Nat} (hindex : index < bytes.length) (h : Visited bytes index p) :
    index + p < bytes.length := by
  cases h with
  | start => exact hindex
  | frame _ _ hmore => exact hmore

theorem next_down (bytes : List UInt8) (index t u : Nat) (hu : next bytes index t = some u) :
    u = t ∨ bytes.length - u < bytes.length - t := by
  rw [next] at hu
  split at hu
  · rename_i hcond
    cases hu
    omega
  · cases hu

/-- A pass that leaves the position is one over an empty frame. -/
theorem noEmptyFrame_iff {bytes : List UInt8} {index : Nat} (hindex : index < bytes.length) :
    NoEmptyFrame bytes index ↔ ∀ p, Reached (next bytes index) 0 p → next bytes index p ≠ some p := by
  constructor
  · intro hempty p hp hfix
    rw [next] at hfix
    split at hfix
    · rename_i hcond
      have hzero : lengthAt bytes p = 0 := by
        have heq := Option.some.inj hfix
        omega
      exact hempty p (visited_of_reached hp) hcond.1 hzero
    · cases hfix
  · intro hmove p hp haccepted hzero
    have hlt := hp.lt hindex
    apply hmove p (reached_of_visited hp)
    rw [next, hzero, Nat.add_zero, if_pos ⟨haccepted, hlt⟩]

theorem seekTo1Frame_lt {bytes : List UInt8} {index : Nat} (h : (seekTo1Frame ⟨bytes, 0⟩).1 = some index) :
    index < bytes.length := by
  have hmem := List.mem_of_find?_eq_some h
  have hle : ((File.fread (File.fseek ⟨bytes, 0⟩ 0) 50000).1).length ≤ bytes.length := by
    rw [File.fread_fst, List.length_take]
    exact Nat.min_le_right _ _
  exact Nat.lt_of_lt_of_le (List.mem_range.mp hmem) hle

/-- The loop of `aac_GetFileInfo` over the headers of a file ends, if it is begun. -/
def LoopEnds (bytes : List UInt8) (info : FileInfo) : Prop :=
  ∀ index, (seekTo1Frame ⟨bytes, 0⟩).1 = some index →
    ∃ fuel scan, scanFrames bytes.length fuel (seekTo1Frame ⟨bytes, 0⟩).2 0 index info.sr info.ch.toNat = some scan

theorem seekTo1Frame_snd (bytes : List UInt8) : (seekTo1Frame ⟨bytes, 0⟩).2 = ⟨bytes, 0⟩ := rfl

theorem exists_scanFrames_iff {bytes : List UInt8} {index : Nat} (hindex : index < bytes.length) (sr : Int) (ch : Nat) :
    (∃ fuel scan, scanFrames bytes.length fuel ⟨bytes, 0⟩ 0 index sr ch = some scan) ↔ NoEmptyFrame bytes index := by
  rw [noEmptyFrame_iff hindex, ← exists_ends_iff (fun p => bytes.length - p) fun t u _ => next_down bytes index t u]
  exact exists_congr fun fuel => scanFrames_isSome bytes index fuel 0 0 sr ch

/-- As many passes as the file has bytes, and one, are enough. -/
theorem scanFrames_iff {bytes : List UInt8} {index : Nat} (hindex : index < bytes.length) (sr : Int) (ch : Nat) :
    (∃ scan, scanFrames bytes.length (bytes.length + 1) ⟨bytes, 0⟩ 0 index sr ch = some scan) ↔
      NoEmptyFrame bytes index := by
  rw [noEmptyFrame_iff hindex, ← ends_iff (fun p => bytes.length - p) (fun t u _ => next_down bytes index t u)
    (Nat.lt_succ_of_le (Nat.sub_le _ _))]
  exact scanFrames_isSome bytes index _ 0 0 sr ch

theorem getFileInfo_of_index {bytes : List UInt8} {index : Nat} (h : (seekTo1Frame ⟨bytes, 0⟩).1 = some index)
    (t : Taac) (info : FileInfo) :
    (∃ r, getFileInfo t true (some bytes) info = some r) ↔
      ∃ scan, scanFrames bytes.length (bytes.length + 1) ⟨bytes, 0⟩ 0 index info.sr info.ch.toNat = some scan := by
  have hseek : seekTo1Frame ⟨bytes, 0⟩ = (some index, ⟨bytes, 0⟩) := Prod.ext h (seekTo1Frame_snd bytes)
  simp only [getFileInfo, hseek, Bool.true_eq_false, if_false]
  cases scanFrames bytes.length (bytes.length + 1) ⟨bytes, 0⟩ 0 index info.sr info.ch.toNat with
  | none => simp
  | some scan =>
      simp only [Option.bind_eq_bind, Option.bind_some]
      refine ⟨fun _ => ⟨_, rfl⟩, fun _ => ?_⟩
      split
      · exact ⟨_, rfl⟩
      · exact ⟨_, rfl⟩

theorem getFileInfo_of_no_index {bytes : List UInt8} (h : (seekTo1Frame ⟨bytes, 0⟩).1 = none) (t : Taac)
    (info : FileInfo) : ∃ r, getFileInfo t true (some bytes) info = some r := by
  have hseek : seekTo1Frame ⟨bytes, 0⟩ = (none, ⟨bytes, 0⟩) := Prod.ext h (seekTo1Frame_snd bytes)
  simp only [getFileInfo, hseek, Bool.true_eq_false, if_false]
  exact ⟨_, rfl⟩

/-- `aac_GetFileInfo` terminates if and only if no accepted header on its way says that its frame is empty. -/
theorem getFileInfo_terminates_iff (t : Taac) (bytes : List UInt8) (info : FileInfo) :
    (LoopEnds bytes info ↔ ∀ index, (seekTo1Frame ⟨bytes, 0⟩).1 = some index → NoEmptyFrame bytes index) ∧
      ((∃ r, getFileInfo t true (some bytes) info = some r) ↔
        ∀ index, (seekTo1Frame ⟨bytes, 0⟩).1 = some index → NoEmptyFrame bytes index) := by
  constructor
  · refine forall_congr' fun index => forall_congr' fun hindex => ?_
    rw [seekTo1Frame_snd]
    exact exists_scanFrames_iff (seekTo1Frame_lt hindex) _ _
  · cases hindex : (seekTo1Frame ⟨bytes, 0⟩).1 with
    | none => exact ⟨fun _ _ h => (nomatch h), fun _ => getFileInfo_of_no_index hindex t info⟩
    | some index =>
        rw [getFileInfo_of_index hindex, scanFrames_iff (seekTo1Frame_lt hindex)]
        exact ⟨fun h _ heq => Option.some.inj heq ▸ h, fun h => h _ rfl⟩

/-- The length of the first frame is 0, so that its header is read again and again. -/
theorem empty_frame_loops : ¬ ∀ (bytes : List UInt8) (info : FileInfo), LoopEnds bytes info := by
  intro hall
  have hindex : (seekTo1Frame ⟨[0xFF, 0xF1, 0x50, 0x80, 0, 0, 0, 0, 0, 0], 0⟩).1 = some 0 := by decide +kernel
  have hends := hall _ ⟨0, 0, 0, 0, 0, 0, 0, 0⟩ 0 hindex
  rw [seekTo1Frame_snd, exists_scanFrames_iff (by decide)] at hends
  exact hends 0 .start (by decide +kernel) (by decide +kernel)

end RadioServices.Accordion.AacScan

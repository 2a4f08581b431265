import RadioServices.Accordion.MpxSeek
import RadioServices.Musicgo.Segment

namespace RadioServices.Musicgo.Mp3Tag

open Lib.C Lib.Scan Mp3

/-- What the loop does with the rest of the buffer from a position on. -/
def verdict (rest : List UInt8) : Verdict :=
  if byteAt rest 0 = 0xFF ∧ byteAt rest 1 &&& 0xE0 = 0xE0 then
    if rest.length < 10 then .stop
    else if getFrameSize rest ≠ 0 then
      if rest.length < getFrameSize rest + 4 then .stop
      else if getFrameSize (rest.drop (getFrameSize rest)) ≠ 0 then .accept
      else .pass
    else .pass
  else .pass

theorem frameLoop_eq_scan (buf : List UInt8) (pos : Nat) :
    (frameLoop buf pos).map Prod.fst = scan verdict pos buf := by
  induction buf generalizing pos with
  | nil => rfl
  | cons c rest ih =>
      have hfirst : c = 0xFF ↔ byteAt (c :: rest) 0 = 0xFF := UInt8.toNat_inj.symm
      have hsecond : byteAt rest 0 = byteAt (c :: rest) 1 := rfl
      simp only [frameLoop, scan, verdict, hfirst, hsecond, List.length_cons]
      split
      · split
        · rfl
        split
        · split
          · rfl
          split
          · rfl
          · exact ih _
        · exact ih _
      · exact ih _

/-- The offset of the first frame, which `mp3_SeekForFirstFrame` adds to the start position. -/
def firstFrame (fd : Descriptor) : Option Int :=
  let (startPos, fd) := getStartPosition fd
  (seekForFirstFrame (fd.seek startPos)).1.map fun found => i32 (startPos + found.1)

theorem getFileSegment_found (fd : Descriptor) (start stop : Int) :
    (Mp3.getFileSegment fd start stop).found = (firstFrame fd).isSome := by
  rw [Mp3.getFileSegment, firstFrame]
  dsimp only
  cases (seekForFirstFrame ((getStartPosition fd).2.seek (getStartPosition fd).1)).1 with
  | none => rfl
  | some found =>
      obtain ⟨pos, bitrate⟩ := found
      dsimp only
      split <;> rfl

section Tag

/-- The header of an ID3v2 tag. Its size has four bytes of seven bits, the highest first. -/
structure TagHeader where
  version : UInt8
  revision : UInt8
  flags : UInt8
  size : Fin (2 ^ 28)

def TagHeader.bytes (h : TagHeader) : List UInt8 :=
  [0x49, 0x44, 0x33, h.version, h.revision, h.flags, UInt8.ofNat (h.size / 2 ^ 21),
    UInt8.ofNat (h.size / 2 ^ 14 % 2 ^ 7), UInt8.ofNat (h.size / 2 ^ 7 % 2 ^ 7), UInt8.ofNat (h.size % 2 ^ 7)]

/-- A file that begins with a tag. The size does not count the header. -/
structure TaggedFile where
  header : TagHeader
  tag : List UInt8
  length_tag : tag.length = header.size
  audio : List UInt8

def TaggedFile.size (f : TaggedFile) : Nat := f.header.size

def TaggedFile.bytes (f : TaggedFile) : List UInt8 := f.header.bytes ++ f.tag ++ f.audio

theorem join_size (n : Nat) :
    (n % 2 ^ 7) ||| ((n / 2 ^ 7 % 2 ^ 7) <<< 7) ||| ((n / 2 ^ 14 % 2 ^ 7) <<< 14) ||| ((n / 2 ^ 21) <<< 21) = n := by
  have hlow := Nat.two_pow_add_eq_or_of_lt (show n % 2 ^ 7 < 2 ^ 7 by omega) (n / 2 ^ 7 % 2 ^ 7)
  have hmid := Nat.two_pow_add_eq_or_of_lt (show n % 2 ^ 14 < 2 ^ 14 by omega) (n / 2 ^ 14 % 2 ^ 7)
  have hhigh := Nat.two_pow_add_eq_or_of_lt (show n % 2 ^ 21 < 2 ^ 21 by omega) (n / 2 ^ 21)
  have hsum₁ : 2 ^ 7 * (n / 2 ^ 7 % 2 ^ 7) + n % 2 ^ 7 = n % 2 ^ 14 := by omega
  have hsum₂ : 2 ^ 14 * (n / 2 ^ 14 % 2 ^ 7) + n % 2 ^ 14 = n % 2 ^ 21 := by omega
  have hsum₃ : 2 ^ 21 * (n / 2 ^ 21) + n % 2 ^ 21 = n := by omega
  simp only [Nat.shiftLeft_eq, Nat.mul_comm _ (2 ^ _)]
  rw [Nat.or_comm (n % 2 ^ 7), ← hlow, hsum₁, Nat.or_comm (n % 2 ^ 14), ← hmid, hsum₂, Nat.or_comm (n % 2 ^ 21),
    ← hhigh, hsum₃]

theorem size_byte {x : Nat} (h : x < 256) : (UInt8.ofNat x).toNat = x := by
  rw [UInt8.toNat_ofNat', Nat.mod_eq_of_lt h]

theorem join_bytes (h : TagHeader) :
    (UInt8.ofNat (h.size % 2 ^ 7)).toNat ||| ((UInt8.ofNat (h.size / 2 ^ 7 % 2 ^ 7)).toNat <<< 7) |||
      ((UInt8.ofNat (h.size / 2 ^ 14 % 2 ^ 7)).toNat <<< 14) ||| ((UInt8.ofNat (h.size / 2 ^ 21)).toNat <<< 21) =
        h.size := by
  have hlt := h.size.isLt
  rw [size_byte (by omega), size_byte (by omega), size_byte (by omega), size_byte (by omega), join_size]

variable (f : TaggedFile)

theorem take_bytes : f.bytes.take 10 = f.header.bytes := by
  rw [TaggedFile.bytes, List.append_assoc]
  exact List.take_left' rfl

theorem id_bytes (h : TagHeader) : h.bytes.take 3 = [0x49, 0x44, 0x33] := rfl

/-- Both programs skip the size alone. -/
theorem getStartPos_bytes (pos : Nat) : Accordion.Mpx.getStartPos ⟨f.bytes, pos⟩ = f.size := by
  have hinfo : ((Accordion.File.fseek ⟨f.bytes, pos⟩ 0).fread 10).1 = f.header.bytes := take_bytes f
  rw [Accordion.Mpx.getStartPos, hinfo, if_pos (id_bytes f.header)]
  exact join_bytes f.header

theorem getStartPosition_bytes (pos : Nat) :
    getStartPosition ⟨f.bytes, pos⟩ = ((f.size : Int), ⟨f.bytes, 10⟩) := by
  have hread : (Descriptor.seek ⟨f.bytes, pos⟩ 0).read 10 = (f.header.bytes, ⟨f.bytes, 10⟩) := by
    have htake : (f.bytes.drop 0).take 10 = f.header.bytes := take_bytes f
    rw [Descriptor.seek, if_neg (by decide), Descriptor.read]
    dsimp only [Int.toNat_zero]
    rw [htake]
    rfl
  have hlength : ¬ f.header.bytes.length < 10 := Nat.lt_irrefl 10
  have hjoin := join_bytes f.header
  simp only [getStartPosition, hread, if_neg hlength, if_pos (id_bytes f.header)]
  exact congrArg (fun n : Nat => ((n : Int), (⟨f.bytes, 10⟩ : Descriptor))) hjoin

def TaggedFile.searched : List UInt8 := (f.bytes.drop f.size).take 50000

theorem seekTo1Frame_bytes (pos : Nat) :
    (Accordion.Mpx.seekTo1Frame ⟨f.bytes, pos⟩).1 = scan Accordion.MpxSeek.verdict f.size f.searched := by
  rw [Accordion.MpxSeek.seekTo1Frame_eq, Accordion.MpxSeek.seekBuffer, getStartPos_bytes]
  rfl

theorem firstFrame_eq {fd fd' : Descriptor} {startPos : Int} (h : getStartPosition fd = (startPos, fd')) :
    firstFrame fd =
      (scan verdict 0 ((fd'.seek startPos).read 50000).1).map fun pos => i32 (startPos + (pos : Nat)) := by
  rw [firstFrame, h, ← frameLoop_eq_scan, Option.map_map]
  dsimp only
  rw [seekForFirstFrame, Option.map_map]
  rfl

theorem read_searched : ((Descriptor.seek ⟨f.bytes, 10⟩ (f.size : Int)).read 50000).1 = f.searched := by
  rw [Descriptor.seek, if_neg (by omega), Int.toNat_natCast, Descriptor.read, TaggedFile.searched]

theorem firstFrame_bytes (pos : Nat) :
    firstFrame ⟨f.bytes, pos⟩ = Option.map (fun p : Nat => (p : Int)) (scan verdict f.size f.searched) := by
  rw [firstFrame_eq (getStartPosition_bytes f pos), read_searched, scan_eq_map f.size, Option.map_map]
  cases hscan : scan verdict 0 f.searched with
  | none => rw [Option.map_none, Option.map_none]
  | some p =>
      obtain ⟨i, hi, rfl, -⟩ := scan_eq_some_iff.mp hscan
      have hsize := f.header.size.isLt
      rw [← TaggedFile.size] at hsize
      have hle : f.searched.length ≤ 50000 := by
        rw [TaggedFile.searched]
        exact List.length_take_le _ _
      rw [Option.map_some, Option.map_some, Function.comp_apply, i32_of_bounds (by omega) (by omega),
        Int.natCast_add f.size]

/-- In the last ten bytes in front of the end of the tag nothing is accepted that the search comes to. -/
def NoFrameInTag (verdict : List UInt8 → Verdict) : Prop :=
  ∀ i < f.searched.length, i < 10 → verdict (f.searched.drop i) = .accept →
    ∃ j < i, verdict (f.searched.drop j) = .stop

/-- The first frame is behind the tag if and only if nothing in its last ten bytes is taken for one. -/
theorem tag_skipped_iff (pos : Nat) :
    ((∀ p, (Accordion.Mpx.seekTo1Frame ⟨f.bytes, pos⟩).1 = some p → 10 + f.size ≤ p) ↔
        NoFrameInTag f Accordion.MpxSeek.verdict) ∧
      ((∀ p, firstFrame ⟨f.bytes, pos⟩ = some p → (10 + f.size : Int) ≤ p) ↔ NoFrameInTag f verdict) := by
  constructor
  · have hscan : (∀ p, scan Accordion.MpxSeek.verdict f.size f.searched = some p → f.size + 10 ≤ p) ↔
        NoFrameInTag f Accordion.MpxSeek.verdict := le_scan_iff
    rw [seekTo1Frame_bytes, ← hscan, Nat.add_comm]
  · have hscan : (∀ p, scan verdict f.size f.searched = some p → f.size + 10 ≤ p) ↔ NoFrameInTag f verdict :=
      le_scan_iff
    rw [firstFrame_bytes, ← hscan]
    constructor
    · intro hall p hp
      have hle := hall p (Option.map_eq_some_iff.mpr ⟨p, hp, rfl⟩)
      omega
    · intro hall p hp
      obtain ⟨q, hq, rfl⟩ := Option.map_eq_some_iff.mp hp
      have hle := hall q hq
      omega

/-- A tag that ends with the beginning of a frame. -/
def frameInTag : TaggedFile where
  header := ⟨3, 0, 0, 10⟩
  tag := [0xFF, 0xF3, 0x14, 0xC0, 0, 0, 0, 0, 0, 0]
  length_tag := rfl
  audio := List.replicate 14 0 ++ [0xFF, 0xF3, 0x14, 0xC0] ++ List.replicate 20 0

/-- Both programs take the end of the tag for the first frame. -/
theorem frameInTag_streamed :
    ¬ (∀ (f : TaggedFile) (pos p : Nat), (Accordion.Mpx.seekTo1Frame ⟨f.bytes, pos⟩).1 = some p → 10 + f.size ≤ p) ∧
      ¬ ∀ (f : TaggedFile) (pos : Nat) (p : Int), firstFrame ⟨f.bytes, pos⟩ = some p → (10 + f.size : Int) ≤ p := by
  have hsize : frameInTag.size = 10 := by decide +kernel
  constructor
  · intro hall
    have hle := hall frameInTag 0 10 (by decide +kernel)
    omega
  · intro hall
    have hle := hall frameInTag 0 10 (by decide +kernel)
    omega

end Tag

end RadioServices.Musicgo.Mp3Tag

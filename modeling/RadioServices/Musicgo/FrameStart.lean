import RadioServices.Musicgo.AacTime
import RadioServices.Musicgo.Mp3Tag

namespace RadioServices.Musicgo.FrameStart

open Lib Lib.C Lib.Scan

section Offsets

theorem i32_add_iff {begin frame : Int} {p : Nat} (hpos : 0 ≤ i32 begin) (hframe : 0 ≤ frame) (hframe' : frame < 2 ^ 31) :
    i32 (i32 begin + frame) = p ∧ begin ≤ p ↔ begin < 2 ^ 31 ∧ i32 begin + frame < 2 ^ 31 ∧ i32 begin + frame = p := by
  have hbounds := i32_bounds begin
  constructor
  · rintro ⟨hp, hle⟩
    have hfits : i32 begin + frame < 2 ^ 31 := by
      by_contra hlarge
      have hfar := i32_le_sub (not_lt.mp hlarge)
      omega
    rw [i32_of_bounds (by omega) hfits] at hp
    refine ⟨?_, hfits, hp⟩
    by_contra hlarge
    have hfar := i32_le_sub (not_lt.mp hlarge)
    omega
  · rintro ⟨hbegin, hfits, hp⟩
    have hle := le_i32 hbegin
    refine ⟨?_, by omega⟩
    rw [i32_of_bounds (by omega) hfits, hp]

end Offsets

section Descriptors

@[simp] theorem bytes_seek (fd : Descriptor) (off : Int) : (fd.seek off).bytes = fd.bytes := by
  rw [Descriptor.seek]
  split <;> rfl

@[simp] theorem bytes_read (fd : Descriptor) (n : Nat) : (fd.read n).2.bytes = fd.bytes := rfl

theorem seek_of_nonneg (fd : Descriptor) {off : Int} (h : 0 ≤ off) : fd.seek off = ⟨fd.bytes, off.toNat⟩ :=
  if_neg (not_lt.mpr h)

theorem byteAt_take {buf : List UInt8} {i n : Nat} (h : i < n) : byteAt (buf.take n) i = byteAt buf i := by
  rw [byteAt, byteAt, List.getD_eq_getElem?_getD, List.getD_eq_getElem?_getD, List.getElem?_take_of_lt h]

theorem take_drop_buffer (bytes : List UInt8) {b i n : Nat} (h : i + n ≤ 50000) :
    (((bytes.drop b).take 50000).drop i).take n = (bytes.drop (b + i)).take n := by
  have hmin : min n (50000 - i) = n := by omega
  rw [List.drop_take, List.take_take, hmin, List.drop_drop]

end Descriptors

section AacSearch

open Aac AacTime

theorem isValidFrameHeader_take (header : List UInt8) :
    Aac.isValidFrameHeader (header.take 7) = Aac.isValidFrameHeader header := by
  simp (disch := omega) only [Aac.isValidFrameHeader, syncword, byteAt_take]

theorem syncword_of_valid {header : List UInt8} (h : (Aac.isValidFrameHeader header).1 = true) :
    syncword header = 0xFFF := by
  by_contra hne
  rw [Aac.isValidFrameHeader, if_pos hne] at h
  cases h

/-- The search from a position comes upon an accepted header there, with ten bytes of the file. -/
def Findable (bytes : List UInt8) (b i : Nat) : Prop :=
  i + 10 ≤ 50000 ∧ b + i + 10 ≤ bytes.length ∧ Accepted bytes (b + i)

variable {bytes : List UInt8} {b : Nat}

theorem valid_iff (i : Nat) :
    (syncword (((bytes.drop b).take 50000).drop i) == 0xFFF &&
      decide (10 ≤ ((bytes.drop b).take 50000).length - i) &&
      (Aac.isValidFrameHeader (((bytes.drop b).take 50000).drop i)).1) = true ↔ Findable bytes b i := by
  have hlength : ((bytes.drop b).take 50000).length = min 50000 (bytes.length - b) := by
    rw [List.length_take, List.length_drop]
  have hheader (h : i + 10 ≤ 50000) : Aac.isValidFrameHeader (((bytes.drop b).take 50000).drop i) =
      Aac.isValidFrameHeader (headerAt bytes (b + i)) := by
    rw [← isValidFrameHeader_take, take_drop_buffer bytes (by omega)]
    rfl
  rw [Bool.and_eq_true, Bool.and_eq_true, decide_eq_true_iff, hlength, Findable, Accepted, whole_iff]
  constructor
  · rintro ⟨⟨-, hroom⟩, hvalid⟩
    rw [hheader (by omega)] at hvalid
    exact ⟨by omega, by omega, by omega, hvalid⟩
  · rintro ⟨hbuffer, hfile, -, hvalid⟩
    rw [← hheader hbuffer] at hvalid
    refine ⟨⟨?_, by omega⟩, hvalid⟩
    rw [syncword_of_valid hvalid]
    rfl

theorem getStartPos_cases (bytes : List UInt8) (b : Nat) :
    (Findable bytes b (getStartPos ⟨bytes, b⟩).1 ∧ ∀ i, Findable bytes b i → (getStartPos ⟨bytes, b⟩).1 ≤ i) ∨
      (getStartPos ⟨bytes, b⟩).1 = 0 ∧ ∀ i, ¬ Findable bytes b i := by
  have hpos : (getStartPos ⟨bytes, b⟩).1 = ((List.range ((bytes.drop b).take 50000).length).find? fun i =>
      syncword (((bytes.drop b).take 50000).drop i) == 0xFFF &&
        decide (10 ≤ ((bytes.drop b).take 50000).length - i) &&
        (Aac.isValidFrameHeader (((bytes.drop b).take 50000).drop i)).1).getD 0 := rfl
  have hlength : ((bytes.drop b).take 50000).length = min 50000 (bytes.length - b) := by
    rw [List.length_take, List.length_drop]
  rw [hpos]
  cases hfind : (List.range ((bytes.drop b).take 50000).length).find? _ with
  | some i =>
      obtain ⟨hvalid, hmem, hfirst⟩ := List.find?_range_eq_some.mp hfind
      refine .inl ⟨(valid_iff i).mp hvalid, fun j hj => ?_⟩
      by_contra hlt
      have hnot := hfirst j (not_le.mp hlt)
      rw [(valid_iff j).mpr hj] at hnot
      cases hnot
  | none =>
      refine .inr ⟨rfl, fun i hi => ?_⟩
      have hnone := List.find?_range_eq_none.mp hfind i (by
        obtain ⟨hbuffer, hfile, -⟩ := hi
        omega)
      rw [(valid_iff i).mpr hi] at hnone
      cases hnone

theorem getStartPos_lt (bytes : List UInt8) (b : Nat) : (getStartPos ⟨bytes, b⟩).1 < 50000 := by
  rcases getStartPos_cases bytes b with ⟨⟨hbuffer, -⟩, -⟩ | ⟨hzero, -⟩
  · omega
  · omega

/-- From the first header on, the first header is right there. -/
theorem getStartPos_again (bytes : List UInt8) : (getStartPos ⟨bytes, (getStartPos ⟨bytes, 0⟩).1⟩).1 = 0 := by
  rcases getStartPos_cases bytes 0 with ⟨⟨-, hfile, haccepted⟩, -⟩ | ⟨hzero, -⟩
  · rw [Nat.zero_add] at hfile haccepted
    have hhere : Findable bytes (getStartPos ⟨bytes, 0⟩).1 0 := ⟨by decide, hfile, haccepted⟩
    rcases getStartPos_cases bytes (getStartPos ⟨bytes, 0⟩).1 with ⟨-, hfirst⟩ | ⟨hzero, -⟩
    · exact Nat.le_zero.mp (hfirst 0 hhere)
    · exact hzero
  · rw [hzero, hzero]

theorem bytes_frameLoop {fileSize next : Int} {fuel frame : Nat} {fd fd' : Descriptor} {frames : Frames}
    (h : Aac.frameLoop fileSize fuel fd frame next = some (frames, fd')) : fd'.bytes = fd.bytes := by
  induction fuel generalizing fd frame next with
  | zero => cases h
  | succ fuel ih =>
      rw [Aac.frameLoop] at h
      dsimp only at h
      split at h
      · obtain ⟨-, rfl⟩ := Prod.mk.inj (Option.some.inj h)
        exact bytes_read fd 7
      split at h
      · split at h
        · rw [ih h, Descriptor.seekCur, bytes_seek, bytes_read]
        · obtain ⟨-, rfl⟩ := Prod.mk.inj (Option.some.inj h)
          exact bytes_read fd 7
      · obtain ⟨-, rfl⟩ := Prod.mk.inj (Option.some.inj h)
        exact bytes_read fd 7

variable {playTime : Nat → Nat → Int}

theorem bytes_seekForFirstFrame {fd fd' : Descriptor} {startPos : Nat} {bitrate : Int}
    (h : Aac.seekForFirstFrame playTime fd startPos = some (bitrate, fd')) : fd'.bytes = fd.bytes := by
  rw [Aac.seekForFirstFrame, Option.bind_eq_bind, Option.bind_eq_some_iff] at h
  obtain ⟨⟨frames, fd''⟩, hloop, h⟩ := h
  have hbytes := bytes_frameLoop hloop
  rw [bytes_seek] at hbytes
  rw [← hbytes]
  cases frames with
  | short =>
      obtain ⟨-, rfl⟩ := Prod.mk.inj (Option.some.inj h)
      rfl
  | counted frames frequency =>
      dsimp only at h
      split at h
      · obtain ⟨-, rfl⟩ := Prod.mk.inj (Option.some.inj h)
        rfl
      split at h
      · cases h
      · obtain ⟨-, rfl⟩ := Prod.mk.inj (Option.some.inj h)
        rfl

end AacSearch

section AacStart

open Aac AacTime

def aacFirst (bytes : List UInt8) : Nat := (getStartPos ⟨bytes, 0⟩).1

def aacBitrate (playTime : Nat → Nat → Int) (bytes : List UInt8) : Option Int :=
  (Aac.seekForFirstFrame playTime (getStartPos ⟨bytes, 0⟩).2 (aacFirst bytes)).map Prod.fst

/-- The preview starts on an accepted header, no earlier than so many seconds behind the first frame. -/
def AacStarts (playTime : Nat → Nat → Int) (bytes : List UInt8) (start stop : Nat) : Prop :=
  ∀ seg bitrate, Aac.getFileSegment playTime ⟨bytes, 0⟩ start stop = some seg → seg.found = true →
    aacBitrate playTime bytes = some bitrate →
      ∃ p : Nat, seg.start = p ∧ Accepted bytes p ∧ (aacFirst bytes + start * bitrate : Int) ≤ p

/-- The offset fits an `int`, and a header that is accepted stands there, or where a search from there comes upon it. -/
def AacAhead (bytes : List UInt8) (begin : Int) : Prop :=
  begin < 2 ^ 31 ∧ 0 ≤ i32 begin ∧ (Accepted bytes (i32 begin).toNat ∨
    ∃ i, Findable bytes (i32 begin).toNat i ∧ i32 begin + i < 2 ^ 31)

variable {playTime : Nat → Nat → Int} {bytes : List UInt8} {start stop : Nat}

def aacSecond (bytes : List UInt8) (begin : Int) : Nat :=
  if 0 ≤ i32 begin then (i32 begin).toNat else aacFirst bytes

theorem aac_getFileSegment (start stop : Int) {bitrate : Int} (h : aacBitrate playTime bytes = some bitrate)
    (hne : bitrate ≠ 0) : ∃ seg, Aac.getFileSegment playTime ⟨bytes, 0⟩ start stop = some seg ∧ seg.found = true ∧
      seg.start = i32 (i32 (aacFirst bytes + start * bitrate) +
        (getStartPos ⟨bytes, aacSecond bytes (aacFirst bytes + start * bitrate)⟩).1) ∧
      seg.stop = i32 (stop * bitrate) := by
  obtain ⟨⟨bitrate', fd⟩, hseek, hbitrate⟩ := Option.map_eq_some_iff.mp h
  obtain rfl : bitrate' = bitrate := hbitrate
  have hbytes := bytes_seekForFirstFrame hseek
  have hfirst : (fd.seek (aacFirst bytes)) = ⟨bytes, aacFirst bytes⟩ := by
    rw [seek_of_nonneg fd (Int.natCast_nonneg _), hbytes, Int.toNat_natCast]
    rfl
  have hsecond (begin : Int) : (fd.seek (aacFirst bytes)).seek (i32 begin) = ⟨bytes, aacSecond bytes begin⟩ := by
    rw [hfirst, aacSecond, Descriptor.seek]
    split
    · rw [if_neg (by omega)]
    · rw [if_pos (by omega)]
  have hbegin : i32 (i32 (start * bitrate') + aacFirst bytes) = i32 (aacFirst bytes + start * bitrate') := by
    rw [i32_add, Int.add_comm]
  refine ⟨⟨true, i32 (i32 (aacFirst bytes + start * bitrate') +
    (getStartPos ⟨bytes, aacSecond bytes (aacFirst bytes + start * bitrate')⟩).1), i32 (stop * bitrate'),
    (getStartPos ⟨bytes, aacSecond bytes (aacFirst bytes + start * bitrate')⟩).2.pos⟩, ?_, rfl, rfl, rfl⟩
  rw [Aac.getFileSegment]
  dsimp only
  rw [← aacFirst, hseek]
  dsimp only [Option.bind_eq_bind, Option.bind_some]
  rw [if_neg hne, hbegin, hsecond]
  rfl

theorem aacBitrate_of_found {start stop : Int} {seg : Segment}
    (hseg : Aac.getFileSegment playTime ⟨bytes, 0⟩ start stop = some seg) (hfound : seg.found = true) :
    ∃ bitrate, aacBitrate playTime bytes = some bitrate ∧ bitrate ≠ 0 := by
  rw [Aac.getFileSegment] at hseg
  dsimp only at hseg
  rw [← aacFirst, Option.bind_eq_bind, Option.bind_eq_some_iff] at hseg
  obtain ⟨⟨bitrate, fd⟩, hseek, hseg⟩ := hseg
  refine ⟨bitrate, Option.map_eq_some_iff.mpr ⟨_, hseek, rfl⟩, fun hzero => ?_⟩
  dsimp only at hseg
  rw [if_pos hzero] at hseg
  rw [← Option.some.inj hseg] at hfound
  cases hfound

/-- What the second search finds is an accepted header if and only if there is one ahead. -/
theorem aac_ahead_iff (bytes : List UInt8) (begin : Int) :
    (∃ p : Nat, i32 (i32 begin + (getStartPos ⟨bytes, aacSecond bytes begin⟩).1) = p ∧ Accepted bytes p ∧ begin ≤ p) ↔
      AacAhead bytes begin := by
  by_cases hpos : 0 ≤ i32 begin
  · obtain ⟨b, hb⟩ := Int.eq_ofNat_of_zero_le hpos
    have hbound := i32_bounds begin
    have hlt := getStartPos_lt bytes b
    have hsecond : aacSecond bytes begin = b := by
      rw [aacSecond, if_pos hpos, hb]
      exact Int.toNat_natCast b
    have hiff (p : Nat) := @i32_add_iff begin (getStartPos ⟨bytes, b⟩).1 p hpos (by omega) (by omega)
    rw [hb] at hbound hiff
    rw [AacAhead, hsecond, hb, Int.toNat_natCast]
    constructor
    · rintro ⟨p, hp, haccepted, hle⟩
      obtain ⟨hbegin, hfits, hsum⟩ := (hiff p).mp ⟨hp, hle⟩
      refine ⟨hbegin, by omega, ?_⟩
      rcases getStartPos_cases bytes b with ⟨hfind, -⟩ | ⟨hzero, -⟩
      · exact .inr ⟨_, hfind, hfits⟩
      · obtain rfl : p = b := by omega
        exact .inl haccepted
    · rintro ⟨hbegin, -, hahead⟩
      have hfits : (b : Int) + (getStartPos ⟨bytes, b⟩).1 < 2 ^ 31 ∧ Accepted bytes (b + (getStartPos ⟨bytes, b⟩).1) := by
        rcases getStartPos_cases bytes b with ⟨hfind, hfirst⟩ | ⟨hzero, hnone⟩
        · refine ⟨?_, hfind.2.2⟩
          rcases hahead with haccepted | ⟨i, hi, hlt'⟩
          · have hhere : Findable bytes b 0 := ⟨by decide, by have := hfind.2.1; omega, haccepted⟩
            have hle := hfirst 0 hhere
            omega
          · have hle := hfirst i hi
            omega
        · rw [hzero]
          rcases hahead with haccepted | ⟨i, hi, -⟩
          · exact ⟨by omega, haccepted⟩
          · exact absurd hi (hnone i)
      obtain ⟨hp, hle⟩ := (hiff (b + (getStartPos ⟨bytes, b⟩).1)).mpr ⟨hbegin, hfits.1, by omega⟩
      exact ⟨_, hp, hfits.2, hle⟩
  · have hsecond : aacSecond bytes begin = aacFirst bytes := if_neg hpos
    have hbound := i32_bounds begin
    rw [hsecond, aacFirst, getStartPos_again, AacAhead]
    refine iff_of_false ?_ fun h => hpos h.2.1
    rintro ⟨p, hp, -, -⟩
    rw [Int.natCast_zero, Int.add_zero, i32_of_bounds (by omega) (by omega)] at hp
    omega

theorem aacStarts_iff : AacStarts playTime bytes start stop ↔
    ∀ bitrate, aacBitrate playTime bytes = some bitrate → bitrate ≠ 0 →
      AacAhead bytes (aacFirst bytes + start * bitrate) := by
  constructor
  · intro h bitrate hbitrate hne
    obtain ⟨seg, hseg, hfound, hstart, -⟩ := aac_getFileSegment start stop hbitrate hne
    obtain ⟨p, hp, haccepted, hle⟩ := h seg bitrate hseg hfound hbitrate
    exact (aac_ahead_iff bytes _).mp ⟨p, hstart.symm.trans hp, haccepted, hle⟩
  · intro h seg bitrate hseg hfound hbitrate
    obtain ⟨bitrate', hbitrate', hne⟩ := aacBitrate_of_found hseg hfound
    obtain rfl := Option.some.inj (hbitrate.symm.trans hbitrate')
    obtain ⟨seg', hseg', -, hstart, -⟩ := aac_getFileSegment start stop hbitrate hne
    obtain rfl := Option.some.inj (hseg.symm.trans hseg')
    rw [hstart]
    exact (aac_ahead_iff bytes _).mpr (h bitrate hbitrate hne)

end AacStart

section Mp3Start

open Mp3 Mp3Tag

theorem mp3_isValidFrameHeader_take (header : List UInt8) :
    Mp3.isValidFrameHeader (header.take 4) = Mp3.isValidFrameHeader header := by
  simp (disch := omega) only [Mp3.isValidFrameHeader, byteAt_take]

def Mp3Accepted (bytes : List UInt8) (p : Nat) : Prop :=
  p + 4 ≤ bytes.length ∧ (Mp3.isValidFrameHeader ((bytes.drop p).take 4)).isSome

/-- How far behind a position two frames that follow each other are found. -/
def mp3Search (bytes : List UInt8) (b : Nat) : Option Nat := scan verdict 0 ((bytes.drop b).take 50000)

def mp3First (bytes : List UInt8) : Option (Int × Nat) :=
  let (startPos, fd) := getStartPosition ⟨bytes, 0⟩
  (Mp3.seekForFirstFrame (fd.seek startPos)).1.map fun found => (startPos + found.1, found.2)

def Mp3Starts (bytes : List UInt8) (start stop : Nat) : Prop :=
  ∀ first bitrate, (Mp3.getFileSegment ⟨bytes, 0⟩ start stop).found = true → mp3First bytes = some (first, bitrate) →
    ∃ p : Nat, (Mp3.getFileSegment ⟨bytes, 0⟩ start stop).start = p ∧ Mp3Accepted bytes p ∧
      first + start * (bitrate / 8 : Nat) ≤ p

/-- Two frames that follow each other stand there, and nothing in front of them ends a search from the position. -/
def Mp3Findable (bytes : List UInt8) (b i : Nat) : Prop :=
  i < ((bytes.drop b).take 50000).length ∧ verdict (((bytes.drop b).take 50000).drop i) = .accept ∧
    Passed verdict ((bytes.drop b).take 50000) i

/-- The offset fits an `int`, and a search from there comes upon two frames. -/
def Mp3Ahead (bytes : List UInt8) (begin : Int) : Prop :=
  begin < 2 ^ 31 ∧ ∃ i, Mp3Findable bytes begin.toNat i ∧ begin + i < 2 ^ 31

variable {bytes : List UInt8} {start stop : Nat}

theorem verdict_accept {rest : List UInt8} (h : verdict rest = .accept) :
    10 ≤ rest.length ∧ (Mp3.isValidFrameHeader rest).isSome := by
  rw [verdict] at h
  split at h
  · split at h
    · cases h
    split at h
    · rename_i hlength hsize
      refine ⟨not_lt.mp hlength, ?_⟩
      rw [getFrameSize] at hsize
      cases hheader : Mp3.isValidFrameHeader rest with
      | none =>
          rw [hheader] at hsize
          exact absurd rfl hsize
      | some header => rfl
    · cases h
  · cases h

theorem mp3Search_eq_some_iff {b i : Nat} : mp3Search bytes b = some i ↔ Mp3Findable bytes b i := by
  rw [mp3Search, scan_eq_some_iff]
  constructor
  · rintro ⟨j, hj, hij, hfound⟩
    obtain rfl : i = j := by omega
    exact ⟨hj, hfound⟩
  · rintro ⟨hi, hfound⟩
    exact ⟨i, hi, (Nat.zero_add i).symm, hfound⟩

theorem mp3Search_some {b i : Nat} (h : mp3Search bytes b = some i) : i < 50000 ∧ Mp3Accepted bytes (b + i) := by
  obtain ⟨hi, haccept, -⟩ := mp3Search_eq_some_iff.mp h
  obtain ⟨hlength, hvalid⟩ := verdict_accept haccept
  rw [List.length_drop, List.length_take, List.length_drop] at hlength
  rw [← mp3_isValidFrameHeader_take, take_drop_buffer bytes (by omega)] at hvalid
  exact ⟨by omega, by omega, hvalid⟩

theorem seekForFirstFrame_fst (bytes : List UInt8) (b : Nat) :
    (Mp3.seekForFirstFrame ⟨bytes, b⟩).1.map Prod.fst = mp3Search bytes b := by
  rw [mp3Search, ← frameLoop_eq_scan, Mp3.seekForFirstFrame, Option.map_map]
  rfl

theorem bytes_getStartPosition (bytes : List UInt8) : (getStartPosition ⟨bytes, 0⟩).2.bytes = bytes := by
  rw [getStartPosition]
  dsimp only
  split
  · rfl
  split
  · rfl
  · rw [bytes_read, Descriptor.seekEnd, bytes_seek]
    rfl

theorem getStartPosition_cases (bytes : List UInt8) :
    0 ≤ (getStartPosition ⟨bytes, 0⟩).1 ∨
      getStartPosition ⟨bytes, 0⟩ = (-1, ⟨bytes, bytes.length⟩) := by
  rw [getStartPosition]
  dsimp only
  split
  · rename_i hshort
    apply Or.inr
    have hread : (Descriptor.seek ⟨bytes, 0⟩ 0).read 10 = (bytes.take 10, ⟨bytes, 0 + (bytes.take 10).length⟩) := rfl
    rw [hread, List.length_take] at hshort ⊢
    have hlength : 0 + min 10 bytes.length = bytes.length := by omega
    rw [hlength]
  split
  · exact .inl (Int.natCast_nonneg _)
  · exact .inl le_rfl

variable {first : Int} {bitrate : Nat}

theorem mp3First_cases (h : mp3First bytes = some (first, bitrate)) :
    ∃ b pos : Nat, (getStartPosition ⟨bytes, 0⟩).1 = b ∧ mp3Search bytes b = some pos ∧ first = b + pos ∧
      (Mp3.seekForFirstFrame ⟨bytes, b⟩).1 = some (pos, bitrate) := by
  rcases getStartPosition_cases bytes with hpos | hshort
  · obtain ⟨b, hb⟩ := Int.eq_ofNat_of_zero_le hpos
    have hseek : (getStartPosition ⟨bytes, 0⟩).2.seek (getStartPosition ⟨bytes, 0⟩).1 = ⟨bytes, b⟩ := by
      rw [seek_of_nonneg _ hpos, bytes_getStartPosition, hb]
      rfl
    rw [mp3First] at h
    dsimp only at h
    rw [hseek, hb] at h
    obtain ⟨⟨pos, bitrate'⟩, hfound, heq⟩ := Option.map_eq_some_iff.mp h
    obtain ⟨hfirst, rfl⟩ := Prod.mk.inj heq
    refine ⟨b, pos, hb, ?_, hfirst.symm, hfound⟩
    rw [← seekForFirstFrame_fst, hfound, Option.map_some]
  · have hnone : (Mp3.seekForFirstFrame ⟨bytes, bytes.length⟩).1 = none := by
      rw [Mp3.seekForFirstFrame, Descriptor.read]
      dsimp only
      rw [List.drop_length]
      rfl
    rw [mp3First, hshort] at h
    dsimp only at h
    rw [Descriptor.seek, if_pos (by decide), hnone] at h
    cases h

theorem bytes_firstFrame (fd : Descriptor) : (Mp3.seekForFirstFrame fd).2.bytes = fd.bytes := by
  rw [Mp3.seekForFirstFrame]
  dsimp only
  rw [bytes_read]

theorem getFileSegment_start {fd fd' fd'' : Descriptor} {startPos start stop : Int} {pos : Nat}
    (hposition : getStartPosition fd = (startPos, fd'))
    (hfirst : Mp3.seekForFirstFrame (fd'.seek startPos) = (some (pos, bitrate), fd'')) :
    (Mp3.getFileSegment fd start stop).start =
      ((Mp3.seekForFirstFrame (fd''.seek (i32 (i32 (start * (bitrate / 8 : Nat)) + i32 (startPos + pos))))).1.map
        Prod.fst).elim 0 fun i => i32 (i32 (i32 (start * (bitrate / 8 : Nat)) + i32 (startPos + pos)) + i) := by
  rw [Mp3.getFileSegment, hposition]
  simp only [hfirst]
  cases (Mp3.seekForFirstFrame (fd''.seek (i32 (i32 (start * (bitrate / 8 : Nat)) + i32 (startPos + pos))))).1 with
  | none => rfl
  | some found => rfl

theorem mp3_getFileSegment (h : mp3First bytes = some (first, bitrate)) : ∃ fd : Descriptor, fd.bytes = bytes ∧
    (Mp3.getFileSegment ⟨bytes, 0⟩ start stop).start =
      ((Mp3.seekForFirstFrame (fd.seek (i32 (first + start * (bitrate / 8 : Nat))))).1.map Prod.fst).elim 0
        fun i => i32 (i32 (first + start * (bitrate / 8 : Nat)) + i) := by
  obtain ⟨b, pos, hb, -, hfirst, hfound⟩ := mp3First_cases h
  have hseek : (getStartPosition ⟨bytes, 0⟩).2.seek b = ⟨bytes, b⟩ := by
    rw [seek_of_nonneg _ (Int.natCast_nonneg b), bytes_getStartPosition]
    rfl
  have hbegin : i32 (i32 (start * (bitrate / 8 : Nat)) + i32 (b + pos)) = i32 (first + start * (bitrate / 8 : Nat)) := by
    rw [i32_add, Int.add_comm, i32_add, hfirst]
  have hstart := @getFileSegment_start bitrate ⟨bytes, 0⟩ _ _ b start stop pos (Prod.ext hb rfl)
    (by rw [hseek]; exact Prod.ext hfound rfl)
  rw [hbegin] at hstart
  exact ⟨_, bytes_firstFrame ⟨bytes, b⟩, hstart⟩

theorem mp3_found (h : mp3First bytes = some (first, bitrate)) :
    (Mp3.getFileSegment ⟨bytes, 0⟩ start stop).found = true := by
  obtain ⟨hsome, -⟩ : ((Mp3.seekForFirstFrame ((getStartPosition ⟨bytes, 0⟩).2.seek
      (getStartPosition ⟨bytes, 0⟩).1)).1.map fun found => ((getStartPosition ⟨bytes, 0⟩).1 + found.1, found.2)) =
        some (first, bitrate) ∧ True := ⟨h, trivial⟩
  obtain ⟨found, hfound, -⟩ := Option.map_eq_some_iff.mp hsome
  rw [getFileSegment_found, firstFrame]
  dsimp only
  rw [hfound]
  rfl

/-- A search that begins where an overflow has led ends up in front of the offset. -/
theorem mp3_not_ahead {begin : Int} {fd : Descriptor} (hneg : i32 begin < 0) (hbegin : 0 ≤ begin) {p : Nat}
    (hp : (((Mp3.seekForFirstFrame fd).1.map Prod.fst).elim 0 fun i => i32 (i32 begin + i)) = p) : ¬ begin ≤ p := by
  have hbounds := i32_bounds begin
  have hlarge : 2 ^ 31 ≤ begin := by
    by_contra hlt
    have hle := le_i32 (not_le.mp hlt)
    omega
  have hsearch := seekForFirstFrame_fst fd.bytes fd.pos
  rw [show (⟨fd.bytes, fd.pos⟩ : Descriptor) = fd from rfl] at hsearch
  rw [hsearch] at hp
  cases hfound : mp3Search fd.bytes fd.pos with
  | none =>
      rw [hfound] at hp
      have hzero : (0 : Int) = p := hp
      omega
  | some i =>
      have hlt := (mp3Search_some hfound).1
      rw [hfound] at hp
      have hsum : i32 (i32 begin + i) = p := hp
      rw [i32_of_bounds (by omega) (by omega)] at hsum
      omega

theorem mp3_ahead_iff (h : mp3First bytes = some (first, bitrate)) :
    (∃ p : Nat, (Mp3.getFileSegment ⟨bytes, 0⟩ start stop).start = p ∧ Mp3Accepted bytes p ∧
        first + start * (bitrate / 8 : Nat) ≤ p) ↔ Mp3Ahead bytes (first + start * (bitrate / 8 : Nat)) := by
  obtain ⟨fd, rfl, hstart⟩ := @mp3_getFileSegment bytes start stop first bitrate h
  obtain ⟨b, pos, -, hsearch, hfirst, -⟩ := mp3First_cases h
  rw [hstart]
  have hproduct : (0 : Int) ≤ start * (bitrate / 8 : Nat) := by positivity
  generalize hbegin : first + start * (bitrate / 8 : Nat) = begin
  have hbounds := i32_bounds begin
  by_cases hneg : i32 begin < 0
  · apply iff_of_false
    · rintro ⟨p, hp, -, hle⟩
      exact mp3_not_ahead hneg (by omega) hp hle
    · rintro ⟨hlt, -⟩
      have hle := le_i32 hlt
      omega
  · have hpos := not_lt.mp hneg
    rw [seek_of_nonneg fd hpos, seekForFirstFrame_fst]
    constructor
    · rintro ⟨p, hp, -, hle⟩
      cases hfound : mp3Search fd.bytes (i32 begin).toNat with
      | none =>
          rw [hfound] at hp
          have hzero : (0 : Int) = p := hp
          -- the first frame is at the start of the file, and was found there
          have hbegin' : begin = 0 := by omega
          obtain ⟨rfl, rfl⟩ : b = 0 ∧ pos = 0 := by omega
          rw [hbegin'] at hfound
          exact absurd (hfound.symm.trans hsearch) (by simp)
      | some i =>
          have hlt := (mp3Search_some hfound).1
          rw [hfound] at hp
          obtain ⟨hfits, hsum, -⟩ := (i32_add_iff hpos (Int.natCast_nonneg i) (by omega)).mp ⟨hp, hle⟩
          rw [i32_of_bounds (by omega) hfits] at hfound hsum
          exact ⟨hfits, i, mp3Search_eq_some_iff.mp hfound, hsum⟩
    · rintro ⟨hfits, i, hfindable, hsum⟩
      have hfound := mp3Search_eq_some_iff.mpr hfindable
      have hsame : i32 begin = begin := i32_of_bounds (by omega) hfits
      rw [hsame, hfound]
      refine ⟨begin.toNat + i, ?_, (mp3Search_some hfound).2, by omega⟩
      rw [Option.elim_some, i32_of_bounds (by omega) hsum]
      omega

theorem mp3Starts_iff : Mp3Starts bytes start stop ↔ ∀ first bitrate, mp3First bytes = some (first, bitrate) →
    Mp3Ahead bytes (first + start * (bitrate / 8 : Nat)) := by
  constructor
  · intro h first bitrate hfirst
    exact (mp3_ahead_iff hfirst).mp (h first bitrate (mp3_found hfirst) hfirst)
  · intro h first bitrate _ hfirst
    exact (mp3_ahead_iff hfirst).mpr (h first bitrate hfirst)

end Mp3Start

section Previews

variable {playTime : Nat → Nat → Int} {bytes : List UInt8} {start stop : Nat}

/-- The previews of a file start on a frame if and only if the searches from their offsets find one. -/
theorem startsOnFrame_iff (playTime : Nat → Nat → Int) (bytes : List UInt8) (start stop : Nat) :
    (AacStarts playTime bytes start stop ↔ ∀ bitrate, aacBitrate playTime bytes = some bitrate → bitrate ≠ 0 →
        AacAhead bytes (aacFirst bytes + start * bitrate)) ∧
      (Mp3Starts bytes start stop ↔ ∀ first bitrate, mp3First bytes = some (first, bitrate) →
        Mp3Ahead bytes (first + start * (bitrate / 8 : Nat))) :=
  ⟨aacStarts_iff, mp3Starts_iff⟩

def shortAac : List UInt8 := (List.replicate 8 [0xFF, 0xF1, 0x70, 0x00, 0x01, 0x00, 0, 0]).flatten

def shortMp3 : List UInt8 := (List.replicate 2 ([0xFF, 0xF3, 0x14, 0xC0] ++ List.replicate 20 0)).flatten

theorem getFileSegment_shortAac : Aac.getFileSegment AacTime.playTime ⟨shortAac, 0⟩ 10 5 = some ⟨true, 640, 320, 640⟩ := by
  decide +kernel

theorem getFileSegment_shortMp3 : Mp3.getFileSegment ⟨shortMp3, 0⟩ 10 5 = ⟨true, 0, 5000, 10000⟩ := by
  decide +kernel

/-- Ten seconds are behind both files, and the previews start there, and at the start of the file. -/
theorem not_startsOnFrame : (¬ ∀ (bytes : List UInt8) (start stop : Nat), AacStarts AacTime.playTime bytes start stop) ∧
    ¬ ∀ (bytes : List UInt8) (start stop : Nat), Mp3Starts bytes start stop := by
  constructor
  · intro h
    obtain ⟨p, hp, ⟨hwhole, -⟩, -⟩ := h shortAac 10 5 _ 64 getFileSegment_shortAac rfl (by decide +kernel)
    obtain rfl : 640 = p := Int.ofNat.inj hp
    have hbehind : 640 + 7 ≤ shortAac.length := AacTime.whole_iff.mp hwhole
    exact absurd hbehind (by decide)
  · intro h
    obtain ⟨p, hp, -, hle⟩ := h shortMp3 10 5 0 8000 (by rw [Nat.cast_ofNat, Nat.cast_ofNat, getFileSegment_shortMp3])
      (by decide +kernel)
    rw [Nat.cast_ofNat, Nat.cast_ofNat, getFileSegment_shortMp3] at hp
    obtain rfl : 0 = p := Int.ofNat.inj hp
    exact absurd hle (by decide)

end Previews

end RadioServices.Musicgo.FrameStart

import RadioServices.Lib.Loop
import RadioServices.Lib.SinglePrecision
import RadioServices.Musicgo.Segment

namespace RadioServices.Musicgo.AacTime

open Lib Lib.C Lib.Loop Lib.SinglePrecision Aac

/-- The play time in whole seconds, computed as a `float`. It is 0 at a frequency of 0 too, where the conversion of the
code is undefined. -/
def playTime (frames frequency : Nat) : Int :=
  let time := float (float (i32 (1024 * frames)) / frequency)
  if time < 0 then ⌈time⌉ else ⌊time⌋

section PlayTime

variable {frames frequency : Nat}

theorem one_le_playTime_iff_float :
    1 ≤ playTime frames frequency ↔ 1 ≤ float (float (i32 (1024 * frames)) / frequency) := by
  rw [playTime]
  split
  · rename_i hneg
    have hceil : ⌈float (float (i32 (1024 * frames)) / frequency)⌉ ≤ 0 := Int.ceil_le.mpr (by exact_mod_cast hneg.le)
    exact iff_of_false (by omega) (by linarith)
  · rw [Int.le_floor, Int.cast_one]

theorem float_lt_one {x : ℚ} (h : x ≤ 1 - 1 / 2 ^ 17) : float x < 1 := by
  have hround := (abs_le.mp (abs_float_sub_le x)).2
  rcases le_or_gt 0 x with hnonneg | hneg
  · rw [abs_of_nonneg hnonneg] at hround
    linarith
  · rw [abs_of_neg hneg] at hround
    linarith

theorem le_float_of_le {f : Nat} {a : Int} (hf : f < 2 ^ 17) (h : (f : Int) ≤ a) : (f : ℚ) ≤ float a := by
  obtain ⟨n, rfl⟩ := Int.eq_ofNat_of_zero_le ((Int.natCast_nonneg f).trans h)
  rw [Int.cast_natCast]
  by_cases hn : n < 2 ^ 24
  · rw [float_natCast hn]
    exact_mod_cast h
  · have hlarge : (2 : ℚ) ^ 24 ≤ n := by exact_mod_cast Nat.le_of_not_lt hn
    have hsmall : (f : ℚ) < 2 ^ 17 := by exact_mod_cast hf
    have hround := le_float (Nat.cast_nonneg n : (0 : ℚ) ≤ n)
    linarith

theorem float_le_of_lt {f : Nat} {a : Int} (hpos : 0 < f) (hlt : f < 2 ^ 17) (h : a < f) : float a ≤ f - 1 := by
  rcases le_or_gt 0 a with hnonneg | hneg
  · obtain ⟨n, rfl⟩ := Int.eq_ofNat_of_zero_le hnonneg
    rw [Int.cast_natCast, float_natCast (by omega), le_sub_iff_add_le]
    exact_mod_cast h
  · have hround := (abs_le.mp (abs_float_sub_le (a : ℚ))).2
    have ha : (a : ℚ) ≤ -1 := by exact_mod_cast Int.le_sub_one_of_lt hneg
    rw [abs_of_neg (by linarith)] at hround
    have hf : (1 : ℚ) ≤ f := by exact_mod_cast hpos
    linarith

/-- A second is played if and only if there are as many samples as the frequency says. -/
theorem one_le_playTime_iff (hpos : 0 < frequency) (hlt : frequency < 2 ^ 17) :
    1 ≤ playTime frames frequency ↔ (frequency : Int) ≤ i32 (1024 * frames) := by
  have hfrequency : (0 : ℚ) < frequency := by exact_mod_cast hpos
  rw [one_le_playTime_iff_float]
  constructor
  · intro hone
    by_contra hless
    have hsamples := float_le_of_lt hpos hlt (not_le.mp hless)
    have hratio : float (i32 (1024 * frames)) / frequency ≤ 1 - 1 / 2 ^ 17 := by
      have hsmall : (frequency : ℚ) ≤ 2 ^ 17 := by exact_mod_cast hlt.le
      rw [div_le_iff₀ hfrequency]
      linarith
    exact absurd hone (not_le.mpr (float_lt_one hratio))
  · intro hle
    exact one_le_float ((one_le_div hfrequency).mpr (le_float_of_le hlt hle))

end PlayTime

section Walk

/-- The seven bytes from a position on, or what the file has of them. -/
def headerAt (bytes : List UInt8) (p : Nat) : List UInt8 := (bytes.drop p).take 7

def Whole (bytes : List UInt8) (p : Nat) : Prop := (headerAt bytes p).length = 7

instance (bytes : List UInt8) (p : Nat) : Decidable (Whole bytes p) :=
  inferInstanceAs (Decidable ((headerAt bytes p).length = 7))

/-- A whole header stands at the position, and the check accepts it. -/
def Accepted (bytes : List UInt8) (p : Nat) : Prop :=
  Whole bytes p ∧ (isValidFrameHeader (headerAt bytes p)).1 = true

instance (bytes : List UInt8) (p : Nat) : Decidable (Accepted bytes p) :=
  inferInstanceAs (Decidable (Whole bytes p ∧ (isValidFrameHeader (headerAt bytes p)).1 = true))

def lengthAt (bytes : List UInt8) (p : Nat) : Nat := (isValidFrameHeader (headerAt bytes p)).2.1

def frequencyAt (bytes : List UInt8) (p : Nat) : Nat := (isValidFrameHeader (headerAt bytes p)).2.2

structure Passed where
  bytes : Nat
  frames : Nat
  deriving DecidableEq

variable (bytes : List UInt8) (start : Nat)

/-- The loop goes on behind an accepted frame, as long as the frames are not as long as the file. -/
def next (s : Passed) : Option Passed :=
  if Accepted bytes (start + s.bytes) ∧
      i32 (s.bytes + lengthAt bytes (start + s.bytes) : Nat) < i32 bytes.length then
    some ⟨s.bytes + lengthAt bytes (start + s.bytes), s.frames + 1⟩
  else none

def counted (s : Passed) : Nat :=
  if (isValidFrameHeader (headerAt bytes (start + s.bytes))).1 = true then s.frames + 1 else s.frames

def ending (s : Passed) : Frames :=
  if Whole bytes (start + s.bytes) then .counted (counted bytes start s) (frequencyAt bytes (start + s.bytes))
  else .short

section Steps

variable {bytes start} {s : Passed}

theorem read_header (p : Nat) : Descriptor.read ⟨bytes, p⟩ 7 = (headerAt bytes p, ⟨bytes, p + (headerAt bytes p).length⟩) :=
  rfl

theorem seekCur_frame (p length : Nat) :
    Descriptor.seekCur ⟨bytes, p + 7⟩ ((length : Int) - 7) = ⟨bytes, p + length⟩ := by
  have hnot : ¬ ((p + 7 : Nat) : Int) + ((length : Int) - 7) < 0 := by omega
  have hpos : (((p + 7 : Nat) : Int) + ((length : Int) - 7)).toNat = p + length := by omega
  rw [Descriptor.seekCur, Descriptor.seek, if_neg hnot, hpos]

theorem next_of_not_accepted (h : ¬ Accepted bytes (start + s.bytes)) : next bytes start s = none :=
  if_neg fun hnext => h hnext.1

variable (fileSize passed : Int) (fuel p frames : Nat)

theorem frameLoop_of_not_whole (h : ¬ Whole bytes p) :
    (frameLoop fileSize (fuel + 1) ⟨bytes, p⟩ frames passed).map Prod.fst = some .short := by
  have hle : (headerAt bytes p).length ≤ 7 := List.length_take_le _ _
  have hlt : (Descriptor.read ⟨bytes, p⟩ 7).1.length < 7 := Nat.lt_of_le_of_ne hle h
  rw [frameLoop]
  dsimp only
  rw [if_pos hlt]
  rfl

theorem frameLoop_of_whole (h : Whole bytes p) :
    frameLoop fileSize (fuel + 1) ⟨bytes, p⟩ frames passed =
      if (isValidFrameHeader (headerAt bytes p)).1 = true then
        if i32 (passed + lengthAt bytes p) < fileSize then
          frameLoop fileSize fuel ⟨bytes, p + lengthAt bytes p⟩ (frames + 1) (i32 (passed + lengthAt bytes p))
        else some (.counted (frames + 1) (frequencyAt bytes p), ⟨bytes, p + 7⟩)
      else some (.counted frames (frequencyAt bytes p), ⟨bytes, p + 7⟩) := by
  have hlength : (headerAt bytes p).length = 7 := h
  rw [← seekCur_frame]
  simp only [frameLoop, read_header, hlength, Nat.lt_irrefl, if_false]
  rfl

/-- The loop of the code is the one of `next`, and leaves what `ending` says. -/
theorem frameLoop_eq (s : Passed) :
    (frameLoop (i32 bytes.length) fuel ⟨bytes, start + s.bytes⟩ s.frames (i32 s.bytes)).map Prod.fst =
      (result (next bytes start) fuel s).map (ending bytes start) := by
  induction fuel generalizing s with
  | zero => rfl
  | succ fuel ih =>
      rw [result]
      by_cases hwhole : Whole bytes (start + s.bytes)
      · rw [frameLoop_of_whole _ _ _ _ _ hwhole]
        by_cases hvalid : (isValidFrameHeader (headerAt bytes (start + s.bytes))).1 = true
        · rw [if_pos hvalid, i32_add, ← Int.natCast_add]
          by_cases hmore : i32 (s.bytes + lengthAt bytes (start + s.bytes) : Nat) < i32 bytes.length
          · have hnext : next bytes start s = some ⟨s.bytes + lengthAt bytes (start + s.bytes), s.frames + 1⟩ :=
              if_pos ⟨⟨hwhole, hvalid⟩, hmore⟩
            rw [if_pos hmore, hnext, Nat.add_assoc]
            exact ih ⟨_, _⟩
          · have hnext : next bytes start s = none := if_neg fun h => hmore h.2
            rw [if_neg hmore, hnext, Option.map_some, Option.map_some, ending, if_pos hwhole, counted, if_pos hvalid]
        · rw [if_neg hvalid, next_of_not_accepted fun h => hvalid h.2, Option.map_some, Option.map_some, ending,
            if_pos hwhole, counted, if_neg hvalid]
      · rw [frameLoop_of_not_whole _ _ _ _ _ hwhole, next_of_not_accepted fun h => hwhole h.1, Option.map_some,
          ending, if_neg hwhole]

end Steps

/-- No accepted header on the way, from which the loop goes on, says that its frame is empty. -/
def NoEmptyFrame : Prop :=
  ∀ s, Reached (next bytes start) ⟨0, 0⟩ s → Accepted bytes (start + s.bytes) → i32 s.bytes < i32 bytes.length →
    lengthAt bytes (start + s.bytes) ≠ 0

/-- Where the loop ends with frames, the last header has a frequency, and the frames play a second. -/
def PlaysASecond : Prop :=
  ∀ s, Reached (next bytes start) ⟨0, 0⟩ s → next bytes start s = none → Whole bytes (start + s.bytes) →
    counted bytes start s ≠ 0 → frequencyAt bytes (start + s.bytes) ≠ 0 ∧
      (frequencyAt bytes (start + s.bytes) : Int) ≤ i32 (1024 * counted bytes start s)

variable {bytes start}

theorem whole_iff {p : Nat} : Whole bytes p ↔ p + 7 ≤ bytes.length := by
  rw [Whole, headerAt, List.length_take, List.length_drop]
  omega

theorem ends_of_noEmptyFrame (hno : NoEmptyFrame bytes start) {n : Nat} (hn : bytes.length < n) :
    Ends (next bytes start) n ⟨0, 0⟩ := by
  refine ends_of_measure (fun s => bytes.length - s.bytes) (fun s t hs ht => ?_) (Nat.lt_of_le_of_lt (Nat.sub_le _ _) hn)
  rw [next] at ht
  split at ht
  · rename_i hcond
    obtain ⟨haccepted, hmore⟩ := hcond
    cases ht
    have hne : lengthAt bytes (start + s.bytes) ≠ 0 := fun hzero => by
      rw [hzero, Nat.add_zero] at hmore
      exact hno s hs haccepted hmore hzero
    have hwhole := whole_iff.mp haccepted.1
    dsimp only
    omega
  · cases ht

theorem ends_iff_noEmptyFrame : (∃ n, Ends (next bytes start) n ⟨0, 0⟩) ↔ NoEmptyFrame bytes start := by
  constructor
  · rintro ⟨n, hends⟩ s hs haccepted hlt hzero
    obtain ⟨k, hk⟩ := hends.of_reached hs
    refine not_ends_of_kept (fun t => t.bytes = s.bytes) (fun t ht => ?_) rfl k hk
    refine ⟨⟨t.bytes, t.frames + 1⟩, ?_, ht⟩
    rw [next, ht, hzero, Nat.add_zero, if_pos ⟨haccepted, hlt⟩]
  · intro hno
    exact ⟨_, ends_of_noEmptyFrame hno (Nat.lt_succ_self _)⟩

theorem sftable_bounds (i : Nat) (h : sftable.getD i 0 ≠ 0) : 7350 ≤ sftable.getD i 0 ∧ sftable.getD i 0 ≤ 96000 := by
  have hall : ∀ f ∈ sftable, f ≠ 0 → 7350 ≤ f ∧ f ≤ 96000 := by decide
  rw [List.getD_eq_getElem?_getD] at h ⊢
  cases hfind : sftable[i]? with
  | none =>
      rw [hfind] at h
      exact absurd rfl h
  | some f =>
      rw [hfind] at h
      exact hall f (List.mem_of_getElem? hfind) h

theorem isValidFrameHeader_cases (header : List UInt8) : isValidFrameHeader header = (false, 0, 0) ∨
    ∃ length i, sftable.getD i 0 ≠ 0 ∧ isValidFrameHeader header = (decide (length ≤ 5000), length, sftable.getD i 0) := by
  rw [isValidFrameHeader]
  split
  · exact .inl rfl
  split
  · exact .inl rfl
  dsimp only
  split
  · exact .inl rfl
  · rename_i hne
    exact .inr ⟨_, _, hne, rfl⟩

theorem frequencyAt_lt (bytes : List UInt8) (p : Nat) : frequencyAt bytes p < 2 ^ 17 := by
  rw [frequencyAt]
  rcases isValidFrameHeader_cases (headerAt bytes p) with hnone | ⟨length, i, hne, hheader⟩
  · rw [hnone]
    exact Nat.two_pow_pos 17
  · have hbounds := sftable_bounds i hne
    rw [hheader]
    dsimp only
    omega

end Walk

section Finishes

/-- What the loop leaves of the file in which the search for the first frame begins, if it is over by then. -/
def framesOf (fd : Descriptor) (passes : Nat) : Option Frames :=
  let (startPos, fd) := getStartPos fd
  (frameLoop fd.fileSize passes (fd.seek startPos) 0 0).map Prod.fst

/-- `get_file_segment` returns: its loop ends, what it divides by is not zero, and the play time it divides by is a
second at least. -/
structure Finishes (fd : Descriptor) (start stop : Int) : Prop where
  ends : ∃ passes, framesOf fd passes ≠ none
  divisors : ∀ passes frames frequency, framesOf fd passes = some (.counted frames frequency) → frames ≠ 0 →
    frequency ≠ 0 ∧ 1 ≤ playTime frames frequency
  returns : ∃ seg, Aac.getFileSegment playTime fd start stop = some seg

variable {fd : Descriptor}

theorem framesOf_eq (fd : Descriptor) (passes : Nat) :
    framesOf fd passes = (result (next fd.bytes (getStartPos fd).1) passes ⟨0, 0⟩).map
      (ending fd.bytes (getStartPos fd).1) := by
  have hseek : (getStartPos fd).2.seek ((getStartPos fd).1 : Int) = ⟨fd.bytes, (getStartPos fd).1⟩ := by
    rw [Descriptor.seek, if_neg (by omega), Int.toNat_natCast]
    rfl
  have hloop := @frameLoop_eq fd.bytes (getStartPos fd).1 passes ⟨0, 0⟩
  rw [← hloop, framesOf]
  dsimp only
  rw [hseek]
  rfl

theorem framesOf_eq_some_iff {frames : Frames} : (∃ passes, framesOf fd passes = some frames) ↔
    ∃ s, Reached (next fd.bytes (getStartPos fd).1) ⟨0, 0⟩ s ∧ next fd.bytes (getStartPos fd).1 s = none ∧
      ending fd.bytes (getStartPos fd).1 s = frames := by
  simp only [framesOf_eq, Option.map_eq_some_iff]
  constructor
  · rintro ⟨passes, s, hs, hframes⟩
    obtain ⟨hreach, hover⟩ := reached_of_result hs
    exact ⟨s, hreach, hover, hframes⟩
  · rintro ⟨s, hreach, hover, hframes⟩
    obtain ⟨passes, hs⟩ := result_of_reached hreach hover
    exact ⟨passes, s, hs, hframes⟩

theorem exists_framesOf_iff : (∃ passes, framesOf fd passes ≠ none) ↔
    NoEmptyFrame fd.bytes (getStartPos fd).1 := by
  rw [← ends_iff_noEmptyFrame]
  refine exists_congr fun passes => ?_
  rw [framesOf_eq, ← result_isSome_iff, Ne, Option.map_eq_none_iff, ← Ne, Option.ne_none_iff_exists']

theorem ending_eq_counted_iff {bytes : List UInt8} {start frames frequency : Nat} {s : Passed} :
    ending bytes start s = .counted frames frequency ↔ Whole bytes (start + s.bytes) ∧
      counted bytes start s = frames ∧ frequencyAt bytes (start + s.bytes) = frequency := by
  rw [ending]
  split
  · rename_i hwhole
    rw [Frames.counted.injEq]
    exact (and_iff_right hwhole).symm
  · rename_i hshort
    exact iff_of_false (fun h => nomatch h) fun h => hshort h.1

/-- The numbers that are divided by are right if and only if the frames play a second. -/
theorem divisors_iff : (∀ passes frames frequency, framesOf fd passes = some (.counted frames frequency) → frames ≠ 0 →
    frequency ≠ 0 ∧ 1 ≤ playTime frames frequency) ↔ PlaysASecond fd.bytes (getStartPos fd).1 := by
  constructor
  · intro h s hs hover hwhole hframes
    obtain ⟨passes, hpasses⟩ := framesOf_eq_some_iff.mpr ⟨s, hs, hover, ending_eq_counted_iff.mpr ⟨hwhole, rfl, rfl⟩⟩
    obtain ⟨hfrequency, htime⟩ := h passes _ _ hpasses hframes
    exact ⟨hfrequency, (one_le_playTime_iff (Nat.pos_of_ne_zero hfrequency) (frequencyAt_lt _ _)).mp htime⟩
  · intro h passes frames frequency hpasses hframes
    obtain ⟨s, hs, hover, hending⟩ := framesOf_eq_some_iff.mp ⟨passes, hpasses⟩
    obtain ⟨hwhole, rfl, rfl⟩ := ending_eq_counted_iff.mp hending
    obtain ⟨hfrequency, hsamples⟩ := h s hs hover hwhole hframes
    exact ⟨hfrequency, (one_le_playTime_iff (Nat.pos_of_ne_zero hfrequency) (frequencyAt_lt _ _)).mpr hsamples⟩

theorem framesOf_ne_none (hno : NoEmptyFrame fd.bytes (getStartPos fd).1) :
    framesOf fd (fd.bytes.length + 1) ≠ none := by
  obtain ⟨passes, hpasses⟩ : ∃ passes, passes = fd.bytes.length + 1 := ⟨_, rfl⟩
  have hends : Ends (next fd.bytes (getStartPos fd).1) passes ⟨0, 0⟩ :=
    ends_of_noEmptyFrame hno (hpasses ▸ Nat.lt_succ_self _)
  obtain ⟨s, hs⟩ := (result_isSome_iff _).mpr hends
  rw [← hpasses, framesOf_eq, hs, Option.map_some]
  exact Option.some_ne_none _

theorem seekForFirstFrame_ne_none {startPos : Nat} {frames : Frames}
    (hloop : (frameLoop fd.fileSize (fd.bytes.length + 1) (fd.seek startPos) 0 0).map Prod.fst = some frames)
    (hdivisor : ∀ n frequency, frames = .counted n frequency → n ≠ 0 → playTime n frequency ≠ 0) :
    ∃ bitrate, seekForFirstFrame playTime fd startPos = some bitrate := by
  obtain ⟨⟨left, fd'⟩, hfd, hleft⟩ := Option.map_eq_some_iff.mp hloop
  obtain rfl : left = frames := hleft
  rw [seekForFirstFrame, hfd]
  cases left with
  | short => exact ⟨_, rfl⟩
  | counted n frequency =>
      by_cases hzero : n = 0
      · exact ⟨_, if_pos hzero⟩
      · exact ⟨_, (if_neg hzero).trans (if_neg (hdivisor n frequency rfl hzero))⟩

theorem getFileSegment_isSome {bitrate : Int × Descriptor} (start stop : Int)
    (h : seekForFirstFrame playTime (getStartPos fd).2 (getStartPos fd).1 = some bitrate) :
    ∃ seg, Aac.getFileSegment playTime fd start stop = some seg := by
  rw [Aac.getFileSegment]
  dsimp only
  rw [h]
  dsimp only [Option.bind_eq_bind, Option.bind_some]
  split <;> exact ⟨_, rfl⟩

/-- The preview of a file is computed if and only if no frame that is passed is empty, and the frames counted play a
second at the frequency of the last header. -/
theorem finishes_iff (fd : Descriptor) (start stop : Int) : Finishes fd start stop ↔
    NoEmptyFrame fd.bytes (getStartPos fd).1 ∧ PlaysASecond fd.bytes (getStartPos fd).1 := by
  constructor
  · rintro ⟨hends, hdivisors, -⟩
    exact ⟨exists_framesOf_iff.mp hends, divisors_iff.mp hdivisors⟩
  · rintro ⟨hno, hplays⟩
    have hdivisors := divisors_iff.mpr hplays
    refine ⟨exists_framesOf_iff.mpr hno, hdivisors, ?_⟩
    obtain ⟨frames, hframes⟩ := Option.ne_none_iff_exists'.mp (framesOf_ne_none hno)
    obtain ⟨bitrate, hbitrate⟩ := @seekForFirstFrame_ne_none (getStartPos fd).2 _ _ hframes
      fun n frequency hn hne => by
        subst hn
        have htime := (hdivisors _ _ _ hframes hne).2
        omega
    exact getFileSegment_isSome start stop hbitrate

/-- A file of ten bytes, whose header says that its frame is empty. -/
def emptyFrame : Descriptor := ⟨[0xFF, 0xF1, 0x50, 0x80, 0, 0, 0, 0, 0, 0], 0⟩

theorem not_finishes_emptyFrame : ¬ ∀ (fd : Descriptor) (start stop : Int), Finishes fd start stop := by
  intro h
  have hends := exists_framesOf_iff.mp (h emptyFrame 10 40).ends
  exact hends ⟨0, 0⟩ .start (by decide) (by decide) (by decide)

end Finishes

end RadioServices.Musicgo.AacTime

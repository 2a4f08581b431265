import RadioServices.Musicgo.FrameStart

namespace RadioServices.Musicgo.AacBitrate

open Lib Lib.C Lib.Loop Aac AacTime FrameStart

/-- The play time in whole seconds, as an exact quotient of two `int`s. -/
def exactTime (frames frequency : Nat) : Int := (i32 (1024 * frames)).tdiv frequency

structure Frame (frequency : Nat) where
  bytes : List UInt8
  eight_le : 8 ≤ bytes.length
  header : isValidFrameHeader bytes = (true, bytes.length, frequency)

def content {frequency : Nat} (frames : List (Frame frequency)) : List UInt8 := frames.flatMap Frame.bytes

/-- Frames that play a second at least, behind bytes at which no header is accepted. -/
structure File where
  front : List UInt8
  frequency : Nat
  frames : List (Frame frequency)
  ne_nil : frames ≠ []
  front_lt : front.length < 40000
  silent : ∀ p < front.length, (isValidFrameHeader ((front ++ content frames).drop p)).1 = false
  second : frequency ≤ 1024 * frames.length

namespace File

def bytes (f : File) : List UInt8 := f.front ++ content f.frames

def offset (f : File) (k : Nat) : Nat := (content (f.frames.take k)).length

def bitrate (f : File) : Nat := f.bytes.length / (1024 * f.frames.length / f.frequency)

end File

section Frames

variable {frequency : Nat}

theorem content_cons (frame : Frame frequency) (frames : List (Frame frequency)) :
    content (frame :: frames) = frame.bytes ++ content frames := List.flatMap_cons

theorem content_append (front back : List (Frame frequency)) : content (front ++ back) = content front ++ content back :=
  List.flatMap_append

theorem length_content (frames : List (Frame frequency)) : 8 * frames.length ≤ (content frames).length := by
  induction frames with
  | nil => exact Nat.le_refl 0
  | cons frame frames ih =>
      have hlong := frame.eight_le
      rw [content_cons, List.length_append, List.length_cons]
      omega

theorem take_header (frame : Frame frequency) (rest : List UInt8) :
    ((frame.bytes ++ rest).take 7).length = 7 ∧
      isValidFrameHeader ((frame.bytes ++ rest).take 7) = (true, frame.bytes.length, frequency) := by
  have hlong := frame.eight_le
  rw [List.take_append_of_le_length (by omega)]
  constructor
  · rw [List.length_take]
    omega
  · rw [isValidFrameHeader_take, frame.header]

theorem frequency_bound (frame : Frame frequency) : 7350 ≤ frequency := by
  have hheader := frame.header
  rcases isValidFrameHeader_cases frame.bytes with hnone | ⟨length, i, hne, hfrequency⟩
  · rw [hnone] at hheader
    cases hheader
  · rw [hfrequency] at hheader
    have hsame : sftable.getD i 0 = frequency := congrArg (fun result => result.2.2) hheader
    rw [← hsame]
    exact (sftable_bounds i hne).1

end Frames

section Positions

variable (f : File) {k : Nat}

theorem eight_le_frames : 8 ≤ f.frames.length := by
  obtain ⟨frame, -⟩ := List.exists_mem_of_ne_nil _ f.ne_nil
  have hfrequency := frequency_bound frame
  have hsecond := f.second
  omega

theorem length_bytes : f.bytes.length = f.front.length + f.offset f.frames.length := by
  rw [File.bytes, List.length_append, File.offset, List.take_length]

theorem bytes_drop (k : Nat) : f.bytes.drop (f.front.length + f.offset k) = content (f.frames.drop k) := by
  have hcontent : f.bytes = f.front ++ content (f.frames.take k) ++ content (f.frames.drop k) := by
    rw [List.append_assoc, ← content_append, List.take_append_drop]
    rfl
  rw [hcontent]
  exact List.drop_left' List.length_append

theorem offset_succ (hk : k < f.frames.length) : f.offset (k + 1) = f.offset k + (f.frames[k]).bytes.length := by
  rw [File.offset, File.offset, List.take_succ_eq_append_getElem hk, content_append, List.length_append]
  rw [content_cons, List.length_append]
  rfl

theorem headerAt_frame (hk : k < f.frames.length) : (headerAt f.bytes (f.front.length + f.offset k)).length = 7 ∧
    isValidFrameHeader (headerAt f.bytes (f.front.length + f.offset k)) =
      (true, (f.frames[k]).bytes.length, f.frequency) := by
  rw [headerAt, bytes_drop, List.drop_eq_getElem_cons hk, content_cons]
  exact take_header _ _

theorem accepted_frame (hk : k < f.frames.length) : Accepted f.bytes (f.front.length + f.offset k) := by
  obtain ⟨hwhole, hvalid⟩ := headerAt_frame f hk
  exact ⟨hwhole, congrArg Prod.fst hvalid⟩

theorem lengthAt_frame (hk : k < f.frames.length) :
    lengthAt f.bytes (f.front.length + f.offset k) = (f.frames[k]).bytes.length :=
  congrArg (fun result => result.2.1) (headerAt_frame f hk).2

theorem frequencyAt_frame (hk : k < f.frames.length) : frequencyAt f.bytes (f.front.length + f.offset k) = f.frequency :=
  congrArg (fun result => result.2.2) (headerAt_frame f hk).2

theorem not_whole_end : ¬ Whole f.bytes (f.front.length + f.offset f.frames.length) := by
  rw [whole_iff, ← length_bytes]
  omega

theorem aacFirst_file : aacFirst f.bytes = f.front.length := by
  have height := eight_le_frames f
  have hroom := length_content f.frames
  have hlength : f.bytes.length = f.front.length + (content f.frames).length := List.length_append
  have hshort := f.front_lt
  have hfirst : Findable f.bytes 0 f.front.length := by
    refine ⟨by omega, by omega, ?_⟩
    rw [Nat.zero_add]
    exact accepted_frame f (k := 0) (by omega)
  rcases getStartPos_cases f.bytes 0 with ⟨⟨-, -, -, hvalid⟩, hleast⟩ | ⟨-, hnone⟩
  · refine Nat.le_antisymm (hleast _ hfirst) (not_lt.mp fun hlt => ?_)
    have hsilent := f.silent _ hlt
    rw [Nat.zero_add, headerAt, isValidFrameHeader_take] at hvalid
    exact absurd (hvalid.symm.trans hsilent) (by decide)
  · exact absurd hfirst (hnone _)

end Positions

section Rates

variable {time : Nat → Nat → Int} {bytes : List UInt8}

/-- The bit rate of a file of that size, of which the loop leaves that. -/
def rate (time : Nat → Nat → Int) (size : Int) : Frames → Option Int
  | .short => some 0
  | .counted frames frequency =>
      if frames = 0 then some 0
      else if time frames frequency = 0 then none
      else some (size.tdiv (time frames frequency))

theorem seekForFirstFrame_rate (fd : Descriptor) (startPos : Nat) :
    (Aac.seekForFirstFrame time fd startPos).map Prod.fst =
      ((frameLoop fd.fileSize (fd.bytes.length + 1) (fd.seek startPos) 0 0).map Prod.fst).bind (rate time fd.fileSize) := by
  rw [Aac.seekForFirstFrame]
  cases hloop : frameLoop fd.fileSize (fd.bytes.length + 1) (fd.seek startPos) 0 0 with
  | none => rfl
  | some left =>
      obtain ⟨frames, fd'⟩ := left
      have hbytes := bytes_frameLoop hloop
      rw [bytes_seek] at hbytes
      have hsize : fd'.fileSize = fd.fileSize := congrArg (fun bytes : List UInt8 => i32 bytes.length) hbytes
      rw [Option.bind_eq_bind, Option.bind_some, Option.map_some, Option.bind_some]
      cases frames with
      | short => rfl
      | counted frames frequency =>
          dsimp only [rate]
          rw [hsize]
          by_cases hframes : frames = 0
          · rw [if_pos hframes, if_pos hframes, Option.pure_def, Option.map_some]
          rw [if_neg hframes, if_neg hframes]
          by_cases htime : time frames frequency = 0
          · rw [if_pos htime, if_pos htime, Option.map_none]
          · rw [if_neg htime, if_neg htime, Option.pure_def, Option.map_some]

theorem aacBitrate_eq (time : Nat → Nat → Int) (bytes : List UInt8) : aacBitrate time bytes =
    (framesOf ⟨bytes, 0⟩ (bytes.length + 1)).bind (rate time (i32 bytes.length)) := by
  rw [aacBitrate, seekForFirstFrame_rate]
  rfl

theorem getFileSegment_stop_iff {start stop x : Int} :
    (∃ seg, Aac.getFileSegment time ⟨bytes, 0⟩ start stop = some seg ∧ seg.found = true ∧ seg.stop = x) ↔
      ∃ bitrate, aacBitrate time bytes = some bitrate ∧ bitrate ≠ 0 ∧ i32 (stop * bitrate) = x := by
  constructor
  · rintro ⟨seg, hseg, hfound, hstop⟩
    obtain ⟨bitrate, hbitrate, hne⟩ := aacBitrate_of_found hseg hfound
    obtain ⟨seg', hseg', -, -, hstop'⟩ := aac_getFileSegment start stop hbitrate hne
    obtain rfl := Option.some.inj (hseg.symm.trans hseg')
    exact ⟨bitrate, hbitrate, hne, hstop'.symm.trans hstop⟩
  · rintro ⟨bitrate, hbitrate, hne, hstop⟩
    obtain ⟨seg, hseg, hfound, -, hstop'⟩ := aac_getFileSegment start stop hbitrate hne
    exact ⟨seg, hseg, hfound, hstop'.trans hstop⟩

end Rates

section Walk

variable (f : File) {k : Nat}

/-- The first frame with which the frames are as long as the file, both taken as an `int`. -/
def IsLast (f : File) (k : Nat) : Prop :=
  k < f.frames.length ∧ i32 f.bytes.length ≤ i32 (f.offset (k + 1)) ∧ ∀ j < k, i32 (f.offset (j + 1)) < i32 f.bytes.length

theorem next_frame (hk : k < f.frames.length) : next f.bytes f.front.length ⟨f.offset k, k⟩ =
    if i32 (f.offset (k + 1)) < i32 f.bytes.length then some ⟨f.offset (k + 1), k + 1⟩ else none := by
  rw [next]
  dsimp only
  rw [lengthAt_frame f hk, ← offset_succ f hk]
  split
  · rename_i hmore
    rw [if_pos hmore.2]
  · rename_i hover
    rw [if_neg fun hmore => hover ⟨accepted_frame f hk, hmore⟩]

theorem next_end : next f.bytes f.front.length ⟨f.offset f.frames.length, f.frames.length⟩ = none :=
  next_of_not_accepted fun h => not_whole_end f h.1

theorem at_frame {s : Passed} (h : Reached (next f.bytes f.front.length) ⟨0, 0⟩ s) :
    ∃ k ≤ f.frames.length, s = ⟨f.offset k, k⟩ := by
  refine h.invariant (fun s => ∃ k ≤ f.frames.length, s = ⟨f.offset k, k⟩) ?_ ⟨0, Nat.zero_le _, rfl⟩
  rintro t u ⟨k, hk, rfl⟩ hu
  rcases Nat.lt_or_eq_of_le hk with hlt | rfl
  · rw [next_frame f hlt] at hu
    split at hu
    · exact ⟨k + 1, hlt, (Option.some.inj hu).symm⟩
    · cases hu
  · rw [next_end] at hu
    cases hu

theorem noEmptyFrame_file : NoEmptyFrame f.bytes f.front.length := by
  intro s hs haccepted _
  obtain ⟨k, hk, rfl⟩ := at_frame f hs
  rcases Nat.lt_or_eq_of_le hk with hlt | rfl
  · have hlong := (f.frames[k]).eight_le
    rw [lengthAt_frame f hlt]
    omega
  · exact absurd haccepted.1 (not_whole_end f)

theorem reached_frame (hmore : ∀ j < k, j < f.frames.length ∧ i32 (f.offset (j + 1)) < i32 f.bytes.length) :
    Reached (next f.bytes f.front.length) ⟨0, 0⟩ ⟨f.offset k, k⟩ := by
  apply @reached_of_passes _ _ fun k => (⟨f.offset k, k⟩ : Passed)
  intro j hj
  obtain ⟨hlt, hnext⟩ := hmore j hj
  rw [next_frame f hlt, if_pos hnext]

theorem framesOf_file {s : Passed} (h : Reached (next f.bytes f.front.length) ⟨0, 0⟩ s)
    (hover : next f.bytes f.front.length s = none) :
    framesOf ⟨f.bytes, 0⟩ (f.bytes.length + 1) = some (ending f.bytes f.front.length s) := by
  have hfirst : (getStartPos ⟨f.bytes, 0⟩).1 = f.front.length := aacFirst_file f
  obtain ⟨passes, hpasses⟩ : ∃ passes, passes = f.bytes.length + 1 := ⟨_, rfl⟩
  have hends : Ends (next f.bytes f.front.length) passes ⟨0, 0⟩ :=
    ends_of_noEmptyFrame (noEmptyFrame_file f) (hpasses ▸ Nat.lt_succ_self _)
  rw [← hpasses, framesOf_eq, hfirst, result_of_ends hends h hover, Option.map_some]

theorem framesOf_last (h : IsLast f k) :
    framesOf ⟨f.bytes, 0⟩ (f.bytes.length + 1) = some (.counted (k + 1) f.frequency) := by
  obtain ⟨hk, hlast, hbefore⟩ := h
  have hreached := reached_frame f fun j hj => ⟨hj.trans hk, hbefore j hj⟩
  have hover : next f.bytes f.front.length ⟨f.offset k, k⟩ = none := by
    rw [next_frame f hk, if_neg (not_lt.mpr hlast)]
  rw [framesOf_file f hreached hover]
  apply congrArg some
  apply ending_eq_counted_iff.mpr
  refine ⟨(headerAt_frame f hk).1, ?_, frequencyAt_frame f hk⟩
  rw [counted, if_pos (accepted_frame f hk).2]

theorem framesOf_short (h : ∀ k, ¬ IsLast f k) :
    framesOf ⟨f.bytes, 0⟩ (f.bytes.length + 1) = some .short := by
  have hmore : ∀ k < f.frames.length, k < f.frames.length ∧ i32 (f.offset (k + 1)) < i32 f.bytes.length := by
    intro k hk
    induction k using Nat.strongRecOn with
    | ind k ih => exact ⟨hk, not_le.mp fun hle => h k ⟨hk, hle, fun j hj => (ih j hj (hj.trans hk)).2⟩⟩
  rw [framesOf_file f (reached_frame f hmore) (next_end f), ending]
  exact congrArg some (if_neg (not_whole_end f))

theorem aacBitrate_iff {bitrate : Int} (hne : bitrate ≠ 0) : aacBitrate exactTime f.bytes = some bitrate ↔
    ∃ k, IsLast f k ∧ exactTime (k + 1) f.frequency ≠ 0 ∧
      (i32 f.bytes.length).tdiv (exactTime (k + 1) f.frequency) = bitrate := by
  rw [aacBitrate_eq]
  by_cases hlast : ∃ k, IsLast f k
  · obtain ⟨k, hk⟩ := hlast
    rw [framesOf_last f hk, Option.bind_some, rate, if_neg (Nat.succ_ne_zero k)]
    constructor
    · intro h
      split at h
      · cases h
      · rename_i htime
        exact ⟨k, hk, htime, Option.some.inj h⟩
    · rintro ⟨k', hk', htime, hbitrate⟩
      obtain rfl : k = k' := by
        have hcounted := (framesOf_last f hk).symm.trans (framesOf_last f hk')
        rw [Option.some.injEq, Frames.counted.injEq] at hcounted
        exact Nat.succ.inj hcounted.1
      rw [if_neg htime, hbitrate]
  · rw [framesOf_short f (not_exists.mp hlast)]
    constructor
    · intro h
      exact absurd (Option.some.inj h).symm hne
    · rintro ⟨k, hk, -⟩
      exact absurd ⟨k, hk⟩ hlast

end Walk

/-- The call finds a segment, and its end is the duration times the bit rate. -/
def SetsStop (f : File) (start duration : Int) : Prop :=
  ∃ seg, Aac.getFileSegment exactTime ⟨f.bytes, 0⟩ start duration = some seg ∧ seg.found = true ∧
    seg.stop = duration * f.bitrate

/-- The size of the file and the samples of its frames fit an `int`. -/
def Small (f : File) : Prop := f.bytes.length < 2 ^ 31 ∧ 1024 * f.frames.length < 2 ^ 31

def Fits (n : Int) : Prop := -2 ^ 31 ≤ n ∧ n < 2 ^ 31

/-- What is left of a size or of samples that do not fit an `int` makes the same product. -/
def Wraps (f : File) (duration : Int) : Prop :=
  ∃ k, IsLast f k ∧ exactTime (k + 1) f.frequency ≠ 0 ∧
    (i32 f.bytes.length).tdiv (exactTime (k + 1) f.frequency) ≠ 0 ∧
    i32 (duration * (i32 f.bytes.length).tdiv (exactTime (k + 1) f.frequency)) = duration * f.bitrate

section Small

variable {f : File} {start duration : Int}

theorem setsStop_iff_wraps : SetsStop f start duration ↔ Wraps f duration := by
  rw [SetsStop, getFileSegment_stop_iff]
  constructor
  · rintro ⟨bitrate, hbitrate, hne, hstop⟩
    obtain ⟨k, hk, htime, rfl⟩ := (aacBitrate_iff f hne).mp hbitrate
    exact ⟨k, hk, htime, hne, hstop⟩
  · rintro ⟨k, hk, htime, hne, hstop⟩
    exact ⟨_, (aacBitrate_iff f hne).mpr ⟨k, hk, htime, rfl⟩, hne, hstop⟩

theorem offset_add_le (f : File) {j k : Nat} (hjk : j ≤ k) (hk : k ≤ f.frames.length) :
    f.offset j + 8 * (k - j) ≤ f.offset k := by
  have hlong := length_content ((f.frames.take k).drop j)
  have hfront : (f.frames.take k).take j = f.frames.take j := by rw [List.take_take, Nat.min_eq_left hjk]
  have hsplit := congrArg content (List.take_append_drop j (f.frames.take k))
  rw [content_append, hfront] at hsplit
  have hlength := congrArg List.length hsplit
  rw [List.length_append] at hlength
  rw [List.length_drop, List.length_take, Nat.min_eq_left hk] at hlong
  rw [File.offset, File.offset]
  omega

/-- The walk comes to the last frame of the file, if nothing is in front of the frames, and else to none. -/
theorem isLast_iff (hsmall : f.bytes.length < 2 ^ 31) {k : Nat} :
    IsLast f k ↔ f.front = [] ∧ k + 1 = f.frames.length := by
  have hsize : i32 f.bytes.length = f.bytes.length := i32_of_bounds (by omega) (by omega)
  have hlength := length_bytes f
  have hoffset : ∀ j ≤ f.frames.length, i32 (f.offset j) = f.offset j := fun j hj => by
    have hgrows := offset_add_le f hj (Nat.le_refl _)
    exact i32_of_bounds (by omega) (by omega)
  rw [IsLast, hsize]
  constructor
  · rintro ⟨hk, hlast, -⟩
    have hgrows := @offset_add_le f (k + 1) f.frames.length hk (Nat.le_refl _)
    rw [hoffset (k + 1) hk] at hlast
    exact ⟨List.length_eq_zero_iff.mp (by omega), by omega⟩
  · rintro ⟨hfront, hk⟩
    have hnone : f.front.length = 0 := List.length_eq_zero_iff.mpr hfront
    refine ⟨by omega, ?_, fun j hj => ?_⟩
    · rw [hk, hoffset _ (Nat.le_refl _)]
      omega
    · rw [hoffset _ (by omega)]
      have hgrows := @offset_add_le f (j + 1) f.frames.length (by omega) (Nat.le_refl _)
      omega

theorem exactTime_frames (hsmall : 1024 * f.frames.length < 2 ^ 31) :
    exactTime f.frames.length f.frequency = (1024 * f.frames.length / f.frequency : Nat) := by
  rw [exactTime, i32_of_bounds (by omega) (by omega)]
  rfl

theorem one_le_time (f : File) : 1 ≤ 1024 * f.frames.length / f.frequency := by
  obtain ⟨frame, -⟩ := List.exists_mem_of_ne_nil _ f.ne_nil
  have hfrequency := frequency_bound frame
  exact Nat.div_pos f.second (by omega)

theorem one_le_bitrate (f : File) : 1 ≤ f.bitrate := by
  obtain ⟨frame, -⟩ := List.exists_mem_of_ne_nil _ f.ne_nil
  have hfrequency := frequency_bound frame
  have hroom := length_content f.frames
  have hlength : f.bytes.length = f.front.length + (content f.frames).length := List.length_append
  have htime : 1024 * f.frames.length / f.frequency ≤ f.frames.length :=
    Nat.div_le_of_le_mul (Nat.mul_le_mul_right _ (by omega))
  exact Nat.div_pos (by omega) (one_le_time f)

theorem wraps_iff_of_small (hsmall : Small f) : Wraps f duration ↔ f.front = [] ∧ Fits (duration * f.bitrate) := by
  obtain ⟨hsize, hsamples⟩ := hsmall
  have hbytes : i32 f.bytes.length = f.bytes.length := i32_of_bounds (by omega) (by omega)
  have htime := exactTime_frames hsamples
  have hbitrate : (i32 f.bytes.length).tdiv (exactTime f.frames.length f.frequency) = f.bitrate := by
    rw [hbytes, htime]
    rfl
  rw [Fits, ← i32_eq_self_iff]
  constructor
  · rintro ⟨k, hk, -, -, hstop⟩
    obtain ⟨hfront, hlast⟩ := (isLast_iff hsize).mp hk
    rw [hlast, hbitrate] at hstop
    exact ⟨hfront, hstop⟩
  · rintro ⟨hfront, hstop⟩
    have height := eight_le_frames f
    have hlast : f.frames.length - 1 + 1 = f.frames.length := by omega
    refine ⟨f.frames.length - 1, (isLast_iff hsize).mpr ⟨hfront, hlast⟩, ?_, ?_, ?_⟩
    · have hone := one_le_time f
      rw [hlast, htime]
      omega
    · have hone := one_le_bitrate f
      rw [hlast, hbitrate]
      omega
    · rw [hlast, hbitrate]
      exact hstop

/-- The bit rate is right if and only if nothing is in front of the frames and the numbers fit an `int`, or what is
left of them happens to make the same product. -/
theorem setsStop_iff (f : File) (start duration : Int) : SetsStop f start duration ↔
    Small f ∧ f.front = [] ∧ Fits (duration * f.bitrate) ∨ ¬ Small f ∧ Wraps f duration := by
  rw [setsStop_iff_wraps]
  by_cases hsmall : Small f
  · rw [wraps_iff_of_small hsmall]
    exact ⟨fun h => .inl ⟨hsmall, h⟩, fun h => h.elim And.right fun h => absurd hsmall h.1⟩
  · exact ⟨fun h => .inr ⟨hsmall, h⟩, fun h => h.elim (fun h => absurd h.1 hsmall) And.right⟩

end Small

section Behind

def shortFrame : Frame 7350 := ⟨[0xFF, 0xF1, 0x70, 0x00, 0x01, 0x00, 0, 0], by decide, rfl⟩

def oneByteFront : File where
  front := [0]
  frequency := 7350
  frames := List.replicate 8 shortFrame
  ne_nil := by decide
  front_lt := by decide
  silent := by decide
  second := by decide

/-- The walk comes to the end of the file, and reads no header there. -/
theorem not_setsStop : ¬ ∀ (f : File) (start duration : Int), SetsStop f start duration := by
  intro h
  obtain ⟨seg, hseg, hfound, -⟩ := h oneByteFront 0 10
  have hnone : Aac.getFileSegment exactTime ⟨oneByteFront.bytes, 0⟩ 0 10 = some ⟨false, 0, 10, 65⟩ := by decide +kernel
  rw [hnone] at hseg
  rw [← Option.some.inj hseg] at hfound
  cases hfound

end Behind

end RadioServices.Musicgo.AacBitrate

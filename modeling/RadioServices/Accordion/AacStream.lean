import RadioServices.Lib.Chunks
import RadioServices.Accordion.Aac

namespace RadioServices.Accordion.AacStream

open Lib Lib.C Lib.Chunks Lib.SinglePrecision Aac

/-- A complete frame: its header is valid and gives its length. -/
structure Frame where
  bytes : List UInt8
  sync : syncword bytes = 0x0FFF
  object : profile bytes ≠ 3
  frequency : sftable.getD (samplingFrequency bytes) 0 ≠ 0
  length : frameLength bytes = bytes.length
  long : 8 ≤ bytes.length
  short : bytes.length ≤ 5000

def concat (frames : List Frame) : List UInt8 := frames.flatMap Frame.bytes

theorem concat_cons (f : Frame) (frames : List Frame) : concat (f :: frames) = f.bytes ++ concat frames :=
  List.flatMap_cons

theorem length_concat (frames : List Frame) : 8 * frames.length ≤ (concat frames).length := by
  induction frames with
  | nil => simp
  | cons f frames ih =>
      have hlong := f.long
      rw [concat_cons, List.length_append, List.length_cons]
      omega

theorem concat_eq_nil {frames : List Frame} : concat frames = [] ↔ frames = [] := by
  constructor
  · intro h
    have hlength := length_concat frames
    rw [h, List.length_nil] at hlength
    exact List.length_eq_zero_iff.mp (by omega)
  · rintro rfl
    rfl

section Header

variable {header : List UInt8}

theorem syncword_take : syncword (header.take 7) = syncword header := by
  simp [syncword, byteAt_take]

theorem profile_take : profile (header.take 7) = profile header := by
  simp [profile, byteAt_take]

theorem samplingFrequency_take : samplingFrequency (header.take 7) = samplingFrequency header := by
  simp [samplingFrequency, byteAt_take]

theorem frameLength_take : frameLength (header.take 7) = frameLength header := by
  simp [frameLength, byteAt_take]

theorem isValidFrameHeader_frame (f : Frame) (sr : Int) :
    (isValidFrameHeader (f.bytes.take 7) sr).valid = true ∧
      (isValidFrameHeader (f.bytes.take 7) sr).length = f.bytes.length ∧
      (isValidFrameHeader (f.bytes.take 7) sr).samplingFrequency = samplingFrequency f.bytes := by
  have hshort : ¬ 5000 < frameLength f.bytes := by
    rw [f.length]
    exact Nat.not_lt.mpr f.short
  rw [isValidFrameHeader, syncword_take, profile_take, samplingFrequency_take, frameLength_take,
    if_neg (not_not.mpr f.sync), if_neg f.object, if_neg f.frequency, if_neg hshort]
  exact ⟨rfl, f.length, rfl⟩

theorem validFrameLength_frame (f : Frame) : validFrameLength (f.bytes.take 7) = f.bytes.length := by
  have hlong := f.long
  have hshort := f.short
  have hlength : ¬ (frameLength f.bytes ≤ cHeaderSize ∨ 5000 < frameLength f.bytes) := by
    rw [f.length, cHeaderSize]
    omega
  rw [validFrameLength, syncword_take, profile_take, samplingFrequency_take, frameLength_take,
    if_neg (not_not.mpr f.sync), if_neg f.object, if_neg f.frequency, if_neg hlength, f.length]

end Header

section Stream

variable {fs : File} {f : Frame} {rest : List Frame}

theorem fread_frame (h : fs.bytes.drop fs.pos = concat (f :: rest)) :
    fs.fread 7 = (f.bytes.take 7, { fs with pos := fs.pos + 7 }) ∧
      File.fread { fs with pos := fs.pos + 7 } (f.bytes.length - 7) =
        (f.bytes.drop 7, { fs with pos := fs.pos + f.bytes.length }) ∧
      fs.bytes.drop (fs.pos + f.bytes.length) = concat rest := by
  have hlong := f.long
  have hsplit : fs.bytes.drop fs.pos = f.bytes.take 7 ++ (f.bytes.drop 7 ++ concat rest) := by
    rw [h, concat_cons, ← List.append_assoc, List.take_append_drop]
  have hlength : (f.bytes.take 7).length = 7 := by
    rw [List.length_take]
    omega
  obtain ⟨hhead, htail⟩ := fs.fread_append hsplit
  rw [hlength] at hhead htail
  obtain ⟨hbody, hrest⟩ := File.fread_append { fs with pos := fs.pos + 7 } htail
  have hpos : fs.pos + 7 + (f.bytes.length - 7) = fs.pos + f.bytes.length := by omega
  rw [List.length_drop, hpos] at hbody hrest
  exact ⟨hhead, hbody, hrest⟩

theorem length_rest (h : fs.bytes.drop fs.pos = concat (f :: rest)) :
    fs.bytes.length = fs.pos + f.bytes.length + (concat rest).length := by
  have hlength := congrArg List.length h
  have hlong := f.long
  rw [List.length_drop, concat_cons, List.length_append] at hlength
  omega

theorem length_header (f : Frame) : ¬ (f.bytes.take 7).length < 7 := by
  have hlong := f.long
  rw [List.length_take]
  omega

theorem scanFrames_frame (h : fs.bytes.drop fs.pos = concat (f :: rest)) (fuel : Nat) (frame sr : Int)
    (ch : Nat) :
    scanFrames fs.bytes.length (fuel + 1) fs frame fs.pos sr ch =
      if fs.pos + f.bytes.length < fs.bytes.length then
        scanFrames fs.bytes.length fuel { fs with pos := fs.pos + f.bytes.length } (i32 (frame + 1))
          (fs.pos + f.bytes.length) (samplingFrequency f.bytes)
          (isValidFrameHeader (f.bytes.take 7) sr).channelConfig
      else some ⟨true, { fs with pos := fs.pos + 7 }, i32 (frame + 1), samplingFrequency f.bytes,
        (isValidFrameHeader (f.bytes.take 7) sr).channelConfig⟩ := by
  obtain ⟨hhead, -, -⟩ := fread_frame h
  obtain ⟨hvalid, hlength, hfrequency⟩ := isValidFrameHeader_frame f sr
  have hlong := f.long
  have hseek : File.fseekCur { fs with pos := fs.pos + 7 } ((f.bytes.length : Int) - (7 : Nat)) =
      { fs with pos := fs.pos + f.bytes.length } := by
    have hnot : ¬ ((fs.pos + 7 : Nat) : Int) + ((f.bytes.length : Int) - (7 : Nat)) < 0 := by omega
    have hpos : (((fs.pos + 7 : Nat) : Int) + ((f.bytes.length : Int) - (7 : Nat))).toNat =
        fs.pos + f.bytes.length := by omega
    rw [File.fseekCur, if_neg hnot, hpos]
  simp only [scanFrames, cHeaderSize, hhead, if_neg (length_header f), hvalid, hlength, hseek, hfrequency,
    Bool.true_eq_false, if_false]

theorem scanFrames_concat (fs : File) (h : fs.bytes.drop fs.pos = concat (f :: rest)) {fuel : Nat}
    (hfuel : rest.length < fuel) (frame sr : Int) (ch : Nat) :
    ∃ scan, scanFrames fs.bytes.length fuel fs frame fs.pos sr ch = some scan ∧ scan.ok = true ∧
      scan.fs.bytes = fs.bytes ∧ scan.frame = i32 (frame + (rest.length + 1 : Nat)) ∧
      ∃ g ∈ f :: rest, scan.sr = samplingFrequency g.bytes := by
  obtain ⟨fuel, rfl⟩ := Nat.exists_eq_succ_of_ne_zero (Nat.ne_of_gt (Nat.zero_lt_of_lt hfuel))
  have hlength := length_rest h
  rw [Nat.succ_eq_add_one, scanFrames_frame h]
  induction rest generalizing f fs fuel frame sr ch with
  | nil =>
      have hend : ¬ fs.pos + f.bytes.length < fs.bytes.length := by
        rw [hlength, concat, List.flatMap_nil, List.length_nil]
        omega
      rw [if_neg hend]
      exact ⟨_, rfl, rfl, rfl, rfl, f, List.mem_cons_self, rfl⟩
  | cons g rest ih =>
      have hmore : fs.pos + f.bytes.length < fs.bytes.length := by
        have hpos := length_concat (g :: rest)
        rw [List.length_cons] at hpos
        omega
      have hrest := (fread_frame h).2.2
      rw [if_pos hmore]
      cases fuel with
      | zero => exact absurd hfuel (by simp)
      | succ fuel =>
          obtain ⟨scan, hscan, hok, hbytes, hframe, k, hk, hsr⟩ :=
            ih { fs with pos := fs.pos + f.bytes.length } hrest (i32 (frame + 1))
              (samplingFrequency f.bytes) (isValidFrameHeader (f.bytes.take 7) sr).channelConfig fuel
              (Nat.lt_of_succ_lt_succ hfuel) (length_rest hrest)
          refine ⟨scan, ?_, hok, hbytes, ?_, k, List.mem_cons_of_mem _ hk, hsr⟩
          · rw [← hscan]
            exact scanFrames_frame hrest _ _ _ _
          · rw [hframe, i32_add, List.length_cons]
            apply congrArg i32
            omega

theorem readFrames_frame {t : Taac} (hmore : t.sendFrameNumber < t.totalFrames) (n : Nat) (r : Reading)
    (h : r.fs.bytes.drop r.fs.pos = concat (f :: rest)) :
    readFrames t (n + 1) r = readFrames t n ⟨{ r.fs with pos := r.fs.pos + f.bytes.length },
      r.framesFromFile + 1, r.sbuf ++ f.bytes, (r.sbuf ++ f.bytes).length⟩ := by
  obtain ⟨hhead, hbody, -⟩ := fread_frame h
  have hlong := f.long
  have hzero : ¬ f.bytes.length = 0 := by omega
  have hwhole : ¬ (f.bytes.drop 7).length < f.bytes.length - 7 := by
    rw [List.length_drop]
    omega
  have hsbuf : r.sbuf ++ f.bytes.take 7 ++ f.bytes.drop 7 = r.sbuf ++ f.bytes := by
    rw [List.append_assoc, List.take_append_drop]
  rw [← hsbuf]
  simp only [readFrames, if_neg (not_le.mpr hmore), cHeaderSize, hhead, if_neg (length_header f),
    validFrameLength_frame, if_neg hzero, hbody, if_neg hwhole]

theorem readFrames_end {t : Taac} (n : Nat) {r : Reading} (h : r.fs.bytes.drop r.fs.pos = []) :
    readFrames t n r = r := by
  cases n with
  | zero => rfl
  | succ n =>
      rw [readFrames]
      split
      · rfl
      · rw [File.fread_nil h]
        rfl

theorem readFrames_concat {t : Taac} (hmore : t.sendFrameNumber < t.totalFrames) (n : Nat) (r : Reading)
    (h : r.fs.bytes.drop r.fs.pos = concat rest) (hret : r.retValue = r.sbuf.length) :
    ∃ pos, r.fs.bytes.drop pos = concat (rest.drop n) ∧
      readFrames t n r = ⟨{ r.fs with pos := pos }, r.framesFromFile + (rest.take n).length,
        r.sbuf ++ concat (rest.take n), (r.sbuf ++ concat (rest.take n)).length⟩ := by
  induction n generalizing r rest with
  | zero => exact ⟨r.fs.pos, h, by simp [readFrames, concat, ← hret]⟩
  | succ n ih =>
      cases rest with
      | nil => exact ⟨r.fs.pos, h, by simp [readFrames_end (n + 1) h, concat, ← hret]⟩
      | cons f rest =>
          obtain ⟨pos, hdrop, hread⟩ := ih ⟨{ r.fs with pos := r.fs.pos + f.bytes.length },
            r.framesFromFile + 1, r.sbuf ++ f.bytes, (r.sbuf ++ f.bytes).length⟩ (fread_frame h).2.2 rfl
          refine ⟨pos, hdrop, ?_⟩
          have hcount : r.framesFromFile + 1 + ((rest.take n).length : Int) =
              r.framesFromFile + ((rest.take n).length + 1 : Nat) := by omega
          rw [readFrames_frame hmore n r h, hread, List.take_succ_cons, concat_cons, List.append_assoc,
            List.length_cons, ← hcount]

end Stream

section Accepted

theorem abs_i32_le (n : Int) : |((i32 n : Int) : ℚ)| ≤ 2 ^ 31 := by
  obtain ⟨hlow, hhigh⟩ := i32_bounds n
  rw [abs_le]
  constructor
  · exact_mod_cast hlow
  · exact_mod_cast hhigh.le

/-- At a frequency of the table a file of this size would have a higher bit rate,
however long it plays. -/
theorem size_lt_of_bitrate {frame sr : Int} {fileSize : Nat} (hsr : 7350 ≤ sr)
    (htime : 0 < playTime frame sr) (hbr : bitrate fileSize (playTime frame sr) ≤ 320) :
    fileSize < 2 ^ 34 := by
  have hsr' : (7350 : ℚ) ≤ sr := by exact_mod_cast hsr
  have hplay : playTime frame sr ≤ 307000 := by
    have hnum : |float (i32 (1024 * frame) : ℚ)| ≤ 65 / 64 * 2 ^ 31 :=
      (abs_float_le _).trans (by linarith [abs_i32_le (1024 * frame)])
    have hden : 7235 ≤ float (sr : ℚ) := by linarith [le_float (x := (sr : ℚ)) (by linarith)]
    have hquot : |float (i32 (1024 * frame) : ℚ) / float sr| ≤ 65 / 64 * 2 ^ 31 / 7235 := by
      rw [abs_div, abs_of_pos (by linarith : 0 < float (sr : ℚ))]
      exact div_le_div₀ (by norm_num) hnum (by norm_num) hden
    calc playTime frame sr ≤ |playTime frame sr| := le_abs_self _
      _ ≤ 65 / 64 * |float (i32 (1024 * frame) : ℚ) / float sr| := abs_float_le _
      _ ≤ 307000 := by linarith
  generalize playTime frame sr = time at htime hplay hbr
  by_contra hsize
  have hsize' : (2 : ℚ) ^ 34 ≤ fileSize := by exact_mod_cast Nat.le_of_not_lt hsize
  have hbytes : 63 / 64 * 2 ^ 34 ≤ float (fileSize : ℚ) := by
    linarith [le_float (x := (fileSize : ℚ)) (by linarith)]
  have hrate : 55000 ≤ float (fileSize : ℚ) / time := by
    have hquot : 63 / 64 * 2 ^ 34 / 307000 ≤ float (fileSize : ℚ) / time :=
      div_le_div₀ (by linarith) hbytes htime hplay
    linarith
  rw [bitrate] at hbr
  generalize float (fileSize : ℚ) / time = rate at hrate hbr
  have hfloat : 54000 ≤ float rate := by linarith [le_float (x := rate) (by linarith)]
  have hbits : 420000 ≤ float (float rate * 8) := by
    linarith [le_float (x := float rate * 8) (by linarith)]
  linarith [le_float (x := float (float rate * 8) / 1000) (by linarith)]

theorem le_of_sftable {i : Nat} (h : sftable.getD i 0 ≠ 0) : 7350 ≤ sftable.getD i 0 := by
  have hall : ∀ x ∈ sftable, x = 0 ∨ 7350 ≤ x := by decide
  cases hget : sftable[i]? with
  | none => simp [List.getD_eq_getElem?_getD, hget] at h
  | some x =>
      rw [List.getD_eq_getElem?_getD, hget, Option.getD_some] at h ⊢
      exact (hall x (List.mem_of_getElem? hget)).resolve_left h

theorem framesPerSecond_pos {sr : Int} (hsr : 7350 ≤ sr) : 0 < framesPerSecond sr := by
  have hsr' : (7350 : ℚ) ≤ sr := by exact_mod_cast hsr
  have hnum : 7235 ≤ float (sr : ℚ) := by linarith [le_float (x := (sr : ℚ)) (by linarith)]
  have hlow : 1008 ≤ float 1024 := by linarith [le_float (x := 1024) (by norm_num)]
  have hhigh : float 1024 ≤ 1040 := by
    have h := le_abs_self (float 1024)
    linarith [abs_float_le 1024, abs_of_pos (show (0 : ℚ) < 1024 by norm_num)]
  have hquot : 7235 / 1040 ≤ float (sr : ℚ) / float 1024 :=
    div_le_div₀ (by linarith) hnum (by linarith) hhigh
  have hround := le_float (x := float (sr : ℚ) / float 1024) (by linarith)
  rw [framesPerSecond, Int.floor_pos]
  linarith

theorem playInfo_accepted {t t' : Taac} {info info' : FileInfo} {fileSize : Nat} {scan : Scan}
    (h : playInfo t info fileSize scan = (info', t')) (hret : info'.retValue ≠ -1) :
    let sr : Int := sftable.getD scan.sr.toNat 0
    0 < playTime scan.frame sr ∧ bitrate fileSize (playTime scan.frame sr) ≤ 320 ∧
      t' = { t with fs := some scan.fs, framesToRead := framesPerSecond sr, totalFrames := scan.frame } ∧
        info'.frame = scan.frame ∧ info'.framesToRead = framesPerSecond sr := by
  rw [playInfo] at h
  split at h
  · rw [← (Prod.mk.inj h).1] at hret
    exact absurd rfl hret
  · rename_i htime
    split at h
    · rw [← (Prod.mk.inj h).1] at hret
      exact absurd rfl hret
    · rename_i hbr
      obtain ⟨rfl, rfl⟩ := Prod.mk.inj h
      exact ⟨not_le.mp htime, not_lt.mp fun hlt => hbr (.inr hlt), rfl, rfl, rfl⟩

theorem playInfo_accepts {t : Taac} {info : FileInfo} {fileSize : Nat} {scan : Scan} {sr : Int}
    (hsr : sftable.getD scan.sr.toNat 0 = sr) (htime : 0 < playTime scan.frame sr)
    (hlow : 32 ≤ bitrate fileSize (playTime scan.frame sr)) (hhigh : bitrate fileSize (playTime scan.frame sr) ≤ 320) :
    (playInfo t info fileSize scan).1.retValue = 1 ∧
      (playInfo t info fileSize scan).2.framesToRead = framesPerSecond sr := by
  have hbr : ¬ (bitrate fileSize (playTime scan.frame sr) < 32 ∨ 320 < bitrate fileSize (playTime scan.frame sr)) :=
    not_or.mpr ⟨not_lt.mpr hlow, not_lt.mpr hhigh⟩
  simp only [playInfo, hsr, if_neg (not_le.mpr htime), if_neg hbr, and_self]

theorem getFileInfo_ok {t t' : Taac} {fileExists : Bool} {fopen : Option (List UInt8)} {info info' : FileInfo}
    (h : getFileInfo t fileExists fopen info = some (info', t')) (hret : info'.retValue ≠ -1) :
    ∃ bytes index scan, fopen = some bytes ∧ (seekTo1Frame ⟨bytes, 0⟩).1 = some index ∧
      scanFrames bytes.length (bytes.length + 1) ⟨bytes, 0⟩ 0 index info.sr info.ch.toNat = some scan ∧
      scan.ok = true ∧ playInfo t { info with retValue := -1, frame := 0 } bytes.length scan = (info', t') := by
  unfold getFileInfo at h
  dsimp only at h
  split at h
  · rw [← (Prod.mk.inj (Option.some.inj h)).1] at hret
    exact absurd rfl hret
  split at h
  · rw [← (Prod.mk.inj (Option.some.inj h)).1] at hret
    exact absurd rfl hret
  rename_i bytes
  have hfs : (seekTo1Frame ⟨bytes, 0⟩).2 = ⟨bytes, 0⟩ := rfl
  generalize hseek : seekTo1Frame ⟨bytes, 0⟩ = seek at hfs h
  obtain ⟨index, fs⟩ := seek
  obtain rfl : fs = ⟨bytes, 0⟩ := hfs
  cases index with
  | none =>
      rw [← (Prod.mk.inj (Option.some.inj h)).1] at hret
      exact absurd rfl hret
  | some index =>
      dsimp only at h
      obtain ⟨scan, hscan, h⟩ := Option.bind_eq_some_iff.mp h
      split at h
      · exact ⟨bytes, index, scan, rfl, by rw [hseek], hscan, ‹_›, Option.some.inj h⟩
      · rw [← (Prod.mk.inj (Option.some.inj h)).1] at hret
        exact absurd rfl hret

theorem seekTo1Frame_concat {bytes : List UInt8} {f : Frame} {rest : List Frame}
    (hbytes : bytes = concat (f :: rest)) {index pos : Nat}
    (h : (seekTo1Frame ⟨bytes, pos⟩).1 = some index) : index = 0 := by
  have hlong := f.long
  have hread : ((File.fseek ⟨bytes, pos⟩ 0).fread 50000).1 = bytes.take 50000 := rfl
  rw [seekTo1Frame, hread, List.find?_range_eq_some] at h
  obtain ⟨hindex, hmem, hfirst⟩ := h
  by_contra hne
  have hzero := hfirst 0 (Nat.pos_of_ne_zero hne)
  rw [Bool.and_eq_true, decide_eq_true_eq] at hindex
  have hsync : syncword (bytes.take 50000) = 0x0FFF := by
    have htake : (bytes.take 50000).take 7 = f.bytes.take 7 := by
      rw [List.take_take, hbytes, concat_cons, List.take_append_of_le_length (by omega)]
      rfl
    rw [← syncword_take, htake, syncword_take, f.sync]
  have hten : 10 ≤ (bytes.take 50000).length - 0 := by omega
  rw [List.drop_zero, hsync, decide_eq_true hten] at hzero
  cases hzero

theorem seekTo1Frame_first {f : Frame} {rest : List Frame} (hten : 10 ≤ (concat (f :: rest)).length) (pos : Nat) :
    (seekTo1Frame ⟨concat (f :: rest), pos⟩).1 = some 0 := by
  have hlong := f.long
  have hread : ((File.fseek ⟨concat (f :: rest), pos⟩ 0).fread 50000).1 = (concat (f :: rest)).take 50000 := rfl
  have hlength : 10 ≤ ((concat (f :: rest)).take 50000).length := by
    rw [List.length_take]
    omega
  have htake : ((concat (f :: rest)).take 50000).take 7 = f.bytes.take 7 := by
    rw [List.take_take, concat_cons, List.take_append_of_le_length (by omega)]
    rfl
  rw [seekTo1Frame, hread, List.find?_range_eq_some, List.drop_zero, ← syncword_take, htake, syncword_take, f.sync,
    Nat.sub_zero, decide_eq_true hlength]
  exact ⟨rfl, List.mem_range.mpr (by omega), fun j hj => absurd hj (Nat.not_lt_zero j)⟩

/-- A file of complete frames at one frequency goes through to the last check. -/
theorem getFileInfo_concat {f : Frame} {rest : List Frame} (t : Taac) (info : FileInfo)
    (hten : 10 ≤ (concat (f :: rest)).length) {sr : Nat}
    (hsr : ∀ g ∈ f :: rest, samplingFrequency g.bytes = sr) :
    ∃ scan : Scan, scan.frame = i32 (f :: rest).length ∧ scan.sr = sr ∧
      getFileInfo t true (some (concat (f :: rest))) info =
        some (playInfo t { info with retValue := -1, frame := 0 } (concat (f :: rest)).length scan) := by
  have hfuel : rest.length < (concat (f :: rest)).length + 1 := by
    have hlength := length_concat (f :: rest)
    rw [List.length_cons] at hlength
    omega
  obtain ⟨scan, hscan, hok, -, hframe, g, hg, hfrequency⟩ := scanFrames_concat ⟨concat (f :: rest), 0⟩ rfl
    hfuel 0 info.sr info.ch.toNat
  rw [Int.zero_add] at hframe
  refine ⟨scan, hframe, by rw [hfrequency, hsr g hg], ?_⟩
  have hseek : seekTo1Frame ⟨concat (f :: rest), 0⟩ = (some 0, ⟨concat (f :: rest), 0⟩) :=
    Prod.ext (seekTo1Frame_first hten 0) rfl
  dsimp only at hscan
  simp only [getFileInfo, Bool.true_eq_false, if_false, hseek, hscan, hok, if_true, Option.bind_eq_bind,
    Option.bind_some, Option.pure_def]

theorem getFileInfo_accepted {frames : List Frame} {t t' : Taac} {info info' : FileInfo}
    (h : getFileInfo t true (some (concat frames)) info = some (info', t')) (hret : info'.retValue ≠ -1) :
    t'.totalFrames = frames.length ∧ t'.totalFrames < 2 ^ 31 ∧ info'.frame = frames.length ∧
      0 < t'.framesToRead ∧
      info'.framesToRead = t'.framesToRead ∧
      ∃ fs, t'.fs = some fs ∧ fs.bytes = concat frames ∧ (seekTo1Frame fs).1.isSome = true := by
  obtain ⟨_, index, scan, hbytes, hseek, hloop, -, hplay⟩ := getFileInfo_ok h hret
  obtain rfl := Option.some.inj hbytes
  cases frames with
  | nil => cases hseek
  | cons f rest =>
      have hfuel : rest.length < (concat (f :: rest)).length + 1 := by
        have hlength := length_concat (f :: rest)
        rw [List.length_cons] at hlength
        omega
      obtain ⟨scan', hscan, -, hbytes, hframe, g, -, hsr⟩ := scanFrames_concat ⟨concat (f :: rest), 0⟩ rfl
        hfuel 0 info.sr info.ch.toNat
      rw [seekTo1Frame_concat rfl hseek] at hloop
      obtain rfl := Option.some.inj (hloop.symm.trans hscan)
      obtain ⟨htime, hbr, rfl, hinfo, hread⟩ := playInfo_accepted hplay hret
      have hfrequency := le_of_sftable g.frequency
      rw [hsr, Int.toNat_natCast] at htime hbr hread ⊢
      have hsize := size_lt_of_bitrate (by exact_mod_cast hfrequency) htime hbr
      have hlength := length_concat (f :: rest)
      have hcount : scan.frame = ((f :: rest).length : Nat) := by
        rw [hframe, i32_of_bounds] <;> rw [List.length_cons] at * <;> omega
      have hbound : scan.frame < 2 ^ 31 := by
        rw [hcount]
        omega
      refine ⟨hcount, hbound, hinfo.trans hcount, framesPerSecond_pos (by exact_mod_cast hfrequency), hread,
        scan.fs, rfl, hbytes, ?_⟩
      have hsame : (seekTo1Frame scan.fs).1 = (seekTo1Frame ⟨concat (f :: rest), 0⟩).1 := by
        rw [seekTo1Frame, File.fseek, hbytes]
        rfl
      rw [hsame, hseek]
      rfl

end Accepted

section Play

/-- The buffers the next calls of `aac_GetFrames` deliver, each as long as the value returned. -/
def deliver : Nat → Taac → Option (List (List UInt8))
  | 0, _ => some []
  | calls + 1, t => do
      let ((value, sbuf), t) ← getFrames t
      let buffers ← deliver calls t
      return sbuf.take value :: buffers

structure Before (t : Taac) (rest : List Frame) : Prop where
  more : t.sendFrameNumber + rest.length = t.totalFrames
  nonneg : 0 ≤ t.sendFrameNumber
  bound : t.totalFrames < 2 ^ 31
  stream : ∃ fs, t.fs = some fs ∧ fs.bytes.drop fs.pos = concat rest

theorem readFrames_before {t : Taac} {rest : List Frame} (h : Before t rest) {fs : File}
    (hdrop : fs.bytes.drop fs.pos = concat rest) (n : Nat) :
    ∃ pos, fs.bytes.drop pos = concat (rest.drop n) ∧
      readFrames t n ⟨fs, 0, [], 0⟩ = ⟨{ fs with pos := pos }, (rest.take n).length, concat (rest.take n),
        (concat (rest.take n)).length⟩ := by
  cases rest with
  | nil => exact ⟨fs.pos, by simpa using hdrop, by simp [readFrames_end n (r := ⟨fs, 0, [], 0⟩) hdrop, concat]⟩
  | cons f rest =>
      have hmore : t.sendFrameNumber < t.totalFrames := by
        have hlength := h.more
        rw [List.length_cons] at hlength
        omega
      obtain ⟨pos, hpos, hread⟩ := readFrames_concat hmore n ⟨fs, 0, [], 0⟩ hdrop rfl
      exact ⟨pos, hpos, by simpa using hread⟩

theorem getFrames_before {t : Taac} {rest : List Frame} (h : Before t rest) :
    ∃ t', getFrames t = some (((concat (rest.take t.framesToRead.toNat)).length,
      concat (rest.take t.framesToRead.toNat)), t') ∧ Before t' (rest.drop t.framesToRead.toNat) ∧
        t'.framesToRead = t.framesToRead := by
  obtain ⟨fs, hfs, hdrop⟩ := h.stream
  obtain ⟨pos, hpos, hread⟩ := readFrames_before h hdrop t.framesToRead.toNat
  have hmore := h.more
  have hnonneg := h.nonneg
  have hbound := h.bound
  have hsplit := congrArg List.length (List.take_append_drop t.framesToRead.toNat rest)
  rw [List.length_append] at hsplit
  have hsend : i32 (t.sendFrameNumber + (rest.take t.framesToRead.toNat).length) =
      t.sendFrameNumber + (rest.take t.framesToRead.toNat).length := i32_of_bounds (by omega) (by omega)
  refine ⟨{ t with
    fs := some { fs with pos := pos }
    sendFrameNumber := i32 (t.sendFrameNumber + (rest.take t.framesToRead.toNat).length) },
    ?_, ⟨?_, ?_, hbound, { fs with pos := pos }, rfl, hpos⟩, rfl⟩
  · simp only [getFrames, hfs, hread, Option.bind_eq_bind, Option.bind_some, Option.pure_def]
  · simp only [hsend]
    omega
  · simp only [hsend]
    omega

theorem startPlay_before {frames : List Frame} {t t' : Taac} {info info' : FileInfo}
    (h : getFileInfo t true (some (concat frames)) info = some (info', t')) (hret : info'.retValue ≠ -1) :
    (startPlay t').1 = true ∧ Before (startPlay t').2 frames ∧
      (startPlay t').2.totalFrames = frames.length ∧ (startPlay t').2.framesToRead = t'.framesToRead := by
  obtain ⟨htotal, hbound, -, -, -, fs, hfs, hbytes, hseek⟩ := getFileInfo_accepted h hret
  have hstart : startPlay t' = (true, { t' with fs := some (fs.fseek 0), sendFrameNumber := 0 }) := by
    simp only [startPlay, hfs, hseek, if_true]
    rfl
  rw [hstart]
  refine ⟨rfl, ⟨?_, le_rfl, hbound, fs.fseek 0, rfl, ?_⟩, htotal, rfl⟩
  · rw [htotal]
    exact Int.zero_add _
  · rw [← hbytes]
    rfl

def demoFrame : Frame where
  bytes := [0xFF, 0xF1, 0x4C, 0x80, 25, 0, 0] ++ List.replicate 193 0
  sync := by decide +kernel
  object := by decide +kernel
  frequency := by decide +kernel
  length := by decide +kernel
  long := by decide +kernel
  short := by decide +kernel

/-- 520 bytes at 8 kHz, of which one call reads eight. -/
def slowFrame : Frame where
  bytes := [0xFF, 0xF1, 0x6C, 0x80, 65, 0, 0] ++ List.replicate 513 0
  sync := by decide +kernel
  object := by decide +kernel
  frequency := by decide +kernel
  length := by decide +kernel
  long := by decide +kernel
  short := by decide +kernel

def slowFrames : List Frame := List.replicate 10 slowFrame

end Play

end RadioServices.Accordion.AacStream

import RadioServices.Lib.Framing
import RadioServices.Lib.Runs
import RadioServices.Accordion.AacStream

namespace RadioServices.Accordion.AacBuffer

open Lib.C Lib.Framing Lib.Runs Aac AacStream

def format : Format UInt8 := ⟨cHeaderSize, fun bytes => validFrameLength (bytes.take cHeaderSize)⟩

def Fitting (t : Taac) : Prop :=
  t.sendFrameNumber < t.totalFrames → ∀ fs, t.fs = some fs → Fits format t.framesToRead.toNat bufSize fs.rest

theorem validFrameLength_bounds {header : List UInt8} (h : validFrameLength header ≠ 0) :
    7 < validFrameLength header ∧ validFrameLength header ≤ 5000 := by
  rw [validFrameLength] at h ⊢
  split_ifs at h ⊢ with hsync hprofile hfrequency hlength
  all_goals first | exact absurd rfl h | skip
  rw [not_or, cHeaderSize] at hlength
  omega

section Call

variable {t : Taac}

theorem format_frameSize (fs : File) : format.frameSize fs.rest = validFrameLength (fs.fread cHeaderSize).1 := rfl

theorem length_header (fs : File) :
    (fs.fread cHeaderSize).1.length < cHeaderSize ↔ fs.rest.length < format.headerSize := by
  have hseven : format.headerSize = cHeaderSize := rfl
  rw [File.fread_fst, List.length_take, hseven]
  omega

def reader (t : Taac) : Reader UInt8 Reading where
  format := format
  loop := readFrames t
  rest := fun r => r.fs.rest
  written := fun r => r.sbuf.length
  Sound := fun _ => True

theorem readFrames_stop (hmore : t.sendFrameNumber < t.totalFrames) (n : Nat) (r : Reading)
    (h : r.fs.rest.length < format.headerSize ∨ format.frameSize r.fs.rest = 0) :
    readFrames t (n + 1) r = { r with fs := (r.fs.fread cHeaderSize).2 } := by
  rw [format_frameSize] at h
  rw [readFrames, if_neg (not_le.mpr hmore)]
  dsimp only
  split
  · rfl
  rename_i hlong
  rw [length_header] at hlong
  rw [if_pos (h.resolve_left hlong)]

theorem readFrames_header (hmore : t.sendFrameNumber < t.totalFrames) (n : Nat) (r : Reading)
    (h : format.headerSize ≤ r.fs.rest.length ∧ format.frameSize r.fs.rest ≠ 0) :
    let read := (r.fs.fread cHeaderSize).2.fread (format.frameSize r.fs.rest - cHeaderSize)
    let sbuf := r.sbuf ++ (r.fs.fread cHeaderSize).1 ++ read.1
    readFrames t (n + 1) r =
      if read.1.length < format.frameSize r.fs.rest - cHeaderSize then { r with fs := read.2, sbuf := sbuf }
      else readFrames t n ⟨read.2, r.framesFromFile + 1, sbuf, sbuf.length⟩ := by
  have hne := h.2
  rw [format_frameSize] at hne
  rw [readFrames, if_neg (not_le.mpr hmore), format_frameSize]
  dsimp only
  rw [if_neg ((length_header r.fs).not.mpr (Nat.not_lt.mpr h.1)), if_neg hne]

theorem turn (hmore : t.sendFrameNumber < t.totalFrames) (n : Nat) (r : Reading) : (reader t).Turn n r := by
  by_cases hstop : r.fs.rest.length < format.headerSize ∨ format.frameSize r.fs.rest = 0
  · have hloop := readFrames_stop hmore n r hstop
    exact .stop hstop Iff.rfl (congrArg (fun r => r.sbuf.length) hloop)
  obtain ⟨hheader, hsize⟩ : format.headerSize ≤ r.fs.rest.length ∧ format.frameSize r.fs.rest ≠ 0 :=
    ⟨Nat.le_of_not_lt (not_or.mp hstop).1, (not_or.mp hstop).2⟩
  have hloop := readFrames_header hmore n r ⟨hheader, hsize⟩
  have hlong : cHeaderSize ≤ format.frameSize r.fs.rest := by
    rw [format_frameSize] at hsize ⊢
    exact (validFrameLength_bounds hsize).1.le
  have hseven : cHeaderSize = format.headerSize := rfl
  obtain ⟨hread, hbehind, hbody⟩ := r.fs.fread_behind hlong hheader
  dsimp only at hloop
  rw [List.append_assoc, hread, hbody] at hloop
  by_cases hcut : r.fs.rest.length < format.frameSize r.fs.rest
  · rw [if_pos (by omega), List.take_of_length_le hcut.le] at hloop
    have hsbuf := congrArg (fun r => r.sbuf.length) hloop
    exact .cut hheader hsize hcut Iff.rfl (hsbuf.trans List.length_append)
  · rw [if_neg (by omega)] at hloop
    have hwhole : format.frameSize r.fs.rest ≤ r.fs.rest.length := Nat.le_of_not_lt hcut
    refine .whole hheader hlong hsize hwhole _ hloop hbehind Iff.rfl ?_
    exact List.length_append.trans (congrArg _ (List.length_take_of_le hwhole))

theorem readFrames_fits (hmore : t.sendFrameNumber < t.totalFrames) (n room : Nat) (r : Reading) :
    (readFrames t n r).sbuf.length ≤ r.sbuf.length + room ↔ Fits format n room r.fs.rest := by
  have hsound := Reader.sound_iff_fits (m := reader t) (Nat.zero_lt_succ 6) (fun _ => rfl) (turn hmore) n room r trivial
  rwa [and_iff_right (show (reader t).Sound _ from trivial)] at hsound

/-- A call writes no more than the buffer holds just when the frames ahead find room. -/
theorem getFrames_fitting (hopen : t.fs.isSome = true) : ∃ value sbuf t', getFrames t = some ((value, sbuf), t') ∧
    t'.fs.isSome = true ∧ (sbuf.length ≤ bufSize ↔ Fitting t) := by
  obtain ⟨fs, hfs⟩ := Option.isSome_iff_exists.mp hopen
  simp only [getFrames, hfs, Option.bind_eq_bind, Option.bind_some, Option.pure_def]
  refine ⟨_, _, _, rfl, rfl, ?_⟩
  by_cases hmore : t.sendFrameNumber < t.totalFrames
  · have hfits := readFrames_fits hmore t.framesToRead.toNat bufSize ⟨fs, 0, [], 0⟩
    rw [List.length_nil, Nat.zero_add] at hfits
    rw [hfits]
    constructor
    · intro h _ fs' hfs'
      rw [hfs, Option.some.injEq] at hfs'
      exact hfs' ▸ h
    · exact fun h => h hmore fs hfs
  · have hnone : readFrames t t.framesToRead.toNat ⟨fs, 0, [], 0⟩ = ⟨fs, 0, [], 0⟩ := by
      cases t.framesToRead.toNat with
      | zero => rfl
      | succ n => rw [readFrames, if_pos (not_lt.mp hmore)]
    rw [hnone]
    exact iff_of_true (Nat.zero_le _) fun h => absurd h hmore

end Call

section Accepted

variable {t t' : Taac} {info info' : FileInfo}

theorem scanFrames_bytes {fileSize fuel : Nat} {fs : File} {frame sr : Int} {nextFilePos ch : Nat} {scan : Scan}
    (h : scanFrames fileSize fuel fs frame nextFilePos sr ch = some scan) : scan.fs.bytes = fs.bytes := by
  induction fuel generalizing fs frame nextFilePos sr ch with
  | zero => cases h
  | succ fuel ih =>
      have hread : (fs.fread cHeaderSize).2.bytes = fs.bytes := rfl
      rw [scanFrames] at h
      generalize fs.fread cHeaderSize = read at hread h
      obtain ⟨headers, fs'⟩ := read
      dsimp only at hread h
      split at h
      · rw [← Option.some.inj h, ← hread]
      · split at h
        · rw [← Option.some.inj h, ← hread]
        · split at h
          · have hrest := ih h
            rw [hrest, ← hread, File.fseekCur]
            split <;> rfl
          · rw [← Option.some.inj h, ← hread]

theorem startPlay_accepted {fileExists : Bool} {fopen : Option (List UInt8)}
    (h : getFileInfo t fileExists fopen info = some (info', t')) (hret : info'.retValue ≠ -1) :
    (startPlay t').1 = true ∧ (startPlay t').2.fs.isSome = true := by
  obtain ⟨bytes, index, scan, -, hseek, hscan, -, hplay⟩ := getFileInfo_ok h hret
  obtain ⟨-, -, rfl, -⟩ := playInfo_accepted hplay hret
  have hsame : seekTo1Frame scan.fs = seekTo1Frame ⟨bytes, 0⟩ := by
    rw [seekTo1Frame, File.fseek, scanFrames_bytes hscan]
    rfl
  simp only [startPlay, hsame, hseek, Option.isSome_some, if_true, and_self]

/-- Whether a call stays inside the buffer, in any sequence of calls on an accepted file. -/
theorem getFrames_inside {fileExists : Bool} {fopen : Option (List UInt8)}
    (h : getFileInfo t fileExists fopen info = some (info', t')) (hret : info'.retValue ≠ -1) (calls : Nat) :
    (startPlay t').1 = true ∧ ∃ d value sbuf d', afterCalls getFrames calls (startPlay t').2 = some d ∧
      getFrames d = some ((value, sbuf), d') ∧ (sbuf.length ≤ bufSize ↔ Fitting d) := by
  obtain ⟨hplay, hopen⟩ := startPlay_accepted h hret
  have hkeep : ∀ d : Taac, d.fs.isSome = true → ∃ o d', getFrames d = some (o, d') ∧ d'.fs.isSome = true := by
    intro d hopen
    obtain ⟨value, sbuf, d', hcall, hopen', -⟩ := getFrames_fitting hopen
    exact ⟨_, d', hcall, hopen'⟩
  obtain ⟨d, hd, hopen⟩ := afterCalls_some (fun d : Taac => d.fs.isSome = true) hkeep hopen calls
  obtain ⟨value, sbuf, d', hcall, -, hinside⟩ := getFrames_fitting hopen
  exact ⟨hplay, d, value, sbuf, d', hd, hcall, hinside⟩

end Accepted

theorem fitting_of_framesToRead {t : Taac} (h : t.framesToRead ≤ 20) : Fitting t := by
  intro _ fs _
  refine @fits_of_bound _ _ _ _ _ 5000 (fun bytes hsize => ?_) ?_
  · obtain ⟨hlow, hhigh⟩ := validFrameLength_bounds hsize
    exact ⟨hlow.le, hhigh⟩
  · rw [bufSize]
    omega

section Demo

/-- The second call, which has two frames left. -/
theorem getFrames_inside_demo : ∃ info' t',
    getFileInfo ⟨none, 0, 0, 0⟩ true (some (concat slowFrames)) ⟨0, 0, 0, 0, 0, 0, 0, 0⟩ = some (info', t') ∧
      (startPlay t').1 = true ∧ ∃ d value sbuf d', afterCalls getFrames 1 (startPlay t').2 = some d ∧
        getFrames d = some ((value, sbuf), d') ∧ (sbuf.length ≤ bufSize ↔ Fitting d) := by
  have hvalue : (getFileInfo ⟨none, 0, 0, 0⟩ true (some (concat slowFrames)) ⟨0, 0, 0, 0, 0, 0, 0, 0⟩).map
      (fun r => r.1.retValue) = some 1 := by decide +kernel
  obtain ⟨⟨info', t'⟩, hinfo, hret⟩ := Option.map_eq_some_iff.mp hvalue
  have haccepted : info'.retValue ≠ -1 := by
    rw [hret]
    decide
  exact ⟨info', t', hinfo, getFrames_inside hinfo haccepted 1⟩

def largeFrame : Frame where
  bytes := [0xFF, 0xF1, 0x5C, 0x82, 113, 0, 0] ++ List.replicate 4993 0
  sync := by decide +kernel
  object := by decide +kernel
  frequency := by decide +kernel
  length := by rw [List.length_append, List.length_replicate]; decide +kernel
  long := by rw [List.length_append, List.length_replicate]; decide
  short := by rw [List.length_append, List.length_replicate]; decide

def smallFrame : Frame where
  bytes := [0xFF, 0xF1, 0x5C, 0x80, 1, 0, 0, 0]
  sync := by decide +kernel
  object := by decide +kernel
  frequency := by decide +kernel
  length := by decide +kernel
  long := by decide
  short := by decide

/-- 80 frames of 105472 bytes, the largest in front. -/
def unevenFrames : List Frame := largeFrame :: (List.replicate 20 largeFrame ++ List.replicate 59 smallFrame)

theorem length_concat_replicate (n : Nat) (f : Frame) (frames : List Frame) :
    (concat (List.replicate n f ++ frames)).length = n * f.bytes.length + (concat frames).length := by
  rw [concat, List.flatMap_append, List.length_append, List.length_flatMap, List.map_replicate, List.sum_replicate]
  rfl

theorem length_largeFrame : largeFrame.bytes.length = 5000 := by
  rw [largeFrame, List.length_append, List.length_replicate]
  rfl

theorem length_unevenFrames : (concat unevenFrames).length = 105472 := by
  have hsmall : concat (List.replicate 59 smallFrame) = concat (List.replicate 59 smallFrame ++ []) := by
    rw [List.append_nil]
  rw [unevenFrames, ← List.cons_append, ← List.replicate_succ, length_concat_replicate, hsmall,
    length_concat_replicate, length_largeFrame]
  rfl

theorem unevenFrames_accepted (t : Taac) (info : FileInfo) :
    ∃ info' t', getFileInfo t true (some (concat unevenFrames)) info = some (info', t') ∧
      info'.retValue = 1 ∧ t'.framesToRead = 22 := by
  have hten : 10 ≤ (concat unevenFrames).length := by
    rw [length_unevenFrames]
    decide
  have hsr : ∀ g ∈ unevenFrames, samplingFrequency g.bytes = 7 := by
    intro g hg
    rw [unevenFrames, ← List.cons_append, ← List.replicate_succ, List.mem_append, List.mem_replicate,
      List.mem_replicate] at hg
    rcases hg with ⟨-, rfl⟩ | ⟨-, rfl⟩ <;> rfl
  obtain ⟨scan, hframe, hscan, hinfo⟩ := getFileInfo_concat t info hten hsr
  have hcount : scan.frame = 80 := hframe
  have hfrequency : sftable.getD scan.sr.toNat 0 = (22050 : Int) := by
    rw [hscan]
    rfl
  obtain ⟨hret, hframes⟩ := @playInfo_accepts t { info with retValue := -1, frame := 0 } 105472 scan 22050 hfrequency
    (by rw [hcount]; decide +kernel) (by rw [hcount]; decide +kernel) (by rw [hcount]; decide +kernel)
  rw [← length_unevenFrames] at hret hframes
  refine ⟨_, _, hinfo, hret, hframes.trans ?_⟩
  decide +kernel

/-- The first 22 frames take 105008 bytes. -/
theorem buffer_overrun : ¬ ∀ (t t' : Taac) (info info' : FileInfo) (fileExists : Bool) (fopen : Option (List UInt8)),
    getFileInfo t fileExists fopen info = some (info', t') → info'.retValue ≠ -1 →
      ∀ (calls : Nat) (d : Taac), afterCalls getFrames calls (startPlay t').2 = some d →
        ∀ value sbuf d', getFrames d = some ((value, sbuf), d') → sbuf.length ≤ bufSize := by
  intro hevery
  obtain ⟨info', t', hinfo, hret, hframes⟩ :=
    unevenFrames_accepted ⟨none, 0, 0, 0⟩ ⟨0, 0, 0, 0, 0, 0, 0, 0⟩
  have hret' : info'.retValue ≠ -1 := by
    rw [hret]
    decide
  obtain ⟨-, hbefore, -, hstart⟩ := startPlay_before hinfo hret'
  obtain ⟨d', hcall, -⟩ := getFrames_before hbefore
  have hinside := hevery _ _ _ _ _ _ hinfo hret' 0 _ rfl _ _ _ hcall
  have htake : unevenFrames.take 22 = List.replicate 21 largeFrame ++ (List.replicate 1 smallFrame ++ []) := rfl
  rw [hstart, hframes, show (22 : Int).toNat = 22 from rfl, htake, length_concat_replicate, length_concat_replicate,
    length_largeFrame] at hinside
  exact absurd hinside (by decide)

end Demo

end RadioServices.Accordion.AacBuffer

import RadioServices.Lib.Framing
import RadioServices.Lib.Runs
import RadioServices.Accordion.MpxCount

namespace RadioServices.Accordion.MpxBuffer

open Lib.C Lib.Framing Lib.Runs Mpx MpxCount

/-- The size of the frame with this header, 0 where `mpx_GetFrames` stops. -/
def frameLength (header : List UInt8) : Nat :=
  if isValidFrameHeader header = true ∧ getFrameSize header ≤ 5000 then getFrameSize header else 0

def format : Format UInt8 := ⟨cHeaderSize, fun bytes => frameLength (bytes.take cHeaderSize)⟩

/-- What the next call may read is not shorter than its headers and finds room in the buffer. -/
def Fitting (t : Tmpx) : Prop :=
  t.sendFrameNumber < t.totalFrames → ∀ fs, t.fs = some fs → Fits format t.framesToRead.toNat bufSize fs.rest

/-- Every read asks for a number of bytes, and what is written finds room. -/
def Inside (room : Nat) (requests : List Int) (buf : List UInt8) : Prop :=
  (∀ n ∈ requests, 0 ≤ n) ∧ buf.length ≤ room

section Call

variable {t : Tmpx}

theorem frameLength_ne_zero {header : List UInt8} : frameLength header ≠ 0 ↔
    isValidFrameHeader header = true ∧ ¬ (getFrameSize header = 0 ∨ 5000 < getFrameSize header) := by
  rw [frameLength]
  split
  · rename_i h
    simp only [h.1, true_and, not_or, not_lt, h.2, and_true, ne_eq]
  · rename_i h
    simp only [ne_eq, not_true_eq_false, false_iff]
    exact fun hvalid => h ⟨hvalid.1, Nat.le_of_not_lt (not_or.mp hvalid.2).2⟩

theorem frameLength_of_ne_zero {header : List UInt8} (h : frameLength header ≠ 0) :
    frameLength header = getFrameSize header ∧ getFrameSize header ≤ 5000 := by
  obtain ⟨hvalid, hsize⟩ := frameLength_ne_zero.mp h
  have hle : getFrameSize header ≤ 5000 := Nat.le_of_not_lt (not_or.mp hsize).2
  exact ⟨if_pos ⟨hvalid, hle⟩, hle⟩

theorem format_frameSize (fs : File) : format.frameSize fs.rest = frameLength (fs.fread cHeaderSize).1 := by
  rw [format, File.fread_fst]

theorem length_header (fs : File) :
    (fs.fread cHeaderSize).1.length < cHeaderSize ↔ fs.rest.length < format.headerSize := by
  have hfour : format.headerSize = cHeaderSize := rfl
  rw [File.fread_fst, List.length_take, hfour]
  omega

theorem readFrames_done (h : t.totalFrames ≤ t.sendFrameNumber) (n : Nat) (r : Reading) : readFrames t n r = r := by
  cases n with
  | zero => rfl
  | succ n => rw [readFrames, if_pos h]

theorem readFrames_stop (hmore : t.sendFrameNumber < t.totalFrames) (n : Nat) (r : Reading)
    (h : r.fs.rest.length < format.headerSize ∨ format.frameSize r.fs.rest = 0) :
    readFrames t (n + 1) r = { r with fs := (r.fs.fread cHeaderSize).2 } := by
  rw [format_frameSize] at h
  rw [readFrames, if_neg (not_le.mpr hmore)]
  dsimp only
  split
  · rfl
  rename_i hlong
  rw [length_header] at hlong
  split
  · rfl
  rename_i hvalid
  split
  · rfl
  rename_i hsize
  exact absurd (h.resolve_left hlong) (frameLength_ne_zero.mpr ⟨by simpa using hvalid, hsize⟩)

theorem readFrames_header (hmore : t.sendFrameNumber < t.totalFrames) (n : Nat) (r : Reading)
    (h : format.headerSize ≤ r.fs.rest.length ∧ format.frameSize r.fs.rest ≠ 0) :
    let bytesToRead : Int := format.frameSize r.fs.rest - format.headerSize
    let read := (r.fs.fread cHeaderSize).2.fread (sizeT bytesToRead)
    let buf := r.buf ++ (r.fs.fread cHeaderSize).1 ++ read.1
    readFrames t (n + 1) r =
      if i32 read.1.length < bytesToRead then
        { r with fs := read.2, requests := r.requests ++ [bytesToRead], buf := buf }
      else readFrames t n ⟨read.2, r.framesFromFile + 1, i32 (r.pos + cHeaderSize + i32 read.1.length),
        r.requests ++ [bytesToRead], buf, i32 (r.pos + cHeaderSize + i32 read.1.length)⟩ := by
  have hne := h.2
  rw [format_frameSize] at hne
  obtain ⟨hvalid, hsize⟩ := frameLength_ne_zero.mp hne
  rw [readFrames, if_neg (not_le.mpr hmore), format_frameSize, (frameLength_of_ne_zero hne).1]
  dsimp only
  rw [if_neg ((length_header r.fs).not.mpr (Nat.not_lt.mpr h.1)), hvalid, if_neg (by decide), if_neg hsize]
  rfl

theorem requests_subset (n : Nat) (r : Reading) : r.requests ⊆ (readFrames t n r).requests := by
  induction n generalizing r with
  | zero => exact List.Subset.refl _
  | succ n ih =>
      rw [readFrames]
      split
      · exact List.Subset.refl _
      dsimp only
      split
      · exact List.Subset.refl _
      split
      · exact List.Subset.refl _
      split
      · exact List.Subset.refl _
      split
      · exact List.subset_append_left _ _
      · refine fun m hm => ih _ ?_
        exact List.mem_append_left _ hm

theorem sizeT_sub {m n : Nat} (h : n ≤ m) (hm : m ≤ 5000) : sizeT ((m : Int) - n) = m - n := by
  rw [sizeT]
  omega

def reader (t : Tmpx) : Reader UInt8 Reading where
  format := format
  loop := readFrames t
  rest := fun r => r.fs.rest
  written := fun r => r.buf.length
  Sound := fun r => ∀ m ∈ r.requests, 0 ≤ m

theorem sound_append {requests : List Int} {m : Int} (hm : 0 ≤ m) :
    (∀ n ∈ requests ++ [m], 0 ≤ n) ↔ ∀ n ∈ requests, 0 ≤ n := by
  constructor
  · exact fun h n hn => h n (List.mem_append_left _ hn)
  · intro h n hn
    rcases List.mem_append.mp hn with hn | hn
    · exact h n hn
    · rwa [List.mem_singleton.mp hn]

theorem turn (hmore : t.sendFrameNumber < t.totalFrames) (n : Nat) (r : Reading) : (reader t).Turn n r := by
  by_cases hstop : r.fs.rest.length < format.headerSize ∨ format.frameSize r.fs.rest = 0
  · have hloop := readFrames_stop hmore n r hstop
    have hrequests : (readFrames t (n + 1) r).requests = r.requests := by rw [hloop]
    have hsound : (reader t).Sound (readFrames t (n + 1) r) ↔ (reader t).Sound r := by
      rw [reader]
      dsimp only
      rw [hrequests]
    exact .stop hstop hsound (congrArg (fun r => r.buf.length) hloop)
  obtain ⟨hheader, hsize⟩ : format.headerSize ≤ r.fs.rest.length ∧ format.frameSize r.fs.rest ≠ 0 :=
    ⟨Nat.le_of_not_lt (not_or.mp hstop).1, (not_or.mp hstop).2⟩
  have hloop := readFrames_header hmore n r ⟨hheader, hsize⟩
  dsimp only at hloop
  by_cases hshort : format.frameSize r.fs.rest < format.headerSize
  · have hrequest : (format.frameSize r.fs.rest : Int) - format.headerSize ∈ (readFrames t (n + 1) r).requests := by
      rw [hloop]
      split
      · exact List.mem_append_right _ List.mem_cons_self
      · exact requests_subset n _ (List.mem_append_right _ List.mem_cons_self)
    have hnegative : (format.frameSize r.fs.rest : Int) - format.headerSize < 0 := by omega
    exact .short hheader hsize hshort fun h => absurd (h _ hrequest) (not_le.mpr hnegative)
  have hlong : format.headerSize ≤ format.frameSize r.fs.rest := Nat.le_of_not_lt hshort
  have hfour : cHeaderSize = format.headerSize := rfl
  have hbound : format.frameSize r.fs.rest ≤ 5000 := by
    rw [format_frameSize] at hsize ⊢
    exact (frameLength_of_ne_zero hsize).1.trans_le (frameLength_of_ne_zero hsize).2
  obtain ⟨hread, hrest, hbody⟩ := r.fs.fread_behind hlong hheader
  rw [sizeT_sub hlong hbound, hfour, List.append_assoc, hread, hbody] at hloop
  rw [i32_of_bounds (by omega) (by omega)] at hloop
  generalize (r.fs.fread format.headerSize).2.fread (format.frameSize r.fs.rest - format.headerSize) = read at hrest hloop
  have hnonneg : 0 ≤ (format.frameSize r.fs.rest : Int) - format.headerSize := by omega
  by_cases hcut : r.fs.rest.length < format.frameSize r.fs.rest
  · rw [if_pos (by omega), List.take_of_length_le hcut.le] at hloop
    have hrequests := congrArg Reading.requests hloop
    have hsound : (reader t).Sound (readFrames t (n + 1) r) ↔ (reader t).Sound r := by
      rw [reader]
      dsimp only
      rw [hrequests]
      exact sound_append hnonneg
    have hbuf := congrArg (fun r => r.buf.length) hloop
    exact .cut hheader hsize hcut hsound (hbuf.trans List.length_append)
  · rw [if_neg (by omega)] at hloop
    have hwhole : format.frameSize r.fs.rest ≤ r.fs.rest.length := Nat.le_of_not_lt hcut
    refine .whole hheader hlong hsize hwhole _ hloop hrest (sound_append hnonneg) ?_
    exact List.length_append.trans (congrArg _ (List.length_take_of_le hwhole))

theorem readFrames_fits (hmore : t.sendFrameNumber < t.totalFrames) (n room : Nat) (r : Reading)
    (hrequests : ∀ m ∈ r.requests, 0 ≤ m) :
    Inside (r.buf.length + room) (readFrames t n r).requests (readFrames t n r).buf ↔
      Fits format n room r.fs.rest :=
  Reader.sound_iff_fits (m := reader t) (Nat.zero_lt_succ 3) (fun _ => rfl) (turn hmore) n room r hrequests

theorem getFrames_fitting (hopen : t.fs.isSome = true) : ∃ value requests buf t',
    getFrames t = some ((value, requests, buf), t') ∧ t'.fs.isSome = true ∧
      (Inside bufSize requests buf ↔ Fitting t) := by
  obtain ⟨fs, hfs⟩ := Option.isSome_iff_exists.mp hopen
  simp only [getFrames, hfs, Option.bind_eq_bind, Option.bind_some, Option.pure_def]
  refine ⟨_, _, _, _, rfl, rfl, ?_⟩
  by_cases hmore : t.sendFrameNumber < t.totalFrames
  · have hinside := readFrames_fits hmore t.framesToRead.toNat bufSize ⟨fs, 0, 0, [], [], 0⟩ (by simp)
    rw [List.length_nil, Nat.zero_add] at hinside
    rw [hinside]
    constructor
    · intro h _ fs' hfs'
      rw [hfs, Option.some.injEq] at hfs'
      exact hfs' ▸ h
    · exact fun h => h hmore fs hfs
  · rw [readFrames_done (not_lt.mp hmore)]
    exact iff_of_true ⟨fun m hm => absurd hm List.not_mem_nil, Nat.zero_le _⟩ fun h => absurd h hmore

end Call

section Accepted

variable {t t' : Tmpx} {info info' : FileInfo}

theorem startPlay_accepted {fileExists : Bool} {fopen : Option (List UInt8)}
    (h : getFileInfo t fileExists fopen info = some (info', t')) (hret : info'.retValue ≠ -1) :
    (startPlay t').1 = true ∧ (startPlay t').2.fs.isSome = true := by
  obtain ⟨bytes, rfl, rfl, ⟨f⟩⟩ := exists_firstFrame h hret
  rw [(f.startPlay_eq h).2]
  exact ⟨rfl, rfl⟩

/-- Whether a call stays inside the buffer, in any sequence of calls on an accepted file. -/
theorem getFrames_inBounds {fileExists : Bool} {fopen : Option (List UInt8)}
    (h : getFileInfo t fileExists fopen info = some (info', t')) (hret : info'.retValue ≠ -1) (calls : Nat) :
    (startPlay t').1 = true ∧ ∃ d value requests buf d', afterCalls getFrames calls (startPlay t').2 = some d ∧
      getFrames d = some ((value, requests, buf), d') ∧ (Inside bufSize requests buf ↔ Fitting d) := by
  obtain ⟨hplay, hopen⟩ := startPlay_accepted h hret
  have hkeep : ∀ d : Tmpx, d.fs.isSome = true → ∃ o d', getFrames d = some (o, d') ∧ d'.fs.isSome = true := by
    intro d hopen
    obtain ⟨value, requests, buf, d', hcall, hopen', -⟩ := getFrames_fitting hopen
    exact ⟨_, d', hcall, hopen'⟩
  obtain ⟨d, hd, hopen⟩ := afterCalls_some (fun d : Tmpx => d.fs.isSome = true) hkeep hopen calls
  obtain ⟨value, requests, buf, d', hcall, -, hinside⟩ := getFrames_fitting hopen
  exact ⟨hplay, d, value, requests, buf, d', hd, hcall, hinside⟩

end Accepted

section Demo

def demoFrame : List UInt8 := [0xFF, 0xE5, 0x18, 0xC0] ++ List.replicate 140 0

theorem getFrames_inBounds_demo : ∃ info' t',
    getFileInfo ⟨none, 0, 0, 0⟩ true (some (List.replicate 7 demoFrame).flatten) ⟨0, 0, 0, 0, 0, 0, 0⟩ =
        some (info', t') ∧
      (startPlay t').1 = true ∧ ∃ d value requests buf d', afterCalls getFrames 1 (startPlay t').2 = some d ∧
        getFrames d = some ((value, requests, buf), d') ∧ (Inside bufSize requests buf ↔ Fitting d) := by
  have hvalue : (getFileInfo ⟨none, 0, 0, 0⟩ true (some (List.replicate 7 demoFrame).flatten)
      ⟨0, 0, 0, 0, 0, 0, 0⟩).map (fun r => r.1.retValue) = some 0 := by decide +kernel
  obtain ⟨⟨info', t'⟩, hinfo, hret⟩ := Option.map_eq_some_iff.mp hvalue
  exact ⟨info', t', hinfo, getFrames_inBounds hinfo (by rw [hret]; decide) 1⟩

/-- Behind six frames a header of a free format with padding, whose frame has a size of 1. -/
def freeFormat : List UInt8 := (List.replicate 6 demoFrame).flatten ++ [0xFF, 0xE5, 0x0A, 0xC0] ++ List.replicate 9 0

/-- The second call asks for three bytes less than nothing. -/
theorem negative_request : ¬ ∀ (t t' : Tmpx) (info info' : FileInfo) (fileExists : Bool) (fopen : Option (List UInt8)),
    getFileInfo t fileExists fopen info = some (info', t') → info'.retValue ≠ -1 →
      ∀ (calls : Nat) (d : Tmpx), afterCalls getFrames calls (startPlay t').2 = some d →
        ∀ value requests buf d', getFrames d = some ((value, requests, buf), d') → Inside bufSize requests buf := by
  intro hevery
  have hvalue : ((getFileInfo ⟨none, 0, 0, 0⟩ true (some freeFormat) ⟨0, 0, 0, 0, 0, 0, 0⟩).bind fun r =>
      (afterCalls getFrames 1 (startPlay r.2).2).bind fun d => (getFrames d).map fun out =>
        (r.1.retValue, out.1.2.1)) = some (0, [-3]) := by decide +kernel
  obtain ⟨⟨info', t'⟩, hinfo, hvalue⟩ := Option.bind_eq_some_iff.mp hvalue
  obtain ⟨d, hd, hvalue⟩ := Option.bind_eq_some_iff.mp hvalue
  obtain ⟨⟨⟨value, requests, buf⟩, d'⟩, hcall, hvalue⟩ := Option.map_eq_some_iff.mp hvalue
  obtain ⟨hret, hrequests⟩ := Prod.mk.inj hvalue
  dsimp only at hret hrequests
  have hinside := hevery _ t' _ info' true _ hinfo (by rw [hret]; decide) 1 d hd value requests buf d' hcall
  rw [hrequests] at hinside
  exact absurd (hinside.1 (-3) List.mem_cons_self) (by decide)

end Demo

end RadioServices.Accordion.MpxBuffer

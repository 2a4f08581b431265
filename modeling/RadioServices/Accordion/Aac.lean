import RadioServices.Lib.CString
import RadioServices.Lib.SinglePrecision

namespace RadioServices.Accordion

open Lib.C Lib.SinglePrecision

/-- The size of the buffer the frames are read into. The readers keep it in `buf_size` and
do not look at it. -/
def bufSize : Nat := 100000

structure File where
  bytes : List UInt8
  pos : Nat

namespace File

def fread (fs : File) (n : Nat) : List UInt8 × File :=
  let data := (fs.bytes.drop fs.pos).take n
  (data, { fs with pos := fs.pos + data.length })

def fseek (fs : File) (offset : Nat) : File := { fs with pos := offset }

/-- `fseek` with `SEEK_CUR`. It fails before the file. -/
def fseekCur (fs : File) (offset : Int) : File :=
  if fs.pos + offset < 0 then fs else { fs with pos := (fs.pos + offset).toNat }

def rest (fs : File) : List UInt8 := fs.bytes.drop fs.pos

theorem fread_fst (fs : File) (n : Nat) : (fs.fread n).1 = fs.rest.take n := rfl

theorem rest_fread (fs : File) (n : Nat) : (fs.fread n).2.rest = fs.rest.drop n := by
  rw [rest, rest, fread, ← List.drop_drop, List.length_take]
  by_cases h : n ≤ (fs.bytes.drop fs.pos).length
  · rw [Nat.min_eq_left h]
  · rw [Nat.min_eq_right (by omega), List.drop_length, List.drop_eq_nil_of_le (by omega)]

theorem fread_behind (fs : File) {m n : Nat} (hmn : m ≤ n) (hm : m ≤ fs.rest.length) :
    (fs.fread m).1 ++ ((fs.fread m).2.fread (n - m)).1 = fs.rest.take n ∧
      ((fs.fread m).2.fread (n - m)).2.rest = fs.rest.drop n ∧
      ((fs.fread m).2.fread (n - m)).1.length = min n fs.rest.length - m := by
  rw [fread_fst, fread_fst, rest_fread, rest_fread, rest_fread]
  refine ⟨?_, ?_, ?_⟩
  · rw [← List.take_add, Nat.add_sub_cancel' hmn]
  · rw [List.drop_drop, Nat.add_sub_cancel' hmn]
  · rw [List.length_take, List.length_drop]
    omega

theorem fread_append (fs : File) {a b : List UInt8} (h : fs.bytes.drop fs.pos = a ++ b) :
    fs.fread a.length = (a, { fs with pos := fs.pos + a.length }) ∧
      fs.bytes.drop (fs.pos + a.length) = b := by
  constructor
  · rw [fread, h, List.take_left]
  · rw [← List.drop_drop, h, List.drop_left]

theorem fread_nil {fs : File} (h : fs.bytes.drop fs.pos = []) (n : Nat) : fs.fread n = ([], fs) := by
  rw [fread, h, List.take_nil]
  rfl

end File

def byteAt (buf : List UInt8) (i : Nat) : Nat := (buf.getD i 0).toNat

theorem byteAt_take {buf : List UInt8} {i n : Nat} (h : i < n) : byteAt (buf.take n) i = byteAt buf i := by
  rw [byteAt, byteAt, List.getD_eq_getElem?_getD, List.getD_eq_getElem?_getD, List.getElem?_take_of_lt h]

namespace Aac

def sftable : List Nat :=
  [96000, 88200, 64000, 48000, 44100, 32000, 24000, 22050, 16000, 12000, 11025, 8000, 7350, 0, 0, 0]

def cHeaderSize : Nat := 7

def syncword (header : List UInt8) : Nat :=
  ((byteAt header 0 <<< 4) &&& 0xFF0) ||| ((byteAt header 1 >>> 4) &&& 0x0F)

def profile (header : List UInt8) : Nat := (byteAt header 2 &&& 0xC0) >>> 6

def samplingFrequency (header : List UInt8) : Nat := ((byteAt header 2 &&& 0x3C) >>> 2) &&& 0x0F

def getFrameLength (h3 h4 h5 : Nat) : Nat :=
  ((h3 &&& 0x03) <<< 11) ||| (h4 <<< 3) ||| ((h5 &&& 0xE0) >>> 5)

def frameLength (header : List UInt8) : Nat :=
  getFrameLength (byteAt header 3) (byteAt header 4) (byteAt header 5)

/-- The value of the check with five arguments, and what it leaves in four of them. -/
structure HeaderInfo where
  valid : Bool
  protectionAbsent : Nat
  length : Nat
  samplingFrequency : Int
  channelConfig : Nat

def isValidFrameHeader (header : List UInt8) (sr : Int) : HeaderInfo :=
  if syncword header ≠ 0x0FFF then ⟨false, 0, 0, sr, 0⟩
  else if profile header = 3 then ⟨false, 0, 0, sr, 0⟩
  else if sftable.getD (samplingFrequency header) 0 = 0 then ⟨false, 0, 0, -1, 0⟩
  else if 5000 < frameLength header then ⟨false, 0, frameLength header, samplingFrequency header, 0⟩
  else
    -- the channel configuration is a logical or of its two parts
    ⟨true, byteAt header 1 &&& 0x01, frameLength header, samplingFrequency header,
      if (byteAt header 2 &&& 0x01) <<< 2 ≠ 0 ∨ (byteAt header 3 &&& 0xC0) >>> 6 ≠ 0 then 1 else 0⟩

/-- The check with one argument: the length of a valid frame, or 0. -/
def validFrameLength (header : List UInt8) : Nat :=
  if syncword header ≠ 0x0FFF then 0
  else if profile header = 3 then 0
  else if sftable.getD (samplingFrequency header) 0 = 0 then 0
  else if frameLength header ≤ cHeaderSize ∨ 5000 < frameLength header then 0
  else frameLength header

structure Taac where
  fs : Option File
  sendFrameNumber : Int
  framesToRead : Int
  totalFrames : Int

/-- The first syncword in 50000 bytes, with 10 bytes from it on. The stream is left at its beginning. -/
def seekTo1Frame (fs : File) : Option Nat × File :=
  let buf := ((fs.fseek 0).fread 50000).1
  ((List.range buf.length).find? fun i => syncword (buf.drop i) == 0x0FFF && decide (10 ≤ buf.length - i),
    fs.fseek 0)

/-- The loop over the frames: whether it ended at the end of the file, the stream
and the counter after it, and the last values of two arguments. -/
structure Scan where
  ok : Bool
  fs : File
  frame : Int
  sr : Int
  ch : Nat

/-- `none` where the loop does not end. -/
def scanFrames (fileSize : Nat) : Nat → File → Int → Nat → Int → Nat → Option Scan
  | 0, _, _, _, _, _ => none
  | fuel + 1, fs, frame, nextFilePos, sr, ch =>
      let (headers, fs) := fs.fread cHeaderSize
      if headers.length < cHeaderSize then some ⟨false, fs, frame, sr, ch⟩
      else
        let h := isValidFrameHeader headers sr
        if h.valid = false then some ⟨false, fs, frame, h.samplingFrequency, h.channelConfig⟩
        else
          let frame := i32 (frame + 1)
          let nextFilePos := nextFilePos + h.length
          if nextFilePos < fileSize then
            scanFrames fileSize fuel (fs.fseekCur ((h.length : Int) - cHeaderSize)) frame nextFilePos
              h.samplingFrequency h.channelConfig
          else some ⟨true, fs, frame, h.samplingFrequency, h.channelConfig⟩

structure FileInfo where
  retValue : Int
  br : ℚ
  spf : Int
  sr : Int
  frame : Int
  ch : Int
  framesToRead : Int
  playTime : Int

def trunc (x : ℚ) : Int := if x < 0 then ⌈x⌉ else ⌊x⌋

def playTime (frame sr : Int) : ℚ := float (float (i32 (1024 * frame)) / float sr)

/-- The average bit rate, in kbit/s. -/
def bitrate (fileSize : Nat) (playTime : ℚ) : ℚ := float (float (float (float fileSize / playTime) * 8) / 1000)

def framesPerSecond (sr : Int) : Int := ⌊float (float sr / float 1024) + 1 / 2⌋

def playInfo (t : Taac) (info : FileInfo) (fileSize : Nat) (scan : Scan) : FileInfo × Taac :=
  let sr : Int := sftable.getD scan.sr.toNat 0
  let time := playTime scan.frame sr
  let info := { info with spf := 1024, sr := sr, frame := scan.frame, ch := scan.ch, playTime := trunc time }
  let br := bitrate fileSize time
  if time ≤ 0 then
    ({ info with retValue := -1 }, { t with fs := none, totalFrames := scan.frame })
  else
    let info := { info with br := br, framesToRead := framesPerSecond sr }
    let t := { t with framesToRead := framesPerSecond sr, totalFrames := scan.frame }
    if br < 32 ∨ 320 < br then ({ info with retValue := -1 }, { t with fs := none })
    else ({ info with retValue := 1 }, { t with fs := some scan.fs })

/-- `none` where the loop does not end. The arguments are given as they are at the call. -/
def getFileInfo (t : Taac) (fileExists : Bool) (fopen : Option (List UInt8)) (info : FileInfo) :
    Option (FileInfo × Taac) :=
  let info := { info with retValue := -1, frame := 0 }
  if fileExists = false then some (info, t)
  else match fopen with
  | none => some (info, { t with fs := none, totalFrames := 0 })
  | some bytes =>
      let (index, fs) := seekTo1Frame ⟨bytes, 0⟩
      match index with
      | none => some (info, { t with fs := none })
      | some index => do
          let scan ← scanFrames bytes.length (bytes.length + 1) fs 0 index info.sr info.ch.toNat
          if scan.ok = true then return playInfo t info bytes.length scan
          else return ({ info with sr := scan.sr, frame := scan.frame, ch := scan.ch },
            { t with fs := none, totalFrames := scan.frame })

def startPlay (t : Taac) : Bool × Taac :=
  match t.fs with
  | none => (false, t)
  | some fs =>
      let (index, fs) := seekTo1Frame fs
      if index.isSome = true then (true, { t with fs := some fs, sendFrameNumber := 0 })
      else (false, { t with fs := none, sendFrameNumber := 0 })

/-- The variables of the loop of `aac_GetFrames`. `sbuf` is what was written of the buffer. -/
structure Reading where
  fs : File
  framesFromFile : Int
  sbuf : List UInt8
  retValue : Nat

def readFrames (t : Taac) : Nat → Reading → Reading
  | 0, r => r
  | frames + 1, r =>
      if t.totalFrames ≤ t.sendFrameNumber then r
      else
        let (headers, fs) := r.fs.fread cHeaderSize
        if headers.length < cHeaderSize then { r with fs := fs }
        else
          let length := validFrameLength headers
          if length = 0 then { r with fs := fs }
          else
            let (body, fs) := fs.fread (length - cHeaderSize)
            let sbuf := r.sbuf ++ headers ++ body
            if body.length < length - cHeaderSize then { r with fs := fs, sbuf := sbuf }
            else readFrames t frames ⟨fs, r.framesFromFile + 1, sbuf, sbuf.length⟩

/-- The value and what was written of the buffer. `none` where the stream is a null pointer. -/
def getFrames (t : Taac) : Option ((Nat × List UInt8) × Taac) := do
  let fs ← t.fs
  let r := readFrames t t.framesToRead.toNat ⟨fs, 0, [], 0⟩
  return ((r.retValue, r.sbuf),
    { t with fs := some r.fs, sendFrameNumber := i32 (t.sendFrameNumber + r.framesFromFile) })

end Aac

end RadioServices.Accordion

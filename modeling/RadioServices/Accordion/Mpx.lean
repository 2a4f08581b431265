import RadioServices.Accordion.Aac

namespace RadioServices.Accordion.Mpx

open Lib.C Lib.SinglePrecision

def brtable : List Nat :=
  [0, 32, 64, 96, 128, 160, 192, 224, 256, 288, 320, 352, 384, 416, 448, 0,
   0, 32, 48, 56, 64, 80, 96, 112, 128, 160, 192, 224, 256, 320, 384, 0,
   0, 32, 40, 48, 56, 64, 80, 96, 112, 128, 160, 192, 224, 256, 320, 0,
   0, 32, 48, 56, 64, 80, 96, 112, 128, 144, 160, 176, 192, 224, 256, 0,
   0, 8, 16, 24, 32, 40, 48, 56, 64, 80, 96, 112, 128, 144, 160, 0]

/-- MPEG 1, 2 and 2.5. -/
def srtable : List Nat :=
  [44100, 48000, 32000, 0,
   22050, 24000, 16000, 0,
   11025, 12000, 8000, 0]

def cHeaderSize : Nat := 4

section Header

variable (header : List UInt8)

/-- A `char` is signed, so its first byte never equals 0xFF. -/
def badSyncword : Bool :=
  (byteAt header 0 : Int).bmod (2 ^ 8) != 0xFF && byteAt header 1 &&& 0xE0 != 0xE0

def mpegver : Nat := (byteAt header 1 &&& 0x18) >>> 3

def layer : Nat := (byteAt header 1 &&& 0x06) >>> 1

def brindex : Nat := (byteAt header 2 &&& 0xF0) >>> 4

def srindex : Nat := (byteAt header 2 &&& 0x0C) >>> 2

def padding : Nat := (byteAt header 2 &&& 0x02) >>> 1

def isValidFrameHeader : Bool :=
  if badSyncword header = true then false
  else if mpegver header = 1 ∨ 3 < mpegver header then false
  else if 3 < layer header then false
  else if 0x0E < brindex header then false
  else if 0x03 ≤ srindex header then false
  else true

/-- In bits per second. -/
def bitrate : Nat :=
  let version := mpegver header
  let layer := layer header
  let index := brindex header
  1000 *
    if version = 3 ∧ layer = 3 then brtable.getD index 0
    else if version = 3 ∧ layer = 2 then brtable.getD (index + 16) 0
    else if version = 3 ∧ layer = 1 then brtable.getD (index + 32) 0
    else if (version = 2 ∨ version = 0) ∧ layer = 3 then brtable.getD (index + 48) 0
    else if (version = 2 ∨ version = 0) ∧ (layer = 2 ∨ layer = 1) then brtable.getD (index + 64) 0
    else 0

def samplingRate : Nat :=
  srtable.getD (srindex header + if mpegver header = 0 then 8 else if mpegver header = 2 then 4 else 0) 0

/-- The layers are coded downwards: 3 is layer I. -/
def getFrameSize : Nat :=
  let version := mpegver header
  let layer := layer header
  let br := bitrate header
  let sr := samplingRate header
  if badSyncword header = true then 0
  else if version = 1 ∨ 3 < version then 0
  else if layer = 0 ∨ 3 < layer then 0
  else if 3 ≤ srindex header then 0
  else if version = 3 then
    if layer = 3 then 12 * br / sr * 4 + padding header * 4
    else if layer = 2 ∨ layer = 1 then 144 * br / sr + padding header
    else 0
  else if version = 2 ∨ version = 0 then
    if layer = 3 then 12 * br / sr * 4 + padding header * 4
    else if layer = 2 then 144 * br / sr + padding header
    else if layer = 1 then 72 * br / sr + padding header
    else 0
  else 0

def acceptsFirst : Bool :=
  if badSyncword header = true then false
  else if mpegver header = 1 ∨ 3 < mpegver header then false
  else if layer header < 1 ∨ 3 < layer header then false
  else if brindex header < 0x01 ∨ 0x0E < brindex header then false
  else if 0x03 ≤ srindex header then false
  else true

def samplesPerFrame : Nat :=
  if mpegver header = 3 then if layer header = 3 then 384 else 1152
  else if layer header = 3 then 384 else if layer header = 2 then 1152 else 576

end Header

structure Tmpx where
  fs : Option File
  sendFrameNumber : Int
  framesToRead : Int
  totalFrames : Int

/-- The size of the tag in front. A tag at the end of the file sets the version of the
metadata alone. -/
def getStartPos (fs : File) : Nat :=
  let info := ((fs.fseek 0).fread 10).1
  if info.take 3 = [0x49, 0x44, 0x33] then
    byteAt info 9 ||| (byteAt info 8 <<< 7) ||| (byteAt info 7 <<< 14) ||| (byteAt info 6 <<< 21)
  else 0

/-- The position of the first frame of those in the buffer that another one follows. -/
def findFrame : Nat → List UInt8 → Option Nat
  | _, [] => none
  | pos, b :: buf =>
      let rest := b :: buf
      if byteAt rest 0 = 0xFF ∧ byteAt rest 1 &&& 0xE0 = 0xE0 then
        if rest.length < 10 then none
        else if isValidFrameHeader (rest.take cHeaderSize) = true ∧ getFrameSize (rest.take cHeaderSize) ≠ 0 then
          let framelength := getFrameSize (rest.take cHeaderSize)
          if rest.length < framelength + 4 then none
          else if isValidFrameHeader ((rest.drop framelength).take cHeaderSize) = true then some pos
          else findFrame (pos + 1) buf
        else findFrame (pos + 1) buf
      else findFrame (pos + 1) buf

/-- The stream is left at the first frame, or where it is when there is none. -/
def seekTo1Frame (fs : File) : Option Nat × File :=
  let startPos := getStartPos fs
  let (buf, fs) := (fs.fseek startPos).fread 50000
  match findFrame 0 buf with
  | some pos => (some (pos + startPos), fs.fseek (pos + startPos))
  | none => (none, fs)

/-- The loop over the frames behind the first header. The end of the file is met by the
read at its end alone. `none` where the loop does not end. -/
def countFrames : Nat → File → List UInt8 → Int → Option Int
  | 0, _, _, _ => none
  | fuel + 1, fs, header, frame =>
      let frameLength := getFrameSize header
      if frameLength = 0 ∨ 50000 < frameLength then some frame
      else
        let frame := i32 (frame + 1)
        if cHeaderSize < frameLength then
          let (header, fs) := (fs.fseekCur ((frameLength : Int) - cHeaderSize)).fread cHeaderSize
          if header.length < cHeaderSize then some frame
          else countFrames fuel fs header frame
        else some frame

theorem rest_fseekCur (fs : File) {size : Nat} (h : cHeaderSize ≤ size) :
    (fs.fseekCur ((size : Int) - cHeaderSize)).rest = fs.rest.drop (size - cHeaderSize) := by
  have hnot : ¬ (fs.pos : Int) + ((size : Int) - cHeaderSize) < 0 := by omega
  have hpos : ((fs.pos : Int) + ((size : Int) - cHeaderSize)).toNat = fs.pos + (size - cHeaderSize) := by omega
  rw [File.fseekCur, if_neg hnot, hpos, File.rest, File.rest, List.drop_drop]

/-- The value of `mpx_GetFileInfo` and its arguments, less `m_play_time`, which it leaves alone. -/
structure FileInfo where
  retValue : Int
  br : ℚ
  spf : Int
  sr : Int
  frame : Int
  ch : Int
  framesToRead : Int

/-- In kbit/s. The quotient is one of unsigned integers. -/
def averageBitrate (fileSize : Nat) (playtime : Int) : ℚ :=
  float (float (float (fileSize / (playtime % 2 ^ 64).toNat : Nat) * 8) / 1000)

def playInfo (t : Tmpx) (info : FileInfo) (fs : File) (header : List UInt8) (frame : Int) :
    Option (FileInfo × Tmpx) :=
  let spf := samplesPerFrame header
  let sr := samplingRate header
  let channels := (byteAt header 3 &&& 0xC0) >>> 6
  let playtime := (i32 (spf * frame)).tdiv sr
  -- the division of the size by the time
  if playtime = 0 then none
  else
    let framesToRead : Nat := sr / spf
    some ({ info with
        retValue := 0
        br := averageBitrate fs.bytes.length playtime
        spf := spf
        sr := sr
        frame := frame
        ch := if channels ≤ 2 then 2 else 1
        framesToRead := framesToRead },
      { t with fs := some fs, framesToRead := framesToRead, totalFrames := frame })

/-- `none` where the process ends: a file that plays less than a second divides by zero. The
arguments are given as they are at the call. -/
def getFileInfo (t : Tmpx) (fileExists : Bool) (fopen : Option (List UInt8)) (info : FileInfo) :
    Option (FileInfo × Tmpx) :=
  let info := { info with retValue := -1, frame := 0 }
  if fileExists = false then some (info, t)
  else match fopen with
  | none => some (info, { t with fs := none })
  | some bytes =>
      let (pos, fs) := seekTo1Frame ⟨bytes, 0⟩
      match pos with
      | none => some (info, { t with fs := none })
      | some pos =>
          let (header, fs) := fs.fread cHeaderSize
          if header.length < cHeaderSize then some (info, { t with fs := none })
          else if acceptsFirst header = false then some (info, { t with fs := none })
          else do
            let frame ← countFrames (bytes.length + 1) fs header 0
            playInfo t info (fs.fseek pos) header frame

def startPlay (t : Tmpx) : Bool × Tmpx :=
  match t.fs with
  | none => (false, t)
  | some fs =>
      let (pos, fs) := seekTo1Frame fs
      if pos.isSome = true then (true, { t with fs := some fs, sendFrameNumber := 0 })
      else (false, { t with fs := none, sendFrameNumber := 0 })

/-- The variables of the loop of `mpx_GetFrames`. `requests` is what the reads behind the
headers asked for, `buf` what was written of the buffer. -/
structure Reading where
  fs : File
  framesFromFile : Int
  pos : Int
  requests : List Int
  buf : List UInt8
  retValue : Int

/-- The number that an `int` is as a `size_t`. -/
def sizeT (n : Int) : Nat := (n % 2 ^ 64).toNat

def readFrames (t : Tmpx) : Nat → Reading → Reading
  | 0, r => r
  | frames + 1, r =>
      if t.totalFrames ≤ t.sendFrameNumber then r
      else
        let (header, fs) := r.fs.fread cHeaderSize
        if header.length < cHeaderSize then { r with fs := fs }
        else if isValidFrameHeader header = false then { r with fs := fs }
        else
          let length := getFrameSize header
          if length = 0 ∨ 5000 < length then { r with fs := fs }
          else
            let bytesToRead : Int := length - cHeaderSize
            let (body, fs) := fs.fread (sizeT bytesToRead)
            let requests := r.requests ++ [bytesToRead]
            let buf := r.buf ++ header ++ body
            let bufLength := i32 body.length
            if bufLength < bytesToRead then { r with fs := fs, requests := requests, buf := buf }
            else
              let pos := i32 (r.pos + cHeaderSize + bufLength)
              readFrames t frames ⟨fs, r.framesFromFile + 1, pos, requests, buf, pos⟩

/-- The value, the requests and what was written of the buffer. `none` where the stream is a null pointer. -/
def getFrames (t : Tmpx) : Option ((Int × List Int × List UInt8) × Tmpx) := do
  let fs ← t.fs
  let r := readFrames t t.framesToRead.toNat ⟨fs, 0, 0, [], [], 0⟩
  return ((r.retValue, r.requests, r.buf),
    { t with fs := some r.fs, sendFrameNumber := i32 (t.sendFrameNumber + r.framesFromFile) })

end RadioServices.Accordion.Mpx

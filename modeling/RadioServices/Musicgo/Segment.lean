import RadioServices.Lib.CString

namespace RadioServices.Musicgo

open Lib.C

structure Descriptor where
  bytes : List UInt8
  pos : Nat

namespace Descriptor

/-- `lseek` with `SEEK_SET`. It fails, and moves nothing, before the file. -/
def seek (fd : Descriptor) (off : Int) : Descriptor :=
  if off < 0 then fd else { fd with pos := off.toNat }

def seekCur (fd : Descriptor) (off : Int) : Descriptor := fd.seek (fd.pos + off)

def seekEnd (fd : Descriptor) (off : Int) : Descriptor := fd.seek (fd.bytes.length + off)

def read (fd : Descriptor) (n : Nat) : List UInt8 × Descriptor :=
  let data := (fd.bytes.drop fd.pos).take n
  (data, { fd with pos := fd.pos + data.length })

def fileSize (fd : Descriptor) : Int := i32 fd.bytes.length

end Descriptor

/-- What `get_file_segment` leaves: its value, its two arguments and the position. -/
structure Segment where
  found : Bool
  start : Int
  stop : Int
  pos : Nat
  deriving DecidableEq

def byteAt (buf : List UInt8) (i : Nat) : Nat := (buf.getD i 0).toNat

namespace Aac

def sftable : List Nat :=
  [96000, 88200, 64000, 48000, 44100, 32000, 24000, 22050, 16000, 12000, 11025, 8000, 7350, 0, 0, 0]

def syncword (buf : List UInt8) : Nat :=
  ((byteAt buf 0 <<< 4) &&& 0xFF0) ||| ((byteAt buf 1 >>> 4) &&& 0x0F)

def getFrameLength (h3 h4 h5 : Nat) : Nat :=
  ((h3 &&& 0x03) <<< 11) ||| (h4 <<< 3) ||| ((h5 &&& 0xE0) >>> 5)

/-- Whether the header is valid, and the length and the frequency as it leaves
them. Both are zero at the call. -/
def isValidFrameHeader (header : List UInt8) : Bool × Nat × Nat :=
  if syncword header ≠ 0xFFF then (false, 0, 0)
  else if (byteAt header 2 &&& 0xC0) >>> 6 = 3 then (false, 0, 0)
  else
    let frequency := sftable.getD ((byteAt header 2 &&& 0x3C) >>> 2) 0
    if frequency = 0 then (false, 0, 0)
    else
      let length := getFrameLength (byteAt header 3) (byteAt header 4) (byteAt header 5)
      (decide (length ≤ 5000), length, frequency)

/-- The first valid header in the next 50000 bytes, 0 if there is none. -/
def getStartPos (fd : Descriptor) : Nat × Descriptor :=
  let (buf, fd) := fd.read 50000
  let valid (i : Nat) : Bool :=
    let header := buf.drop i
    syncword header == 0xFFF && decide (10 ≤ buf.length - i) && (isValidFrameHeader header).1
  (((List.range buf.length).find? valid).getD 0, fd)

/-- How the loop over the frames ends: by a short read, or with the frames
counted and the frequency last left. -/
inductive Frames
  | short
  | counted (frames frequency : Nat)

/-- The loop over the frames. A frame of length 0 is read again for ever. -/
def frameLoop (fileSize : Int) : Nat → Descriptor → Nat → Int → Option (Frames × Descriptor)
  | 0, _, _, _ => none
  | fuel + 1, fd, frame, next =>
      let (headers, fd) := fd.read 7
      if headers.length < 7 then some (.short, fd)
      else
        let (valid, length, frequency) := isValidFrameHeader headers
        if valid then
          let next := i32 (next + length)
          if next < fileSize then frameLoop fileSize fuel (fd.seekCur ((length : Int) - 7)) (frame + 1) next
          else some (.counted (frame + 1) frequency, fd)
        else some (.counted frame frequency, fd)

/-- The bit rate `aac_SeekForFirstFrame` sets, 0 where it returns false. The
argument is the playing time of some frames at a frequency, computed in floating
point and cut to whole seconds. `none` where the code divides the size by a time
of zero, and where the frequency is 0 and it goes on with an undefined conversion. -/
def seekForFirstFrame (playTime : Nat → Nat → Int) (fd : Descriptor) (startPos : Nat) :
    Option (Int × Descriptor) := do
  let (frames, fd) ← frameLoop fd.fileSize (fd.bytes.length + 1) (fd.seek startPos) 0 0
  match frames with
  | .short => return (0, fd)
  | .counted frames frequency =>
      if frames = 0 then return (0, fd)
      else if playTime frames frequency = 0 then none
      else return (fd.fileSize.tdiv (playTime frames frequency), fd)

def getFileSegment (playTime : Nat → Nat → Int) (fd : Descriptor) (start stop : Int) : Option Segment := do
  let (startPos, fd) := getStartPos fd
  let (bitrate, fd) ← seekForFirstFrame playTime fd startPos
  if bitrate = 0 then return ⟨false, start, stop, fd.pos⟩
  else
    let start := i32 (i32 (start * bitrate) + startPos)
    let (frame, fd) := getStartPos ((fd.seek startPos).seek start)
    return ⟨true, i32 (start + frame), i32 (stop * bitrate), fd.pos⟩

end Aac

namespace Mp3

def srtable : List Nat := [44100, 48000, 32000, 0, 22050, 24000, 16000, 0, 11025, 12000, 8000, 0]

def brtable : List Nat :=
  [0, 32, 64, 96, 128, 160, 192, 224, 256, 288, 320, 352, 384, 416, 448, 0,
   0, 32, 48, 56, 64, 80, 96, 112, 128, 160, 192, 224, 256, 320, 384, 0,
   0, 32, 40, 48, 56, 64, 80, 96, 112, 128, 160, 192, 224, 256, 320, 0,
   0, 32, 48, 56, 64, 80, 96, 112, 128, 144, 160, 176, 192, 224, 256, 0,
   0, 8, 16, 24, 32, 40, 48, 56, 64, 80, 96, 112, 128, 144, 160, 0]

structure FrameHeader where
  ver : Nat
  padding : Nat
  sr : Nat
  brindex : Nat
  layer : Nat

/-- The first byte is compared as a signed one, which never is 0xFF. -/
def isValidFrameHeader (header : List UInt8) : Option FrameHeader :=
  let h1 := byteAt header 1
  let h2 := byteAt header 2
  let ver := (h1 &&& 0x18) >>> 3
  let brindex := (h2 &&& 0xF0) >>> 4
  let srindex := (h2 &&& 0x0C) >>> 2
  if h1 &&& 0xE0 ≠ 0xE0 ∨ ver = 1 ∨ 0x0E < brindex ∨ 0x03 ≤ srindex then none
  else
    let index := if ver = 0 then 8 else if ver = 2 then 4 else 0
    some ⟨ver, (h2 &&& 0x02) >>> 1, srtable.getD (srindex + index) 0, brindex, (h1 &&& 0x06) >>> 1⟩

def calcBitrate (h : FrameHeader) : Nat :=
  let row : Option Nat :=
    if h.ver = 3 then
      match h.layer with
      | 3 => some 0
      | 2 => some 16
      | 1 => some 32
      | _ => none
    else if h.ver = 2 ∨ h.ver = 0 then
      match h.layer with
      | 3 => some 48
      | 2 => some 64
      | 1 => some 64
      | _ => none
    else none
  (row.elim 0 fun row => brtable.getD (h.brindex + row) 0) * 1000

def getFrameSize (header : List UInt8) : Nat :=
  match isValidFrameHeader header with
  | none => 0
  | some h =>
      match h.layer with
      | 3 => 12 * calcBitrate h / h.sr * 4 + h.padding * 4
      | 2 => 144 * calcBitrate h / h.sr + h.padding
      | 1 => (if h.ver = 3 then 144 else 72) * calcBitrate h / h.sr + h.padding
      | _ => 0

/-- The loop over the buffer: where two frames follow each other, and the header
of the second. -/
def frameLoop : List UInt8 → Nat → Option (Nat × List UInt8)
  | [], _ => none
  | c :: rest, pos =>
      if c = 0xFF ∧ byteAt rest 0 &&& 0xE0 = 0xE0 then
        if rest.length + 1 < 10 then none
        else
          let size := getFrameSize (c :: rest)
          if size ≠ 0 then
            if rest.length + 1 < size + 4 then none
            else if getFrameSize ((c :: rest).drop size) ≠ 0 then some (pos, (c :: rest).drop size)
            else frameLoop rest (pos + 1)
          else frameLoop rest (pos + 1)
      else frameLoop rest (pos + 1)

/-- The offset of the first frame from the position, and the bit rate. -/
def seekForFirstFrame (fd : Descriptor) : Option (Nat × Nat) × Descriptor :=
  let (buf, fd) := fd.read 50000
  ((frameLoop buf 0).map fun found =>
    (found.1, ((isValidFrameHeader found.2).map calcBitrate).getD 0), fd)

def getStartPosition (fd : Descriptor) : Int × Descriptor :=
  let (info, fd) := (fd.seek 0).read 10
  if info.length < 10 then (-1, fd)
  else if info.take 3 = [0x49, 0x44, 0x33] then
    (((byteAt info 9 ||| (byteAt info 8 <<< 7) ||| (byteAt info 7 <<< 14) ||| (byteAt info 6 <<< 21) : Nat) : Int), fd)
  else (0, ((fd.seekEnd (-128)).read 10).2)

def getFileSegment (fd : Descriptor) (start stop : Int) : Segment :=
  let (startPos, fd) := getStartPosition fd
  let (first, fd) := seekForFirstFrame (fd.seek startPos)
  match first with
  | none => ⟨false, start, stop, fd.pos⟩
  | some (pos, bitrate) =>
      let begin := i32 (i32 (start * (bitrate / 8 : Nat)) + i32 (startPos + pos))
      let (frame, fd) := seekForFirstFrame (fd.seek begin)
      match frame with
      | none => ⟨true, 0, i32 (stop * (bitrate / 8 : Nat)), fd.pos⟩
      | some (pos, bitrate) => ⟨true, i32 (begin + pos), i32 (stop * (bitrate / 8 : Nat)), fd.pos⟩

end Mp3

def getFileSegment (playTime : Nat → Nat → Int) (isAac : Bool) (fd : Descriptor) (start stop : Int) :
    Option Segment :=
  if isAac then Aac.getFileSegment playTime fd start stop else some (Mp3.getFileSegment fd start stop)

end RadioServices.Musicgo

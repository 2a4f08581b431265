import RadioServices.Lib.SortedMap
import RadioServices.Musicgo.Segment

namespace RadioServices.Musicgo

open Lib Lib.C

def BUFFER_SIZE : Nat := 1024

/-- An accepted token is kept, any other is dropped by the parsing. -/
structure MData where
  isAac : Bool
  token : Option Str

structure TParameters where
  startPosition : Int
  duration : Int
  mData : MData
  mRange : SortedMap Int Int
  pidStatus : Nat

/-- What a file name stands for. -/
inductive Stored
  | absent
  | closed
  | opened (bytes : List UInt8)

structure Header where
  rangeBegin : Int
  rangeEnd : Int
  fileLength : Int
  contentLength : Int

/-- The logged response, the header if it was sent, and the places in the file of
the bytes sent after it. -/
structure Answer where
  response : Nat
  header : Option Header
  body : List Nat

/-- How the calls of `bsend` go, by their number: each sends everything or fails
after some bytes. -/
abbrev Net := Nat → Option Nat

def bsend (outcome : Option Nat) (length : Int) : Bool × Nat :=
  if length ≤ 0 then (true, 0)
  else match outcome with
    | none => (true, length.toNat)
    | some n => (false, min n length.toNat)

def sendLoop (net : Net) (size : Nat) : Nat → Nat → Nat → Int → List Nat
  | 0, _, _, _ => []
  | fuel + 1, k, pos, dataEnd =>
      let got := min BUFFER_SIZE (size - pos)
      if got = 0 then []
      else
        let mLen : Int := if dataEnd < got then dataEnd else got
        let (ok, n) := bsend (net k) mLen
        List.range' pos n ++
          if ok then
            if i32 (dataEnd - mLen) = 0 then []
            else sendLoop net size fuel (k + 1) (pos + got) (i32 (dataEnd - mLen))
          else []

namespace TParameters

/-- The branch of `get_file_data` for a range, with the memory behind the end of
the string. -/
def getBytes (p : TParameters) (pdata behind : Str) : TParameters :=
  let (rangeF, pEnd) := strtol pdata
  let rangeL := (strtol (match pEnd with
    | [] => behind
    | _ :: t => t)).1
  { p with mRange := p.mRange.insert (i32 rangeF) (i32 rangeL.natAbs) }

/-- The segment a client without a token gets. A client with one starts at 0. -/
def segment (p : TParameters) (playTime : Nat → Nat → Int) (bytes : List UInt8) : Option Segment :=
  match p.mData.token with
  | none => getFileSegment playTime p.mData.isAac ⟨bytes, 0⟩ p.startPosition p.duration
  | some _ => some ⟨false, 0, 0, 0⟩

def limit (seg : Segment) (bytes : List UInt8) : Int :=
  if seg.found ∧ seg.stop < i32 bytes.length then seg.stop else i32 bytes.length

def lastByte (seg : Segment) (bytes : List UInt8) (dataEnd : Int) : Int :=
  if dataEnd = 0 then i32 (limit seg bytes - 1) else dataEnd

def firstByte (seg : Segment) (bytes : List UInt8) (dataBegin : Int) : Nat :=
  ((⟨bytes, seg.pos⟩ : Descriptor).seek (i32 (seg.start + dataBegin))).pos

def sendFile (p : TParameters) (playTime : Nat → Nat → Int) (net : Net) (bytes : List UInt8) :
    Option Answer := do
  let (dataBegin, dataEnd) ← p.mRange.entries.head?
  let seg ← p.segment playTime bytes
  let dataEnd := lastByte seg bytes dataEnd
  let pos := firstByte seg bytes dataBegin
  match net 0 with
  | some _ => return ⟨206, none, []⟩
  | none =>
      return ⟨206, some ⟨dataBegin, dataEnd, limit seg bytes, i32 (i32 (dataEnd - dataBegin) + 1)⟩,
        sendLoop net bytes.length (bytes.length + 1) 1 pos (i32 (dataEnd + 1))⟩

/-- `none` where the code reads the range of an empty map or the frames of the
file do not end. -/
def createAnswer (p : TParameters) (playTime : Nat → Nat → Int) (net : Net) (files : Str → Stored)
    (file : Str) : Option Answer :=
  if p.pidStatus ≠ 0 ∨ file = [] then some ⟨405, none, []⟩
  else match files file with
    | .absent => some ⟨404, none, []⟩
    | .closed => some ⟨403, none, []⟩
    | .opened bytes => p.sendFile playTime net bytes

end TParameters

section Body

variable {size : Nat}

theorem bsend_le (outcome : Option Nat) (length : Int) : (bsend outcome length).2 ≤ length.toNat := by
  cases outcome with
  | none =>
      simp only [bsend]
      split
      · exact Nat.zero_le _
      · exact Nat.le_refl _
  | some n =>
      simp only [bsend]
      split
      · exact Nat.zero_le _
      · exact Nat.min_le_right _ _

theorem bsend_ok {outcome : Option Nat} {length : Int} (h : (bsend outcome length).1 = true) :
    (bsend outcome length).2 = length.toNat := by
  cases outcome with
  | none =>
      simp only [bsend]
      split
      · rename_i hle
        exact (Int.toNat_of_nonpos hle).symm
      · rfl
  | some n =>
      simp only [bsend] at h ⊢
      split at h
      · rename_i hle
        rw [if_pos hle]
        exact (Int.toNat_of_nonpos hle).symm
      · cases h

theorem bsend_none (length : Int) : (bsend none length).1 = true := by
  simp only [bsend]
  split <;> rfl

theorem range'_append {pos m n k : Nat} (h : k = m + n) :
    List.range' pos m ++ List.range' (pos + m) n = List.range' pos k := by
  rw [h]
  exact List.range'_append_1

theorem range'_prefix {pos m n : Nat} (h : m ≤ n) : List.range' pos m <+: List.range' pos n :=
  ⟨List.range' (pos + m) (n - m), range'_append (Nat.add_sub_cancel' h).symm⟩

theorem block_cases {pos got : Nat} {dataEnd mLen : Int} (hrange : -2 ^ 31 ≤ dataEnd ∧ dataEnd < 2 ^ 31)
    (hgot : got = min BUFFER_SIZE (size - pos))
    (hmLen : mLen = if dataEnd < got then dataEnd else got) :
    (i32 (dataEnd - mLen) = 0 ∧ mLen.toNat = min (size - pos) dataEnd.toNat) ∨
      (i32 (dataEnd - mLen) ≠ 0 ∧ i32 (dataEnd - mLen) = dataEnd - got ∧ 0 < dataEnd - got ∧ mLen = got) := by
  have hle : got ≤ size - pos := hgot ▸ Nat.min_le_right _ _
  by_cases hlt : dataEnd < got
  · rw [if_pos hlt] at hmLen
    refine .inl ⟨?_, ?_⟩
    · rw [hmLen, Int.sub_self]
      decide
    · rw [hmLen]
      omega
  · rw [if_neg hlt] at hmLen
    rw [hmLen, i32_of_bounds (by omega) (by omega)]
    by_cases heq : dataEnd - got = 0
    · exact .inl ⟨heq, by omega⟩
    · exact .inr ⟨heq, rfl, by omega, rfl⟩

theorem sendLoop_prefix (net : Net) (fuel k pos : Nat) {dataEnd : Int}
    (hrange : -2 ^ 31 ≤ dataEnd ∧ dataEnd < 2 ^ 31) :
    sendLoop net size fuel k pos dataEnd <+: List.range' pos (min (size - pos) dataEnd.toNat) := by
  induction fuel generalizing k pos dataEnd with
  | zero => exact List.nil_prefix
  | succ fuel ih =>
      rw [sendLoop]
      generalize hgot : min BUFFER_SIZE (size - pos) = got
      generalize hmLen : (if dataEnd < (got : Int) then dataEnd else got) = mLen
      dsimp only
      split
      · exact List.nil_prefix
      · have hcases := block_cases hrange hgot.symm hmLen.symm
        have hle := bsend_le (net k) mLen
        cases hok : (bsend (net k) mLen).1 with
        | false =>
            rw [if_neg Bool.false_ne_true, List.append_nil]
            apply range'_prefix
            have hgotle : got ≤ size - pos := hgot ▸ Nat.min_le_right _ _
            rcases hcases with ⟨-, hlen⟩ | ⟨-, -, hpositive, hlen⟩ <;> omega
        | true =>
            rw [if_pos rfl, bsend_ok hok]
            rcases hcases with ⟨hzero, hlen⟩ | ⟨hne, hleft, hpositive, hlen⟩
            · rw [if_pos hzero, List.append_nil]
              exact range'_prefix hlen.le
            · rw [if_neg hne, hleft, hlen, Int.toNat_natCast]
              have htail := @ih (k + 1) (pos + got) (dataEnd - got) (by omega)
              have hsplit : min (size - pos) dataEnd.toNat =
                  got + min (size - (pos + got)) (dataEnd - got).toNat := by omega
              rw [← range'_append hsplit]
              exact (List.prefix_append_right_inj _).mpr htail

theorem sendLoop_all (size fuel k pos : Nat) {dataEnd : Int} (hfuel : size < pos + fuel)
    (hrange : -2 ^ 31 ≤ dataEnd ∧ dataEnd < 2 ^ 31) :
    sendLoop (fun _ => none) size fuel k pos dataEnd =
      List.range' pos (min (size - pos) dataEnd.toNat) := by
  induction fuel generalizing k pos dataEnd with
  | zero =>
      rw [sendLoop, show min (size - pos) dataEnd.toNat = 0 by omega]
      rfl
  | succ fuel ih =>
      rw [sendLoop]
      generalize hgot : min BUFFER_SIZE (size - pos) = got
      generalize hmLen : (if dataEnd < (got : Int) then dataEnd else got) = mLen
      dsimp only
      split
      · rename_i hzero
        have hend : size - pos = 0 := by rw [BUFFER_SIZE] at hgot; omega
        rw [hend, Nat.zero_min]
        rfl
      · rw [bsend_none, if_pos rfl, bsend_ok (bsend_none mLen)]
        rcases block_cases hrange hgot.symm hmLen.symm with ⟨hzero, hlen⟩ | ⟨hne, hleft, hpositive, hlen⟩
        · rw [if_pos hzero, List.append_nil, hlen]
        · rw [if_neg hne, hleft, hlen, Int.toNat_natCast,
            ih (k + 1) (pos + got) (by omega) (by omega)]
          exact range'_append (by omega)

end Body

namespace TParameters

variable {p : TParameters} {playTime : Nat → Nat → Int} {net : Net} {files : Str → Stored} {file : Str}
  {bytes : List UInt8} {dataBegin dataEnd : Int} {seg : Segment}

theorem createAnswer_opened (net : Net) (playTime : Nat → Nat → Int) (hstatus : p.pidStatus = 0)
    (hfile : file ≠ []) (hopen : files file = .opened bytes) :
    p.createAnswer playTime net files file = p.sendFile playTime net bytes := by
  rw [createAnswer, if_neg (by simp [hstatus, hfile]), hopen]

theorem sendFile_of_header (hrange : p.mRange.entries.head? = some (dataBegin, dataEnd))
    (hseg : p.segment playTime bytes = some seg) (hnet : net 0 = none) :
    p.sendFile playTime net bytes =
      let last := lastByte seg bytes dataEnd
      some ⟨206, some ⟨dataBegin, last, limit seg bytes, i32 (i32 (last - dataBegin) + 1)⟩,
        sendLoop net bytes.length (bytes.length + 1) 1 (firstByte seg bytes dataBegin) (i32 (last + 1))⟩ := by
  rw [sendFile, hrange]
  simp [hseg, hnet]

theorem sendFile_of_no_header (hrange : p.mRange.entries.head? = some (dataBegin, dataEnd))
    (hseg : p.segment playTime bytes = some seg) {n : Nat} (hnet : net 0 = some n) :
    p.sendFile playTime net bytes = some ⟨206, none, []⟩ := by
  rw [sendFile, hrange]
  simp [hseg, hnet]

end TParameters

end RadioServices.Musicgo

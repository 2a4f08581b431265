import RadioServices.Musicgo.Parameters

namespace RadioServices.Musicgo.Preview

open Lib Lib.C TParameters

/-- The bytes sent lie in the segment; where there is none, not the whole of a
nonempty file is sent. -/
def Confined (seg : Segment) (size : Nat) (body : List Nat) : Prop :=
  if seg.found then ∀ i ∈ body, seg.start ≤ (i : Int) ∧ (i : Int) < seg.start + seg.stop
  else ¬ (0 < size ∧ ∀ i < size, i ∈ body)

theorem Confined.mono {seg : Segment} {size : Nat} {body rest : List Nat} (h : Confined seg size rest)
    (hsub : body ⊆ rest) : Confined seg size body := by
  rw [Confined] at h ⊢
  split
  · rename_i hfound
    rw [if_pos hfound] at h
    exact fun i hi => h i (hsub hi)
  · rename_i hfound
    rw [if_neg hfound] at h
    exact fun hall => h ⟨hall.1, fun i hi => hsub (hall.2 i hi)⟩

/-- The range `dataBegin-dataEnd`, counted from the segment and without an end if
that is 0, asks for bytes of the segment only, or for none that the file has.
Without a segment it does not ask for all bytes. -/
def InPreview (seg : Segment) (size : Nat) (dataBegin dataEnd : Int) : Prop :=
  let first : Int := if i32 (seg.start + dataBegin) < 0 then seg.pos else i32 (seg.start + dataBegin)
  let length : Int := if seg.found then min (i32 size) seg.stop else i32 size
  let count : Int := i32 ((if dataEnd = 0 then i32 (length - 1) else dataEnd) + 1)
  if seg.found then
    size ≤ first ∨ count ≤ 0 ∨
      seg.start ≤ first ∧ (size ≤ seg.start + seg.stop ∨ first + count ≤ seg.start + seg.stop)
  else ¬ (0 < size ∧ first = 0 ∧ size ≤ count)

theorem confined_range'_iff (seg : Segment) (size first : Nat) (count : Int) :
    Confined seg size (List.range' first (min (size - first) count.toNat)) ↔
      if seg.found then
        (size : Int) ≤ first ∨ count ≤ 0 ∨
          seg.start ≤ first ∧ (size ≤ seg.start + seg.stop ∨ first + count ≤ seg.start + seg.stop)
      else ¬ (0 < size ∧ (first : Int) = 0 ∧ size ≤ count) := by
  simp only [Confined, List.mem_range'_1]
  split
  · constructor
    · intro h
      by_cases hempty : size ≤ first ∨ count ≤ 0
      · omega
      · have hlow := h first (by omega)
        have hhigh := h (first + min (size - first) count.toNat - 1) (by omega)
        omega
    · intro h i hi
      omega
  · refine not_congr ⟨fun ⟨hpos, hall⟩ => ?_, fun ⟨hpos, hfirst, hcount⟩ => ?_⟩
    · have hlow := hall 0 hpos
      have hhigh := hall (size - 1) (by omega)
      omega
    · exact ⟨hpos, fun i hi => by omega⟩

theorem firstByte_eq (seg : Segment) (bytes : List UInt8) (dataBegin : Int) :
    (firstByte seg bytes dataBegin : Int) =
      if i32 (seg.start + dataBegin) < 0 then (seg.pos : Int) else i32 (seg.start + dataBegin) := by
  simp only [firstByte, Descriptor.seek]
  split
  · rfl
  · exact Int.toNat_of_nonneg (by omega)

theorem limit_eq (seg : Segment) (bytes : List UInt8) :
    limit seg bytes = if seg.found then min (i32 bytes.length) seg.stop else i32 bytes.length := by
  rw [limit]
  cases seg.found with
  | true => simp only [true_and, if_true]; omega
  | false => simp

theorem confined_requested_iff (seg : Segment) (bytes : List UInt8) (dataBegin dataEnd : Int) :
    Confined seg bytes.length (List.range' (firstByte seg bytes dataBegin)
      (min (bytes.length - firstByte seg bytes dataBegin) (i32 (lastByte seg bytes dataEnd + 1)).toNat)) ↔
        InPreview seg bytes.length dataBegin dataEnd := by
  rw [InPreview, ← limit_eq, ← firstByte_eq seg bytes]
  exact confined_range'_iff seg bytes.length _ _

variable {p : TParameters} {playTime : Nat → Nat → Int} {files : Str → Stored} {file : Str}
  {bytes : List UInt8} {dataBegin dataEnd : Int} {seg : Segment}

theorem createAnswer_body (hstatus : p.pidStatus = 0) (hfile : file ≠ [])
    (hopen : files file = .opened bytes) (hrange : p.mRange.entries.head? = some (dataBegin, dataEnd))
    (hseg : p.segment playTime bytes = some seg) :
    let requested := List.range' (firstByte seg bytes dataBegin)
      (min (bytes.length - firstByte seg bytes dataBegin) (i32 (lastByte seg bytes dataEnd + 1)).toNat)
    (∀ net answer, p.createAnswer playTime net files file = some answer → answer.body <+: requested) ∧
      ∃ answer, p.createAnswer playTime (fun _ => none) files file = some answer ∧ answer.body = requested := by
  have hbounds := i32_bounds (lastByte seg bytes dataEnd + 1)
  have hopened (net : Net) := createAnswer_opened net playTime hstatus hfile hopen
  intro requested
  constructor
  · intro net answer hanswer
    rw [hopened net] at hanswer
    cases hnet : net 0 with
    | none =>
        rw [sendFile_of_header hrange hseg hnet] at hanswer
        cases hanswer
        exact sendLoop_prefix net _ _ _ hbounds
    | some n =>
        rw [sendFile_of_no_header hrange hseg hnet] at hanswer
        cases hanswer
        exact List.nil_prefix
  · rw [hopened, sendFile_of_header hrange hseg rfl]
    exact ⟨_, rfl, sendLoop_all _ _ _ _ (by omega) hbounds⟩

/-- A client without a token is confined to the preview, whatever sends fail, if
and only if its range asks for nothing else. -/
theorem createAnswer_confined_iff (htoken : p.mData.token = none) (hstatus : p.pidStatus = 0)
    (hfile : file ≠ []) (hopen : files file = .opened bytes)
    (hrange : p.mRange.entries.head? = some (dataBegin, dataEnd))
    (hseg : getFileSegment playTime p.mData.isAac ⟨bytes, 0⟩ p.startPosition p.duration = some seg) :
    (∀ net answer, p.createAnswer playTime net files file = some answer →
      Confined seg bytes.length answer.body) ↔ InPreview seg bytes.length dataBegin dataEnd := by
  have hsegment : p.segment playTime bytes = some seg := by
    rw [TParameters.segment, htoken]
    exact hseg
  obtain ⟨hbeginning, answer, hanswer, hbody⟩ := createAnswer_body hstatus hfile hopen hrange hsegment
  have hrequested := confined_requested_iff seg bytes dataBegin dataEnd
  constructor
  · intro h
    have hconfined := h _ answer hanswer
    rw [hbody] at hconfined
    exact hrequested.mp hconfined
  · intro h net answer hanswer
    exact Confined.mono (hrequested.mpr h) (hbeginning net answer hanswer).subset

def song : List UInt8 := (List.replicate 40 ([0xFF, 0xE3, 0x18, 0] ++ List.replicate 68 0)).flatten

def songFile (_ : Str) : Stored := .opened song

/-- A client without a token, who gets one second from the first on. -/
def visitor (dataBegin dataEnd : Int) : TParameters :=
  ⟨1, 1, ⟨false, none⟩, SortedMap.empty.insert dataBegin dataEnd, 0⟩

theorem song_segment (dataBegin dataEnd : Int) :
    getFileSegment (fun _ _ => 1) (visitor dataBegin dataEnd).mData.isAac ⟨song, 0⟩
      (visitor dataBegin dataEnd).startPosition (visitor dataBegin dataEnd).duration =
        some ⟨true, 1008, 1000, 2880⟩ :=
  congrArg some (by decide +kernel : Mp3.getFileSegment ⟨song, 0⟩ 1 1 = ⟨true, 1008, 1000, 2880⟩)

theorem song_length : song.length = 2880 := by
  decide +kernel

theorem createAnswer_confined_second : InPreview ⟨true, 1008, 1000, 2880⟩ song.length 0 999 ∧
    ∀ net answer, (visitor 0 999).createAnswer (fun _ _ => 1) net songFile ['1'] = some answer →
      Confined ⟨true, 1008, 1000, 2880⟩ song.length answer.body := by
  have hin : InPreview ⟨true, 1008, 1000, 2880⟩ song.length 0 999 := by
    rw [song_length, InPreview]
    decide
  exact ⟨hin, (createAnswer_confined_iff rfl rfl (List.cons_ne_nil _ _) rfl rfl
    (song_segment 0 999)).mpr hin⟩

theorem not_confined :
    ¬ ∀ (p : TParameters) playTime net files file bytes seg answer, p.mData.token = none →
      files file = .opened bytes →
      getFileSegment playTime p.mData.isAac ⟨bytes, 0⟩ p.startPosition p.duration = some seg →
      p.createAnswer playTime net files file = some answer → Confined seg bytes.length answer.body := by
  intro h
  have hopen : songFile ['1'] = .opened song := rfl
  obtain ⟨-, answer, hanswer, hbody⟩ := createAnswer_body (p := visitor 0 1871) rfl
    (List.cons_ne_nil _ _) hopen rfl (song_segment 0 1871)
  have hconfined := h _ _ _ _ _ _ _ _ rfl rfl (song_segment 0 1871) hanswer
  rw [hbody, confined_requested_iff, song_length, InPreview] at hconfined
  exact absurd hconfined (by decide)

end RadioServices.Musicgo.Preview

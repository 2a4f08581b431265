import RadioServices.Lib.Cut
import RadioServices.Lib.Scan
import RadioServices.Accordion.MpxHeader

namespace RadioServices.Accordion.MpxSeek

open Lib.Scan Mpx

/-- What the loop does with the rest of the buffer from a position on. -/
def verdict (rest : List UInt8) : Verdict :=
  let header := rest.take cHeaderSize
  if byteAt rest 0 = 0xFF ∧ byteAt rest 1 &&& 0xE0 = 0xE0 then
    if rest.length < 10 then .stop
    else if isValidFrameHeader header = true ∧ getFrameSize header ≠ 0 then
      if rest.length < getFrameSize header + 4 then .stop
      else if isValidFrameHeader ((rest.drop (getFrameSize header)).take cHeaderSize) = true then .accept
      else .pass
    else .pass
  else .pass

def FrameFollowed (rest : List UInt8) : Prop :=
  let header := rest.take cHeaderSize
  ValidHeader header ∧ 0 < getFrameSize header ∧ getFrameSize header + 4 ≤ rest.length ∧
    ValidHeader ((rest.drop (getFrameSize header)).take cHeaderSize)

/-- The bytes of the buffer, from the position on, that a turn of the loop reads. -/
def readsAt (rest : List UInt8) : List Nat :=
  let header := rest.take cHeaderSize
  if byteAt rest 0 = 0xFF then
    if byteAt rest 1 &&& 0xE0 = 0xE0 then
      if rest.length < 10 then [0, 1]
      else if isValidFrameHeader header = true ∧ getFrameSize header ≠ 0 then
        if rest.length < getFrameSize header + 4 then [0, 1] ++ List.range 4
        else [0, 1] ++ List.range 4 ++ (List.range 4).map (getFrameSize header + ·)
      else [0, 1] ++ List.range 4
    else [0, 1]
  else [0]

/-- The buffer is printed as a text, to the first zero byte. Behind the bytes read the text may be longer. -/
def printReads (buf : List UInt8) : List Nat := List.range ((buf.takeWhile (· ≠ 0)).length + 1)

def seekReads (buf : List UInt8) : List Nat := printReads buf ++ scanReads verdict readsAt 0 buf

section Loop

theorem findFrame_eq_scan (pos : Nat) (buf : List UInt8) : findFrame pos buf = scan verdict pos buf := by
  induction buf generalizing pos with
  | nil => rfl
  | cons b buf ih =>
      rw [findFrame, scan, verdict]
      dsimp only
      split
      · split
        · rfl
        split
        · split
          · rfl
          split
          · rfl
          · exact ih _
        · exact ih _
      · exact ih _

theorem verdict_of_frameFollowed {rest : List UInt8} (h : FrameFollowed rest) : verdict rest = .accept := by
  obtain ⟨hheader, hpos, hlength, hnext⟩ := h
  have hsize := hheader.le_getFrameSize
  have hsync : byteAt rest 0 = 0xFF ∧ byteAt rest 1 &&& 0xE0 = 0xE0 := by
    obtain ⟨hfirst, hsecond, -⟩ := hheader
    rw [byteAt_take (by decide)] at hfirst hsecond
    exact ⟨hfirst, hsecond⟩
  rw [verdict, if_pos hsync, if_neg (by omega), if_pos ⟨hheader.isValidFrameHeader, Nat.pos_iff_ne_zero.mp hpos⟩,
    if_neg (by omega), if_pos hnext.isValidFrameHeader]

end Loop

section Reads

variable {rest buf : List UInt8}

theorem readsAt_lt (h : 2 ≤ rest.length) {o : Nat} (ho : o ∈ readsAt rest) : o < rest.length := by
  have hpair : ∀ o ∈ [0, 1], o < rest.length := by
    simp only [List.mem_cons, List.not_mem_nil, or_false]
    omega
  have hheader : ¬ rest.length < 10 → ∀ o ∈ [0, 1] ++ List.range 4, o < rest.length := by
    intro hlong o ho
    rcases List.mem_append.mp ho with ho | ho
    · exact hpair o ho
    · have hlt := List.mem_range.mp ho
      omega
  rw [readsAt] at ho
  split at ho
  · split at ho
    · split at ho
      · exact hpair o ho
      rename_i hlong
      split at ho
      · split at ho
        · exact hheader hlong o ho
        rename_i hinside
        rcases List.mem_append.mp ho with ho | ho
        · exact hheader hlong o ho
        · obtain ⟨i, hi, rfl⟩ := List.mem_map.mp ho
          have hlt := List.mem_range.mp hi
          omega
      · exact hheader hlong o ho
    · exact hpair o ho
  · rw [List.mem_singleton] at ho
    omega

/-- The byte behind the last one is read when the last one may begin a syncword. -/
theorem readsAt_inside (hne : rest ≠ []) : (∀ o ∈ readsAt rest, o < rest.length) ↔ rest ≠ [0xFF] := by
  match rest, hne with
  | [b], _ =>
      by_cases hb : b = 0xFF
      · rw [hb]
        exact iff_of_false (by decide) (fun h => h rfl)
      · have hfirst : ¬ byteAt [b] 0 = 0xFF := fun h => hb (UInt8.toNat_inj.mp h)
        rw [readsAt, if_neg hfirst]
        exact iff_of_true (by simp) (by simpa using hb)
  | b :: c :: rest, _ =>
      have hlength : 2 ≤ (b :: c :: rest).length := by simp
      exact iff_of_true (fun o ho => readsAt_lt hlength ho) (by simp)

/-- The last byte looks like the beginning of a frame, and the loop comes to it. -/
def LastSync (buf : List UInt8) : Prop := buf.getLast? = some 0xFF ∧ Passed verdict buf (buf.length - 1)

theorem scanReads_inside (buf : List UInt8) :
    (∀ i ∈ scanReads verdict readsAt 0 buf, i < buf.length) ↔ ¬ LastSync buf := by
  have hdrop : ∀ k < buf.length, buf.drop k = [0xFF] ↔ k = buf.length - 1 ∧ buf.getLast? = some 0xFF := by
    intro k hk
    have hlast : (buf.drop k).getLast? = buf.getLast? := by rw [List.getLast?_drop, if_neg (Nat.not_le.mpr hk)]
    constructor
    · intro h
      have hlength := congrArg List.length h
      rw [List.length_drop, List.length_singleton] at hlength
      rw [← hlast, h]
      exact ⟨by omega, rfl⟩
    · rintro ⟨heq, hff⟩
      have hlength : (buf.drop k).length = 1 := by
        rw [List.length_drop]
        omega
      obtain ⟨b, hb⟩ := List.length_eq_one_iff.mp hlength
      rw [hb, hff, List.getLast?_singleton] at hlast
      rw [hb, Option.some.inj hlast]
  constructor
  · rintro hall ⟨hlast, hpassed⟩
    have hpos : 0 < buf.length := List.length_pos_iff.mpr fun h => by rw [h] at hlast; cases hlast
    have hk : buf.length - 1 < buf.length := by omega
    have hdrop := (hdrop _ hk).mpr ⟨rfl, hlast⟩
    have hread : 1 ∈ readsAt (buf.drop (buf.length - 1)) := by
      rw [hdrop]
      decide
    have hlt := hall _ (mem_scanReads_iff.mpr ⟨_, hk, hpassed, 1, hread, rfl⟩)
    omega
  · intro hlast i hi
    obtain ⟨k, hk, hpassed, o, ho, rfl⟩ := mem_scanReads_iff.mp hi
    have hne : buf.drop k ≠ [] := fun h => by
      have hle := List.drop_eq_nil_iff.mp h
      omega
    have hnot : buf.drop k ≠ [0xFF] := fun h => by
      obtain ⟨rfl, hff⟩ := (hdrop k hk).mp h
      exact hlast ⟨hff, hpassed⟩
    have hlt := (readsAt_inside hne).mpr hnot o ho
    rw [List.length_drop] at hlt
    omega

theorem printReads_inside (buf : List UInt8) : (∀ i ∈ printReads buf, i < buf.length) ↔ 0 ∈ buf := by
  have hrange : (∀ i ∈ printReads buf, i < buf.length) ↔ (buf.takeWhile (· ≠ 0)).length < buf.length := by
    rw [printReads]
    constructor
    · exact fun h => h _ (List.mem_range.mpr (Nat.lt_succ_self _))
    · exact fun h i hi => Nat.lt_of_le_of_lt (Nat.le_of_lt_succ (List.mem_range.mp hi)) h
  rw [hrange, Lib.Cut.length_takeWhile_ne_lt]

theorem seekReads_inside (buf : List UInt8) :
    (∀ i ∈ seekReads buf, i < buf.length) ↔ 0 ∈ buf ∧ ¬ LastSync buf := by
  rw [← printReads_inside, ← scanReads_inside, seekReads, List.forall_mem_append]

end Reads

section Result

def seekBuffer (fs : File) : List UInt8 := ((fs.fseek (getStartPos fs)).fread 50000).1

theorem seekTo1Frame_eq (fs : File) : (seekTo1Frame fs).1 = scan verdict (getStartPos fs) (seekBuffer fs) := by
  rw [seekTo1Frame, scan_eq_map, ← findFrame_eq_scan, seekBuffer]
  dsimp only
  split
  · rename_i pos hfind
    rw [hfind, Option.map_some, Nat.add_comm]
  · rename_i hfind
    rw [hfind]
    rfl

/-- The first frame is found, -1 is returned without one, and all that is read was read from the file. -/
structure FoundExactly (fs : File) : Prop where
  found : ∀ p, (seekTo1Frame fs).1 = some p ↔
    ∃ i, p = getStartPos fs + i ∧ IsLeast (candidates (seekBuffer fs) FrameFollowed) i
  missing : (seekTo1Frame fs).1 = none ↔ ∀ i < (seekBuffer fs).length, ¬ FrameFollowed ((seekBuffer fs).drop i)
  inside : ∀ i ∈ seekReads (seekBuffer fs), i < (seekBuffer fs).length

theorem foundExactly_iff (fs : File) :
    FoundExactly fs ↔ NoFalse verdict (seekBuffer fs) FrameFollowed ∧ 0 ∈ seekBuffer fs ∧ ¬ LastSync (seekBuffer fs) := by
  have hexact : Exact verdict (seekBuffer fs) FrameFollowed (getStartPos fs) ↔ _ :=
    exact_iff (fun _ => verdict_of_frameFollowed) _
  rw [← hexact, ← seekReads_inside]
  constructor
  · rintro ⟨hfound, hmissing, hinside⟩
    rw [seekTo1Frame_eq] at hfound hmissing
    exact ⟨⟨hfound, hmissing⟩, hinside⟩
  · rintro ⟨⟨hfound, hmissing⟩, hinside⟩
    rw [← seekTo1Frame_eq] at hfound hmissing
    exact ⟨hfound, hmissing, hinside⟩

/-- Four bytes that look like the header of a frame of 1045 bytes, and two frames of 24. -/
def falseSync : List UInt8 :=
  let frame : List UInt8 := [0xFF, 0xF3, 0x14, 0xC0] ++ List.replicate 20 0
  [0xFF, 0xFB, 0xE2, 0xC0] ++ frame ++ frame

/-- The false header ends the search. -/
theorem falseSync_ends_search : ¬ ∀ fs, FoundExactly fs := by
  intro hall
  have hnone : (seekTo1Frame ⟨falseSync, 0⟩).1 = none := by decide +kernel
  have hframe : FrameFollowed ((seekBuffer ⟨falseSync, 0⟩).drop 4) := by
    simp only [FrameFollowed, ValidHeader]
    decide +kernel
  exact (hall ⟨falseSync, 0⟩).missing.mp hnone 4 (by decide +kernel) hframe

end Result

end RadioServices.Accordion.MpxSeek

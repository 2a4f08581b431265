import RadioServices.Musicgo.Parameters

namespace RadioServices.Musicgo.Range

open Lib Lib.C TParameters

/-- The text `b-e`, or `b-` without an end. -/
def RangeText (text : Str) (b : Nat) (e : Option Nat) : Prop :=
  ∃ first last : Str, text = first ++ '-' :: last ∧ first ≠ [] ∧ (∀ c ∈ first, c.isDigit = true) ∧
    decimal first 0 = b ∧ (∀ c ∈ last, c.isDigit = true) ∧
      match e with
      | none => last = []
      | some e => last ≠ [] ∧ decimal last 0 = e

/-- The answer announces the bytes `b` to `e` and sends them. -/
structure Exact (answer : Answer) (b e : Nat) : Prop where
  announced : answer.header.map Header.contentLength = some ((e : Int) - b + 1)
  body : answer.body = List.range' b (e - b + 1)

theorem getBytes_entries {p : TParameters} (hempty : p.mRange = .empty) {text : Str} {b : Nat}
    {e : Option Nat} (htext : RangeText text b e) (behind : Str) :
    (p.getBytes text behind).mRange.entries.head? =
      some (i32 (saturate b), i32 (saturate ((e.getD 0 : Nat) : Int)).natAbs) := by
  obtain ⟨first, last, rfl, hfirst, hdigits, hb, hlast, he⟩ := htext
  have hdash : NoDigit ('-' :: last) := by
    intro c t h
    rw [← (List.cons.inj h).1]
    rfl
  have hhead := strtol_digits hfirst hdigits hdash
  rw [hb] at hhead
  have htail : (strtol last).1 = saturate ((e.getD 0 : Nat) : Int) := by
    cases e with
    | none =>
        rw [show last = [] from he]
        rfl
    | some e =>
        have hnil : NoDigit [] := fun c t h => by cases h
        have h := strtol_digits he.1 hlast hnil
        rw [List.append_nil, he.2] at h
        rw [h]
        rfl
  simp only [getBytes, hhead, htail, hempty]
  rfl

theorem i32_eq_add (n : Int) : ∃ k, i32 n = n + 2 ^ 32 * k := by
  refine ⟨-(Int.bdiv n (2 ^ 32)), ?_⟩
  have h := Int.bmod_add_bdiv n (2 ^ 32)
  rw [i32]
  omega

section Arithmetic

theorem exact_iff {header : Header} {first count b e : Nat} (hbe : b ≤ e) :
    Exact ⟨206, some header, List.range' first count⟩ b e ↔
      header.contentLength = (e : Int) - b + 1 ∧ first = b ∧ count = e - b + 1 := by
  constructor
  · rintro ⟨hannounced, hbody⟩
    have hlength := congrArg List.length hbody
    rw [List.length_range', List.length_range'] at hlength
    have hhead := congrArg List.head? hbody
    have hpos : count ≠ 0 := by omega
    rw [List.head?_range', List.head?_range', if_neg hpos, if_neg (by omega)] at hhead
    exact ⟨Option.some.inj hannounced, Option.some.inj hhead, hlength⟩
  · rintro ⟨hannounced, rfl, rfl⟩
    exact ⟨congrArg some hannounced, rfl⟩

theorem end_le {b e : Nat} {dataBegin last : Int} (hbe : b ≤ e) (hb : dataBegin = b) (hlt : (b : Int) < 2 ^ 31)
    (hannounced : i32 (i32 (last - dataBegin) + 1) = (e : Int) - b + 1)
    (hsent : e - b + 1 ≤ (i32 (last + 1)).toNat) : e ≤ 2 ^ 31 - 2 := by
  obtain ⟨k₁, hk₁⟩ := i32_eq_add (i32 (last - dataBegin) + 1)
  obtain ⟨k₂, hk₂⟩ := i32_eq_add (last - dataBegin)
  obtain ⟨k₃, hk₃⟩ := i32_eq_add (last + 1)
  have hbound := i32_bounds (last + 1)
  omega

theorem i32_natAbs_of_lt {n : Nat} (h : n < 2 ^ 31) : i32 (saturate n).natAbs = n := by
  rw [saturate_of_lt h]
  exact i32_of_bounds (by omega) (by omega)

theorem begin_eq {b : Nat} (h : (i32 (saturate b)).toNat = b) : i32 (saturate b) = b ∧ (b : Int) < 2 ^ 31 := by
  have hbounds := i32_bounds (saturate b)
  have hlt : b < 2 ^ 31 := by omega
  exact ⟨i32_saturate hlt, by omega⟩

theorem announced_eq {b e : Nat} (hbe : b ≤ e) (he : e ≤ 2 ^ 31 - 2) :
    i32 (i32 ((e : Int) - b) + 1) = (e : Int) - b + 1 := by
  rw [i32_of_bounds (n := (e : Int) - b) (by omega) (by omega)]
  exact i32_of_bounds (by omega) (by omega)

/-- The end of the range as the loop takes it, 0 meaning no end. -/
def lastOf (L : Nat) (e : Int) : Int := if e = 0 then i32 (i32 L - 1) else e

/-- What an exact answer asks of the numbers of the request. -/
def ExactNumbers (L : Nat) (b : Nat) (e : Option Nat) : Prop :=
  let last := lastOf L (i32 (saturate ((e.getD 0 : Nat) : Int)).natAbs)
  i32 (i32 (last - i32 (saturate b)) + 1) = ((e.getD (L - 1) : Nat) : Int) - b + 1 ∧
    (i32 (saturate b)).toNat = b ∧
      min (L - (i32 (saturate b)).toNat) (i32 (last + 1)).toNat = e.getD (L - 1) - b + 1

theorem ExactNumbers.end_le {L b : Nat} {e : Option Nat} (hb : b ≤ e.getD (L - 1))
    (h : ExactNumbers L b e) : e.getD (L - 1) ≤ 2 ^ 31 - 2 := by
  obtain ⟨hannounced, hbegin, hcount⟩ := h
  obtain ⟨heq, hlt⟩ := begin_eq hbegin
  have hsent := hcount.symm.le.trans (Nat.min_le_right _ _)
  exact Range.end_le hb heq hlt hannounced hsent

theorem exactNumbers_explicit {L b e : Nat} (hb : b ≤ e) (he : e < L) (hend : e ≤ 2 ^ 31 - 2) :
    ExactNumbers L b (some e) ↔ e ≠ 0 ∧ (b = 0 ∨ e = L - 1) ∨ e = 0 ∧ L % 2 ^ 32 = 1 := by
  have hbegin := i32_saturate (n := b) (by omega)
  have hlast := i32_natAbs_of_lt (n := e) (by omega)
  simp only [ExactNumbers, Option.getD_some, hbegin, hlast, Int.toNat_natCast, lastOf, true_and]
  by_cases hzero : e = 0
  · subst hzero
    obtain rfl : b = 0 := by omega
    obtain ⟨k₁, hk₁⟩ := i32_eq_add L
    obtain ⟨k₂, hk₂⟩ := i32_eq_add (i32 L - 1)
    have hbound := i32_bounds (i32 L - 1)
    have hself := i32_of_bounds hbound.1 hbound.2
    obtain ⟨k₃, hk₃⟩ := i32_eq_add (i32 (i32 L - 1) + 1)
    rw [show ((0 : Nat) : Int) = 0 from rfl, if_pos rfl, Int.sub_zero, hself]
    constructor
    · intro h
      omega
    · intro h
      have hzero : i32 (i32 L - 1) = 0 := by omega
      rw [hzero]
      refine ⟨by decide, ?_⟩
      have hone : (i32 (0 + 1)).toNat = 1 := by decide
      rw [hone]
      omega
  · rw [if_neg (by omega), announced_eq hb hend, i32_of_bounds (n := (e : Int) + 1) (by omega) (by omega)]
    omega

theorem exactNumbers_open {L b : Nat} (hb : b ≤ L - 1) (hL : 0 < L) (hend : L - 1 ≤ 2 ^ 31 - 2) :
    ExactNumbers L b none := by
  have hbegin := i32_saturate (n := b) (by omega)
  have hlast : lastOf L (i32 (saturate ((0 : Nat) : Int)).natAbs) = ((L - 1 : Nat) : Int) := by
    rw [i32_natAbs_of_lt (by omega), lastOf, if_pos (by rfl), i32_of_bounds (n := (L : Int)) (by omega) (by omega)]
    rw [i32_of_bounds (by omega) (by omega)]
    omega
  simp only [ExactNumbers, Option.getD_none, hbegin, hlast, Int.toNat_natCast, true_and]
  rw [announced_eq hb hend, i32_of_bounds (n := ((L - 1 : Nat) : Int) + 1) (by omega) (by omega)]
  omega

end Arithmetic

variable {p : TParameters} {files : Str → Stored} {file text : Str} {bytes : List UInt8} {b : Nat}
  {e : Option Nat}

theorem exact_iff_numbers (playTime : Nat → Nat → Int) (behind : Str) (htoken : p.mData.token ≠ none)
    (hstatus : p.pidStatus = 0) (hempty : p.mRange = .empty) (hfile : file ≠ [])
    (hopen : files file = .opened bytes) (htext : RangeText text b e) (hb : b ≤ e.getD (bytes.length - 1)) :
    (∃ answer, (p.getBytes text behind).createAnswer playTime (fun _ => none) files file = some answer ∧
      Exact answer b (e.getD (bytes.length - 1))) ↔ ExactNumbers bytes.length b e := by
  have hsegment : (p.getBytes text behind).segment playTime bytes = some ⟨false, 0, 0, 0⟩ := by
    obtain ⟨token, htoken⟩ := Option.ne_none_iff_exists'.mp htoken
    have hsame : (p.getBytes text behind).mData.token = some token := htoken
    rw [TParameters.segment, hsame]
  have hrange := getBytes_entries hempty htext behind
  have hfirst : firstByte ⟨false, 0, 0, 0⟩ bytes (i32 (saturate b)) = (i32 (saturate b)).toNat := by
    have hbounds := i32_bounds (saturate b)
    have hself := i32_of_bounds hbounds.1 hbounds.2
    simp only [firstByte, Int.zero_add, hself, Descriptor.seek]
    split
    · exact (Int.toNat_of_nonpos (by omega)).symm
    · rfl
  have hlast (dataEnd : Int) : lastByte ⟨false, 0, 0, 0⟩ bytes dataEnd = lastOf bytes.length dataEnd := by
    simp [lastByte, lastOf, limit]
  have hanswer := (createAnswer_opened (p := p.getBytes text behind) (fun _ => none) playTime
    hstatus hfile hopen).trans
      (sendFile_of_header hrange hsegment rfl)
  have hbody := sendLoop_all bytes.length (bytes.length + 1) 1 (i32 (saturate b)).toNat
    (by omega) (i32_bounds (lastByte ⟨false, 0, 0, 0⟩ bytes (i32 (saturate ((e.getD 0 : Nat) : Int)).natAbs) + 1))
  rw [hfirst] at hanswer
  rw [hlast] at hbody
  simp only [hlast, hbody] at hanswer
  rw [hanswer]
  simp only [Option.some.injEq, exists_eq_left']
  rw [exact_iff hb, ExactNumbers]

/-- With a token a range `b-e` of a file of length `L` is answered exactly if and
only if it begins at 0 or ends at the last byte, and its end is not taken for no
end; without an end it is, below 2 GiB. -/
theorem createAnswer_exact_iff (playTime : Nat → Nat → Int) (behind : Str) (htoken : p.mData.token ≠ none)
    (hstatus : p.pidStatus = 0) (hempty : p.mRange = .empty) (hfile : file ≠ [])
    (hopen : files file = .opened bytes) (htext : RangeText text b e) (hb : b ≤ e.getD (bytes.length - 1))
    (he : e.getD (bytes.length - 1) < bytes.length) :
    (∃ answer, (p.getBytes text behind).createAnswer playTime (fun _ => none) files file = some answer ∧
      Exact answer b (e.getD (bytes.length - 1))) ↔
    match e with
    | none => bytes.length < 2 ^ 31
    | some e => e ≤ 2 ^ 31 - 2 ∧
        (e ≠ 0 ∧ (b = 0 ∨ e = bytes.length - 1) ∨ e = 0 ∧ bytes.length % 2 ^ 32 = 1) := by
  rw [exact_iff_numbers playTime behind htoken hstatus hempty hfile hopen htext hb]
  have hend := ExactNumbers.end_le hb
  cases e with
  | none =>
      simp only [Option.getD_none] at hb he hend ⊢
      constructor
      · intro h
        have hle := hend h
        omega
      · intro h
        exact exactNumbers_open hb (by omega) (by omega)
  | some e =>
      simp only [Option.getD_some] at hb he hend ⊢
      constructor
      · intro h
        exact ⟨hend h, (exactNumbers_explicit hb he (hend h)).mp h⟩
      · intro h
        exact (exactNumbers_explicit hb he h.1).mpr h.2

/-- A client with a token, before its range is read. -/
def client : TParameters :=
  ⟨10, 40, ⟨true, some "0123456789abcdef0123456789abcdef".toList⟩, .empty, 0⟩

def tenBytes (_ : Str) : Stored := .opened (List.replicate 10 0)

def aacFile : Str := "/media/1.aac".toList

theorem rangeText_digits : RangeText "0-3".toList 0 (some 3) :=
  ⟨"0".toList, "3".toList, rfl, by decide, List.all_eq_true.mp rfl, by decide, List.all_eq_true.mp rfl, by decide, by decide⟩

theorem createAnswer_exact_head : ∃ answer,
    (client.getBytes "0-3".toList []).createAnswer (fun _ _ => 1) (fun _ => none) tenBytes aacFile = some answer ∧
      Exact answer 0 3 :=
  (createAnswer_exact_iff (e := some 3) (fun _ _ => 1) [] (by decide) rfl rfl (by decide) rfl rangeText_digits
    (by decide) (by decide)).mpr (by decide)

theorem rangeText_middle : RangeText "2-5".toList 2 (some 5) :=
  ⟨"2".toList, "5".toList, rfl, by decide, List.all_eq_true.mp rfl, by decide, List.all_eq_true.mp rfl, by decide, by decide⟩

/-- The bytes 2 to 5 of 10 are asked for, 4 are announced and 6 are sent. -/
theorem createAnswer_not_exact : ¬ ∀ (p : TParameters) (playTime : Nat → Nat → Int) (behind : Str)
    (files : Str → Stored) (file text : Str) (bytes : List UInt8) (b : Nat) (e : Option Nat),
    p.mData.token ≠ none → p.pidStatus = 0 → p.mRange = .empty → file ≠ [] → files file = .opened bytes →
    RangeText text b e → b ≤ e.getD (bytes.length - 1) → e.getD (bytes.length - 1) < bytes.length →
    ∃ answer, (p.getBytes text behind).createAnswer playTime (fun _ => none) files file = some answer ∧
      Exact answer b (e.getD (bytes.length - 1)) := by
  intro h
  obtain ⟨answer, hanswer, hexact⟩ := h client (fun _ _ => 1) [] tenBytes aacFile "2-5".toList
    (List.replicate 10 0) 2 (some 5) (by decide) rfl rfl (by decide) rfl rangeText_middle (by decide) (by decide)
  have hsent : (((client.getBytes "2-5".toList []).createAnswer (fun _ _ => 1) (fun _ => none) tenBytes aacFile).map
      Answer.body) = some [2, 3, 4, 5, 6, 7] := by decide +kernel
  rw [hanswer, Option.map_some, hexact.body] at hsent
  exact absurd hsent (by decide)

end RadioServices.Musicgo.Range

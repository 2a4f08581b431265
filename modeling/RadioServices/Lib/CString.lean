import RadioServices.Lib.Cut
import Mathlib.Algebra.Group.Int.Defs
import Mathlib.Algebra.GroupWithZero.Nat
import Mathlib.Data.Int.Basic
import Mathlib.Data.List.Basic

namespace RadioServices.Lib.C

/-- A string of bytes. A character stands for one byte. -/
abbrev Str := List Char

/-- The value a 32-bit `int` keeps of an integer. -/
def i32 (n : Int) : Int := n.bmod (2 ^ 32)

theorem i32_of_bounds {n : Int} (h₁ : -2 ^ 31 ≤ n) (h₂ : n < 2 ^ 31) : i32 n = n := by
  rw [i32]
  rw [Int.bmod_eq_of_le] <;> omega

theorem i32_bounds (n : Int) : -2 ^ 31 ≤ i32 n ∧ i32 n < 2 ^ 31 := by
  rw [i32]
  have h₁ := @Int.le_bmod n (2 ^ 32) (by decide)
  have h₂ := @Int.bmod_lt n (2 ^ 32) (by decide)
  omega

theorem i32_emod (n : Int) : i32 n % 2 ^ 32 = n % 2 ^ 32 := Int.bmod_emod

theorem i32_eq_self_iff {n : Int} : i32 n = n ↔ -2 ^ 31 ≤ n ∧ n < 2 ^ 31 := by
  constructor
  · intro h
    exact h ▸ i32_bounds n
  · rintro ⟨hlow, hhigh⟩
    exact i32_of_bounds hlow hhigh

theorem i32_le {n : Int} (h : -2 ^ 31 ≤ n) : i32 n ≤ n := by
  have hbounds := i32_bounds n
  have hmod := i32_emod n
  omega

theorem le_i32 {n : Int} (h : n < 2 ^ 31) : n ≤ i32 n := by
  have hbounds := i32_bounds n
  have hmod := i32_emod n
  omega

theorem i32_le_sub {n : Int} (h : 2 ^ 31 ≤ n) : i32 n ≤ n - 2 ^ 32 := by
  have hbounds := i32_bounds n
  have hmod := i32_emod n
  omega

theorem i32_add (a b : Int) : i32 (i32 a + b) = i32 (a + b) := by
  rw [i32, i32, i32, Int.bmod_add_bmod]

def cstr (s : Str) : Str := s.takeWhile (fun c => c ≠ '\x00')

def strchr (s : Str) (c : Char) : Option Str :=
  match s.dropWhile (fun d => d ≠ c) with
  | [] => none
  | t => some t

theorem cstr_of_not_mem {s : Str} (h : '\x00' ∉ s) : cstr s = s := Cut.takeWhile_ne_of_not_mem h

theorem strchr_append {s : Str} {c : Char} (h : c ∉ s) (t : Str) : strchr (s ++ c :: t) c = some (c :: t) := by
  rw [strchr, Cut.dropWhile_ne_append h]

/-- At most `n` characters compared, none beyond a NUL. -/
def strncmpEq (s t : Str) (n : Nat) : Bool := (cstr s).take n == (cstr t).take n

def strcmpEq (s t : Str) : Bool := cstr s == cstr t

def isSpace (c : Char) : Bool := c == ' ' || ('\t' ≤ c && c ≤ '\r')

def digitValue (c : Char) : Nat := c.toNat - '0'.toNat

def readDigits : Str → Nat → Nat × Str
  | [], n => (n, [])
  | c :: s, n => if c.isDigit then readDigits s (10 * n + digitValue c) else (n, c :: s)

/-- The value of a `long`, saturated as `strtol` does on overflow. -/
def saturate (n : Int) : Int := max (-2 ^ 63) (min n (2 ^ 63 - 1))

/-- `strtol(s, &end, 10)`: the value and what follows the number. Without a
digit the value is 0 and nothing is consumed. -/
def strtol (s : Str) : Int × Str :=
  let t := s.dropWhile isSpace
  let (negative, u) := match t with
    | '-' :: u => (true, u)
    | '+' :: u => (false, u)
    | u => (false, u)
  match u with
  | c :: _ =>
      if c.isDigit then
        let (n, rest) := readDigits u 0
        (saturate (if negative then -(n : Int) else n), rest)
      else (0, s)
  | [] => (0, s)

def atoi (s : Str) : Int := i32 (strtol s).1

section Digits

def decimal : Str → Nat → Nat
  | [], n => n
  | c :: s, n => decimal s (10 * n + digitValue c)

def NoDigit (s : Str) : Prop := ∀ c t, s = c :: t → c.isDigit = false

theorem readDigits_of_noDigit {rest : Str} (hrest : NoDigit rest) (n : Nat) :
    readDigits rest n = (n, rest) := by
  unfold readDigits
  split
  · rfl
  · rename_i c t
    rw [hrest c t rfl, if_neg Bool.false_ne_true]

theorem readDigits_append {ds rest : Str} (hds : ∀ c ∈ ds, c.isDigit = true) (hrest : NoDigit rest)
    (n : Nat) : readDigits (ds ++ rest) n = (decimal ds n, rest) := by
  induction ds generalizing n with
  | nil => rw [List.nil_append, readDigits_of_noDigit hrest, decimal]
  | cons c ds ih =>
      have hc := hds c List.mem_cons_self
      have htail := ih (fun d hd => hds d (List.mem_cons_of_mem _ hd)) (10 * n + digitValue c)
      rw [List.cons_append, readDigits, if_pos hc, htail, decimal]

theorem digit_bounds {c : Char} (h : c.isDigit = true) : 48 ≤ c.toNat ∧ c.toNat ≤ 57 := by
  simp only [Char.isDigit, ge_iff_le, Bool.and_eq_true, decide_eq_true_eq, UInt32.le_iff_toNat_le] at h
  exact h

theorem digitValue_le {c : Char} (h : c.isDigit = true) : digitValue c ≤ 9 := by
  have hb := digit_bounds h
  have hzero : '0'.toNat = 48 := rfl
  rw [digitValue]
  omega

theorem strtol_digits {ds rest : Str} (hne : ds ≠ []) (hds : ∀ c ∈ ds, c.isDigit = true)
    (hrest : NoDigit rest) : strtol (ds ++ rest) = (saturate (decimal ds 0), rest) := by
  obtain ⟨c, t, rfl⟩ := List.exists_cons_of_ne_nil hne
  have hc := hds c List.mem_cons_self
  have hb := digit_bounds hc
  have hspace : isSpace c = false := by
    have hne : c ≠ ' ' := fun h => by rw [h] at hc; simp at hc
    have hgt : ¬ c ≤ '\r' := fun h => by
      have hle : c.toNat ≤ 13 := h
      omega
    simp [isSpace, hne, hgt]
  have hminus : c ≠ '-' := fun h => by rw [h] at hc; simp at hc
  have hplus : c ≠ '+' := fun h => by rw [h] at hc; simp at hc
  have hread := readDigits_append hds hrest 0
  simp only [List.cons_append] at hread
  simp [strtol, hspace, hc, hread, hminus, hplus]

theorem noDigit_nil : NoDigit [] := fun _ _ h => by simp at h

theorem atoi_digits {ds rest : Str} (hds : ds ≠ [] ∧ ∀ c ∈ ds, c.isDigit = true) (hrest : NoDigit rest) :
    atoi (ds ++ rest) = i32 (saturate (decimal ds 0)) := by
  rw [atoi, strtol_digits hds.1 hds.2 hrest]

theorem saturate_of_lt {n : Nat} (h : n < 2 ^ 31) : saturate n = n := by
  rw [saturate]
  omega

theorem i32_saturate {n : Nat} (h : n < 2 ^ 31) : i32 (saturate n) = n := by
  rw [saturate_of_lt h]
  exact i32_of_bounds (by omega) (by omega)

theorem decimal_eq_ofDigitChars (s : Str) (n : Nat) : decimal s n = Nat.ofDigitChars 10 s n := by
  induction s generalizing n with
  | nil => rw [decimal, Nat.ofDigitChars_nil]
  | cons c s ih => rw [decimal, ih, Nat.ofDigitChars_cons, digitValue]

theorem atoi_toDigits {rest : Str} (hrest : NoDigit rest) (n : Nat) :
    atoi (Nat.toDigits 10 n ++ rest) = i32 (saturate n) := by
  have hdigits : ∀ c ∈ Nat.toDigits 10 n, c.isDigit = true := fun c hc =>
    Nat.isDigit_of_mem_toDigits (by decide) (by decide) hc
  rw [atoi_digits ⟨Nat.toDigits_ne_nil, hdigits⟩ hrest, decimal_eq_ofDigitChars, Nat.ofDigitChars_ten_toDigits]

end Digits

section Numbers

def numberOf (negative : Bool) : Str → Int
  | [] => 0
  | c :: u =>
      if c.isDigit then saturate (if negative then -((readDigits (c :: u) 0).1 : Int) else (readDigits (c :: u) 0).1)
      else 0

def signedOf : Str → Int
  | [] => 0
  | c :: u => if c = '-' then numberOf true u else if c = '+' then numberOf false u else numberOf false (c :: u)

theorem strtol_fst (s : Str) : (strtol s).1 = signedOf (s.dropWhile isSpace) := by
  rw [strtol]
  cases s.dropWhile isSpace with
  | nil => rfl
  | cons c u =>
      rw [signedOf]
      by_cases hminus : c = '-'
      · subst hminus
        rw [if_pos rfl]
        cases u with
        | nil => rfl
        | cons d u =>
            simp only [numberOf]
            split <;> rfl
      rw [if_neg hminus]
      by_cases hplus : c = '+'
      · subst hplus
        rw [if_pos rfl]
        cases u with
        | nil => rfl
        | cons d u =>
            simp only [numberOf]
            split <;> rfl
      · rw [if_neg hplus]
        simp only [numberOf]
        by_cases hdigit : c.isDigit = true <;> simp [hminus, hplus, hdigit]

/-- What ends a number, whatever part of it stands in front. -/
def Stops (s : Str) : Prop :=
  NoDigit s ∧ ∃ c t, s.dropWhile isSpace = c :: t ∧ c.isDigit = false ∧ c ≠ '-' ∧ c ≠ '+'

variable {s : Str}

theorem readDigits_stop (hs : NoDigit s) (ds : Str) (n : Nat) : (readDigits (ds ++ s) n).1 = (readDigits ds n).1 := by
  induction ds generalizing n with
  | nil => rw [List.nil_append, readDigits_of_noDigit hs, readDigits]
  | cons c ds ih =>
      rw [List.cons_append, readDigits, readDigits]
      split
      · exact ih _
      · rfl

theorem numberOf_stop (hs : NoDigit s) (negative : Bool) (u : Str) : numberOf negative (u ++ s) = numberOf negative u := by
  cases u with
  | nil =>
      cases s with
      | nil => rfl
      | cons c t => rw [List.nil_append, numberOf, numberOf, hs c t rfl, if_neg Bool.false_ne_true]
  | cons c u => rw [List.cons_append, numberOf, numberOf, ← List.cons_append, readDigits_stop hs]

/-- A number is read as if the text ended in front of what ends it. -/
theorem strtol_stop (hs : Stops s) (text : Str) : (strtol (text ++ s)).1 = (strtol text).1 := by
  obtain ⟨hdigit, c, t, hdrop, hc, hminus, hplus⟩ := hs
  rw [strtol_fst, strtol_fst, List.dropWhile_append]
  cases text.dropWhile isSpace with
  | nil =>
      have hzero : signedOf (c :: t) = 0 := by
        rw [signedOf, if_neg hminus, if_neg hplus, numberOf, hc, if_neg Bool.false_ne_true]
      rw [if_pos List.isEmpty_nil, hdrop, hzero]
      rfl
  | cons d u =>
      rw [if_neg (by simp), List.cons_append, signedOf, signedOf, numberOf_stop hdigit, numberOf_stop hdigit,
        ← List.cons_append, numberOf_stop hdigit]

end Numbers

end RadioServices.Lib.C

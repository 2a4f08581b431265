import RadioServices.Lib.CString
import RadioServices.Lib.Decimal

namespace RadioServices.Lib.C

/-- The value of a digit in whatever base; 36 for what is none. -/
def digitOf (c : Char) : Nat :=
  if c.isDigit then c.toNat - '0'.toNat
  else if c.isLower then c.toNat - 'a'.toNat + 10
  else if c.isUpper then c.toNat - 'A'.toNat + 10
  else 36

/-- The number that the digits at the beginning of a text continue. -/
def readBase (base : Nat) : Str → Nat → Nat
  | [], n => n
  | c :: s, n => if digitOf c < base then readBase base s (base * n + digitOf c) else n

def hexOf : Str → Option Nat
  | x :: c :: s => if (x = 'x' ∨ x = 'X') ∧ digitOf c < 16 then some (readBase 16 (c :: s) 0) else none
  | _ => none

/-- A number behind its sign: hexadecimal behind `0x`, octal behind `0`. It is
`none` without a digit. -/
def unsignedOf : Str → Option Nat
  | [] => none
  | c :: s =>
      if c = '0' then some ((hexOf s).getD (readBase 8 (c :: s) 0))
      else if digitOf c < 10 then some (readBase 10 (c :: s) 0)
      else none

def signedAny : Str → Option Int
  | [] => none
  | c :: s =>
      if c = '-' then (unsignedOf s).map fun n : Nat => saturate (-n)
      else if c = '+' then (unsignedOf s).map fun n : Nat => saturate n
      else (unsignedOf (c :: s)).map fun n : Nat => saturate n

/-- `strtol(s, &end, 0)`, and `none` if `end` is the beginning of the text. -/
def strtolAny (s : Str) : Option Int := signedAny (s.dropWhile isSpace)

theorem digitOf_of_isDigit {c : Char} (h : c.isDigit = true) : digitOf c = digitValue c ∧ digitOf c < 10 := by
  have heq : digitOf c = digitValue c := if_pos h
  have hle := digitValue_le h
  exact ⟨heq, by omega⟩

theorem readBase_ten {ds : Str} (h : ∀ c ∈ ds, c.isDigit = true) (n : Nat) : readBase 10 ds n = decimal ds n := by
  induction ds generalizing n with
  | nil => rfl
  | cons c ds ih =>
      rw [List.forall_mem_cons] at h
      obtain ⟨heq, hlt⟩ := digitOf_of_isDigit h.1
      rw [readBase, if_pos hlt, heq, ih h.2, decimal]

theorem head_toDigits {n : Nat} (hn : n ≠ 0) : (Nat.toDigits 10 n).head? ≠ some '0' := by
  induction n using Nat.strongRecOn with
  | ind n ih =>
      rcases Nat.lt_or_ge n 10 with h | h
      · rw [Nat.toDigits_of_lt_base h, List.head?_cons, ne_eq, Option.some.injEq]
        intro hzero
        have hvalue := Nat.toNat_digitChar_of_lt_ten h
        rw [hzero] at hvalue
        have hzero : '0'.toNat = 48 := rfl
        omega
      · rw [Nat.toDigits_of_base_le (by decide) h, List.head?_append_of_ne_nil _ Nat.toDigits_ne_nil]
        exact ih (n / 10) (by omega) (by omega)

theorem unsignedOf_toDigits (n : Nat) : unsignedOf (Nat.toDigits 10 n) = some n := by
  by_cases hn : n = 0
  · rw [hn]
    rfl
  · have hdigits : ∀ c ∈ Nat.toDigits 10 n, c.isDigit = true := fun c hc =>
      Nat.isDigit_of_mem_toDigits (by decide) (by decide) hc
    have hvalue : readBase 10 (Nat.toDigits 10 n) 0 = n := by
      rw [readBase_ten hdigits, decimal_eq_ofDigitChars, Nat.ofDigitChars_ten_toDigits]
    have hhead := head_toDigits hn
    obtain ⟨c, ds, hds⟩ := List.exists_cons_of_ne_nil (@Nat.toDigits_ne_nil n 10)
    rw [hds] at hdigits hvalue hhead ⊢
    have hc : c ≠ '0' := fun heq => hhead (congrArg some heq)
    rw [unsignedOf, if_neg hc, if_pos (digitOf_of_isDigit (hdigits c List.mem_cons_self)).2, hvalue]

theorem not_space_of_isDigit {c : Char} (h : c.isDigit = true) : isSpace c = false ∧ c ≠ '-' ∧ c ≠ '+' := by
  have hb := digit_bounds h
  refine ⟨?_, ?_, ?_⟩
  · have hne : c ≠ ' ' := fun heq => by rw [heq] at h; cases h
    have hgt : ¬ c ≤ '\r' := fun hle => by
      have hle : c.toNat ≤ 13 := hle
      omega
    simp [isSpace, hne, hgt]
  · rintro rfl
    cases h
  · rintro rfl
    cases h

/-- A number that was printed is read back. -/
theorem strtolAny_toString {z : Int} (hlow : -2 ^ 63 ≤ z) (hhigh : z < 2 ^ 63) :
    strtolAny (toString z).toList = some z := by
  have hsaturate : saturate z = z := by
    rw [saturate]
    omega
  cases z with
  | ofNat n =>
      have htext : (toString (Int.ofNat n)).toList = Nat.toDigits 10 n := by
        simp [toString, Int.repr, Nat.repr]
      have hdigits : ∀ c ∈ Nat.toDigits 10 n, c.isDigit = true := fun c hc =>
        Nat.isDigit_of_mem_toDigits (by decide) (by decide) hc
      have hvalue := unsignedOf_toDigits n
      rw [htext]
      obtain ⟨c, ds, hds⟩ := List.exists_cons_of_ne_nil (@Nat.toDigits_ne_nil n 10)
      rw [hds] at hdigits hvalue ⊢
      obtain ⟨hspace, hminus, hplus⟩ := not_space_of_isDigit (hdigits c List.mem_cons_self)
      have hdrop : (c :: ds).dropWhile isSpace = c :: ds := by
        rw [List.dropWhile_cons_of_neg (by simp [hspace])]
      rw [strtolAny, hdrop, signedAny, if_neg hminus, if_neg hplus, hvalue, Option.map_some]
      exact congrArg some hsaturate
  | negSucc n =>
      have htext : (toString (Int.negSucc n)).toList = '-' :: Nat.toDigits 10 (n + 1) := by
        simp [toString, Int.repr, Nat.repr]
      have hdrop : ('-' :: Nat.toDigits 10 (n + 1)).dropWhile isSpace = '-' :: Nat.toDigits 10 (n + 1) := rfl
      rw [htext, strtolAny, hdrop, signedAny, if_pos rfl, unsignedOf_toDigits, Option.map_some]
      exact congrArg some hsaturate

end RadioServices.Lib.C

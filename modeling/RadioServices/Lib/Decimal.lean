import Mathlib.Data.List.Basic
import Mathlib.Data.String.Basic

namespace RadioServices.Lib.Decimal

/-- The decimal digits of a number, with zeros in front up to a width. -/
def padded (w n : Nat) : List Char := (Nat.toDigits 10 n).leftpad w '0'

theorem isDigit_of_mem_padded {w n : Nat} {c : Char} (h : c ∈ padded w n) : c.isDigit = true := by
  rw [padded, List.leftpad] at h
  rcases List.mem_append.mp h with h | h
  · rw [List.eq_of_mem_replicate h]
    rfl
  · exact Nat.isDigit_of_mem_toDigits (by omega) (by omega) h

theorem padded_ne_nil (w n : Nat) : padded w n ≠ [] := by
  rw [padded, List.leftpad]
  exact List.append_ne_nil_of_right_ne_nil _ Nat.toDigits_ne_nil

theorem ofDigitChars_zeros (k : Nat) (s : List Char) :
    Nat.ofDigitChars 10 (List.replicate k '0' ++ s) 0 = Nat.ofDigitChars 10 s 0 := by
  induction k with
  | zero => rfl
  | succ k ih =>
      rw [List.replicate_succ, List.cons_append, Nat.ofDigitChars_cons]
      exact ih

theorem padded_injective {w i j : Nat} (h : padded w i = padded w j) : i = j := by
  have hvalue (n : Nat) : Nat.ofDigitChars 10 (padded w n) 0 = n := by
    rw [padded, List.leftpad, ofDigitChars_zeros, Nat.ofDigitChars_ten_toDigits]
  rw [← hvalue i, h, hvalue j]

theorem padded_one {n : Nat} (h : n < 10) : padded 1 n = [n.digitChar] := by
  rw [padded, Nat.toDigits_of_lt_base h]
  rfl

theorem padded_succ {w : Nat} (hw : 0 < w) (n : Nat) :
    padded (w + 1) n = padded w (n / 10) ++ [(n % 10).digitChar] := by
  rcases Nat.lt_or_ge n 10 with h | h
  · obtain ⟨w, rfl⟩ := Nat.exists_eq_succ_of_ne_zero (Nat.pos_iff_ne_zero.mp hw)
    rw [padded, padded, Nat.toDigits_of_lt_base h, Nat.div_eq_of_lt h, Nat.mod_eq_of_lt h,
      Nat.toDigits_zero, List.leftpad, List.leftpad]
    simp [List.replicate_succ']
  · rw [padded, padded, Nat.toDigits_of_base_le (by omega) h, List.leftpad, List.leftpad,
      List.length_append, List.length_singleton, Nat.add_sub_add_right, List.append_assoc]

theorem digitChar_lt {d e : Nat} (h : d < e) (he : e < 10) : d.digitChar < e.digitChar := by
  have hd := Nat.toNat_digitChar_of_lt_ten (show d < 10 by omega)
  have he := Nat.toNat_digitChar_of_lt_ten he
  change d.digitChar.toNat < e.digitChar.toNat
  omega

/-- Padded numbers are in the order of their texts, whatever follows them. -/
theorem padded_append_lt {w i j : Nat} (hw : 0 < w) (hij : i < j) (hj : j < 10 ^ w) (s t : List Char) :
    padded w i ++ s < padded w j ++ t := by
  induction w, hw using Nat.le_induction generalizing i j s t with
  | base =>
      rw [padded_one (by omega), padded_one (by omega)]
      exact List.cons_lt_cons_iff.mpr (.inl (digitChar_lt hij (by omega)))
  | succ w hw ih =>
      rw [padded_succ hw, padded_succ hw, List.append_assoc, List.append_assoc]
      rcases Nat.lt_or_ge (i / 10) (j / 10) with h | h
      · exact ih h (by rw [Nat.pow_succ] at hj; omega) _ _
      · have heq : i / 10 = j / 10 := by omega
        have hlt : i % 10 < j % 10 := by omega
        rw [heq]
        apply List.append_left_lt
        exact List.cons_lt_cons_iff.mpr (.inl (digitChar_lt hlt (by omega)))

theorem not_mem_toDigits {c : Char} (hdigit : c.isDigit = false) (n : Nat) : c ∉ Nat.toDigits 10 n := by
  intro hmem
  rw [Nat.isDigit_of_mem_toDigits (by omega) (by omega) hmem] at hdigit
  cases hdigit

theorem not_mem_toString {c : Char} (hdigit : c.isDigit = false) (hminus : c ≠ '-') (n : Int) :
    c ∉ (toString n).toList := by
  cases n with
  | ofNat n =>
      have htext : (toString (Int.ofNat n)).toList = Nat.toDigits 10 n := by
        simp [toString, Int.repr, Nat.repr]
      rw [htext]
      exact not_mem_toDigits hdigit n
  | negSucc n =>
      have htext : (toString (Int.negSucc n)).toList = '-' :: Nat.toDigits 10 (n + 1) := by
        simp [toString, Int.repr, Nat.repr]
      rw [htext, List.mem_cons, not_or]
      exact ⟨hminus, not_mem_toDigits hdigit (n + 1)⟩

end RadioServices.Lib.Decimal

import Mathlib.Data.List.Basic
import Mathlib.Logic.Function.Basic
import Mathlib.Tactic.IntervalCases

namespace RadioServices.Lib.Percent

abbrev Bytes := List UInt8

def percent : UInt8 := 0x25

def hexDigit (n : Nat) : UInt8 := if n < 10 then UInt8.ofNat (0x30 + n) else UInt8.ofNat (0x37 + n)

def IsHexDigit (c : UInt8) : Prop := (0x30 ≤ c ∧ c ≤ 0x39) ∨ (0x41 ≤ c ∧ c ≤ 0x46)

def hexValue (c : UInt8) : Option Nat :=
  if 0x30 ≤ c ∧ c ≤ 0x39 then some (c.toNat - 0x30)
  else if 0x41 ≤ c ∧ c ≤ 0x46 then some (c.toNat - 0x37)
  else if 0x61 ≤ c ∧ c ≤ 0x66 then some (c.toNat - 0x57)
  else none

def escape (c : UInt8) : Bytes := [percent, hexDigit (c.toNat / 16), hexDigit (c.toNat % 16)]

def encode (keep : UInt8 → Bool) (s : Bytes) : Bytes :=
  s.flatMap fun c => if keep c = true then [c] else escape c

def unescape (h l : UInt8) : Option UInt8 := do
  let h ← hexValue h
  let l ← hexValue l
  return UInt8.ofNat (16 * h + l)

/-- A percent sign that no two hexadecimal digits follow stands for itself. -/
def decode : Bytes → Bytes
  | c :: h :: l :: t =>
      if c = percent then
        match unescape h l with
        | some b => b :: decode t
        | none => c :: decode (h :: l :: t)
      else c :: decode (h :: l :: t)
  | s => s

/-- The texts made of kept bytes and of percent signs with two upper-case digits. -/
inductive Encoded (keep : UInt8 → Bool) : Bytes → Prop
  | nil : Encoded keep []
  | kept {c : UInt8} {s : Bytes} (hc : keep c = true) (hs : Encoded keep s) : Encoded keep (c :: s)
  | escaped {h l : UInt8} {s : Bytes} (hh : IsHexDigit h) (hl : IsHexDigit l) (hs : Encoded keep s) :
      Encoded keep (percent :: h :: l :: s)

section Digits

theorem isHexDigit_hexDigit {n : Nat} (h : n < 16) : IsHexDigit (hexDigit n) := by
  rw [IsHexDigit]
  interval_cases n <;> decide

theorem hexValue_hexDigit {n : Nat} (h : n < 16) : hexValue (hexDigit n) = some n := by
  interval_cases n <;> decide

theorem unescape_hexDigit (c : UInt8) : unescape (hexDigit (c.toNat / 16)) (hexDigit (c.toNat % 16)) = some c := by
  have hlt := c.toNat_lt
  have hhigh := hexValue_hexDigit (show c.toNat / 16 < 16 by omega)
  have hlow := hexValue_hexDigit (show c.toNat % 16 < 16 by omega)
  rw [unescape, hhigh, hlow]
  have hsum : 16 * (c.toNat / 16) + c.toNat % 16 = c.toNat := Nat.div_add_mod _ _
  simp only [Option.bind_eq_bind, Option.bind_some, Option.pure_def, hsum, UInt8.ofNat_toNat]

end Digits

section RoundTrip

variable {keep : UInt8 → Bool}

theorem encode_cons (c : UInt8) (s : Bytes) :
    encode keep (c :: s) = (if keep c = true then [c] else escape c) ++ encode keep s := rfl

theorem decode_cons_of_ne {c : UInt8} (h : c ≠ percent) (s : Bytes) : decode (c :: s) = c :: decode s := by
  match s with
  | [] => rfl
  | [_] => rfl
  | _ :: _ :: _ => rw [decode, if_neg h]

theorem decode_escape_append (c : UInt8) (s : Bytes) : decode (escape c ++ s) = c :: decode s := by
  rw [escape, List.cons_append, List.cons_append, List.cons_append, List.nil_append, decode, if_pos rfl,
    unescape_hexDigit]

/-- Decoding undoes encoding, when the percent sign is not kept. -/
theorem decode_encode (hkeep : keep percent = false) (s : Bytes) : decode (encode keep s) = s := by
  induction s with
  | nil => rfl
  | cons c s ih =>
      rw [encode_cons]
      by_cases hc : keep c = true
      · have hne : c ≠ percent := fun h => by rw [h, hkeep] at hc; cases hc
        rw [if_pos hc, List.singleton_append, decode_cons_of_ne hne, ih]
      · rw [if_neg hc, decode_escape_append, ih]

theorem encode_injective (hkeep : keep percent = false) : Function.Injective (encode keep) :=
  Function.LeftInverse.injective (decode_encode hkeep)

theorem encoded_encode (s : Bytes) : Encoded keep (encode keep s) := by
  induction s with
  | nil => exact .nil
  | cons c s ih =>
      rw [encode_cons]
      have hlt := c.toNat_lt
      split
      · exact .kept ‹_› ih
      · exact .escaped (isHexDigit_hexDigit (by omega)) (isHexDigit_hexDigit (by omega)) ih

theorem Encoded.mem {s : Bytes} (hs : Encoded keep s) {c : UInt8} (hc : c ∈ s) :
    keep c = true ∨ c = percent ∨ IsHexDigit c := by
  induction hs with
  | nil => exact absurd hc List.not_mem_nil
  | kept hkeep _ ih =>
      rcases List.mem_cons.mp hc with rfl | hc
      · exact .inl hkeep
      · exact ih hc
  | escaped hh hl _ ih =>
      rcases List.mem_cons.mp hc with rfl | hc
      · exact .inr (.inl rfl)
      rcases List.mem_cons.mp hc with rfl | hc
      · exact .inr (.inr hh)
      rcases List.mem_cons.mp hc with rfl | hc
      · exact .inr (.inr hl)
      · exact ih hc

end RoundTrip

end RadioServices.Lib.Percent

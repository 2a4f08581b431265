import RadioServices.Accordion.UrlEncode
import Mathlib.Data.List.TakeWhile

namespace RadioServices.Station.Base64

open Lib.Percent Accordion

def isBase64 (c : UInt8) : Bool := isalnum c || c == 0x2B || c == 0x2F

/-- `find` as an `unsigned char`: 255 for what is not there. -/
def find (c : UInt8) : UInt8 :=
  match base64Chars.idxOf? c with
  | some i => i.toUInt8
  | none => 255

def charArray3 (a b c d : UInt8) : Bytes :=
  [(a <<< 2) + ((b &&& 0x30) >>> 4), ((b &&& 0xf) <<< 4) + ((c &&& 0x3c) >>> 2), ((c &&& 0x3) <<< 6) + d]

/-- Four characters at a time. The last ones are filled up with zeros, which are no characters. -/
def decodeGroups : Bytes → Bytes
  | a :: b :: c :: d :: rest => charArray3 (find a) (find b) (find c) (find d) ++ decodeGroups rest
  | [a, b, c] => (charArray3 (find a) (find b) (find c) (find 0)).take 2
  | [a, b] => (charArray3 (find a) (find b) (find 0) (find 0)).take 1
  | [_] => []
  | [] => []

/-- The loop ends in front of an equality sign and of what is no character. -/
def base64Decode (encoded : Bytes) : Bytes :=
  decodeGroups (encoded.takeWhile fun c => c != 0x3D && isBase64 c)

section Digits

def digits (a b c : Nat) : List Nat := [a / 4, a % 4 * 16 + b / 16, b % 16 * 4 + c / 64, c % 64]

def charOf (i : Nat) : UInt8 := base64Chars.getD i 0

theorem toNat_and_low (a : UInt8) {m : UInt8} {k : Nat} (hm : m.toNat = 2 ^ k - 1) : (a &&& m).toNat = a.toNat % 2 ^ k := by
  rw [UInt8.toNat_and, hm, Nat.and_two_pow_sub_one_eq_mod]

theorem toNat_and_shiftRight (a : UInt8) {m n : UInt8} {j k : Nat} (hn : n.toNat % 8 = k)
    (hm : m.toNat >>> k = 2 ^ j - 1) : ((a &&& m) >>> n).toNat = a.toNat / 2 ^ k % 2 ^ j := by
  rw [UInt8.toNat_shiftRight, UInt8.toNat_and, hn, Nat.shiftRight_and_distrib, hm, Nat.and_two_pow_sub_one_eq_mod,
    Nat.shiftRight_eq_div_pow]

theorem toNat_shiftLeft (a : UInt8) {n : UInt8} {k : Nat} (hn : n.toNat % 8 = k) :
    (a <<< n).toNat = a.toNat * 2 ^ k % 256 := by
  rw [UInt8.toNat_shiftLeft, hn, Nat.shiftLeft_eq]

theorem parts (a : UInt8) :
    ((a &&& 0xfc) >>> 2).toNat = a.toNat / 4 ∧ ((a &&& 0x03) <<< 4).toNat = a.toNat % 4 * 16 ∧
      ((a &&& 0xf0) >>> 4).toNat = a.toNat / 16 ∧ ((a &&& 0x0f) <<< 2).toNat = a.toNat % 16 * 4 ∧
      ((a &&& 0xc0) >>> 6).toNat = a.toNat / 64 ∧ (a &&& 0x3f).toNat = a.toNat % 64 := by
  have ha := a.toNat_lt
  refine ⟨?_, ?_, ?_, ?_, ?_, @toNat_and_low a 0x3f 6 rfl⟩
  · rw [@toNat_and_shiftRight a 0xfc 2 6 2 rfl rfl]
    omega
  · rw [toNat_shiftLeft _ (k := 4) rfl, @toNat_and_low a 0x03 2 rfl]
    omega
  · rw [@toNat_and_shiftRight a 0xf0 4 4 4 rfl rfl]
    omega
  · rw [toNat_shiftLeft _ (k := 2) rfl, @toNat_and_low a 0x0f 4 rfl]
    omega
  · rw [@toNat_and_shiftRight a 0xc0 6 2 6 rfl rfl]
    omega

theorem digits_lt (a b c : UInt8) : ∀ i ∈ digits a.toNat b.toNat c.toNat, i < 64 := by
  have ha := a.toNat_lt
  have hb := b.toNat_lt
  have hc := c.toNat_lt
  intro i hi
  simp only [digits, List.mem_cons, List.not_mem_nil, or_false] at hi
  omega

theorem charArray4_eq (a b c : UInt8) : charArray4 a b c = (digits a.toNat b.toNat c.toNat).map charOf := by
  have ha := a.toNat_lt
  have hb := b.toNat_lt
  have hc := c.toNat_lt
  obtain ⟨ha₀, ha₁, -⟩ := parts a
  obtain ⟨-, -, hb₁, hb₂, -⟩ := parts b
  obtain ⟨-, -, -, -, hc₂, hc₃⟩ := parts c
  have hsecond : (((a &&& 0x03) <<< 4) + ((b &&& 0xf0) >>> 4)).toNat = a.toNat % 4 * 16 + b.toNat / 16 := by
    rw [UInt8.toNat_add, ha₁, hb₁]
    omega
  have hthird : (((b &&& 0x0f) <<< 2) + ((c &&& 0xc0) >>> 6)).toNat = b.toNat % 16 * 4 + c.toNat / 64 := by
    rw [UInt8.toNat_add, hb₂, hc₂]
    omega
  rw [charArray4, digits]
  simp only [List.map_cons, List.map_nil, charOf, ha₀, hsecond, hthird, hc₃]

theorem find_charOf {i : Nat} (h : i < 64) : (find (charOf i)).toNat = i := by
  have hall : ∀ i < 64, (find (charOf i)).toNat = i := by decide +kernel
  exact hall i h

theorem char_charOf {i : Nat} (h : i < 64) : (charOf i != 0x3D && isBase64 (charOf i)) = true := by
  have hall : ∀ i < 64, (charOf i != 0x3D && isBase64 (charOf i)) = true := by decide +kernel
  exact hall i h

theorem shifts (a : UInt8) : (a <<< 2).toNat = a.toNat * 4 % 256 ∧ ((a &&& 0x30) >>> 4).toNat = a.toNat / 16 % 4 ∧
    ((a &&& 0xf) <<< 4).toNat = a.toNat % 16 * 16 ∧ ((a &&& 0x3c) >>> 2).toNat = a.toNat / 4 % 16 ∧
    ((a &&& 0x3) <<< 6).toNat = a.toNat % 4 * 64 := by
  refine ⟨toNat_shiftLeft _ rfl, @toNat_and_shiftRight a 0x30 4 2 4 rfl rfl, ?_,
    @toNat_and_shiftRight a 0x3c 2 4 2 rfl rfl, ?_⟩
  · rw [toNat_shiftLeft _ (k := 4) rfl, @toNat_and_low a 0xf 4 rfl]
    omega
  · rw [toNat_shiftLeft _ (k := 6) rfl, @toNat_and_low a 0x3 2 rfl]
    omega

variable (a b c : UInt8)

theorem first_byte {w x : UInt8} (hw : w.toNat = a.toNat / 4) (hx : x.toNat = a.toNat % 4 * 16 + b.toNat / 16) :
    (w <<< 2) + ((x &&& 0x30) >>> 4) = a := by
  have ha := a.toNat_lt
  have hb := b.toNat_lt
  rw [← UInt8.toNat_inj, UInt8.toNat_add, (shifts w).1, (shifts x).2.1, hw, hx]
  omega

theorem second_byte {x y : UInt8} (hx : x.toNat = a.toNat % 4 * 16 + b.toNat / 16)
    (hy : y.toNat = b.toNat % 16 * 4 + c.toNat / 64) : ((x &&& 0xf) <<< 4) + ((y &&& 0x3c) >>> 2) = b := by
  have hb := b.toNat_lt
  have hc := c.toNat_lt
  rw [← UInt8.toNat_inj, UInt8.toNat_add, (shifts x).2.2.1, (shifts y).2.2.2.1, hx, hy]
  omega

theorem third_byte {y z : UInt8} (hy : y.toNat = b.toNat % 16 * 4 + c.toNat / 64) (hz : z.toNat = c.toNat % 64) :
    ((y &&& 0x3) <<< 6) + z = c := by
  have hc := c.toNat_lt
  rw [← UInt8.toNat_inj, UInt8.toNat_add, (shifts y).2.2.2.2, hy, hz]
  omega

end Digits

section Groups

variable (a b c : UInt8)

theorem found : (find (charOf (a.toNat / 4))).toNat = a.toNat / 4 ∧
    (find (charOf (a.toNat % 4 * 16 + b.toNat / 16))).toNat = a.toNat % 4 * 16 + b.toNat / 16 ∧
    (find (charOf (b.toNat % 16 * 4 + c.toNat / 64))).toNat = b.toNat % 16 * 4 + c.toNat / 64 ∧
    (find (charOf (c.toNat % 64))).toNat = c.toNat % 64 := by
  have hlt := digits_lt a b c
  simp only [digits, List.forall_mem_cons] at hlt
  exact ⟨find_charOf hlt.1, find_charOf hlt.2.1, find_charOf hlt.2.2.1, find_charOf hlt.2.2.2.1⟩

theorem decodeGroups_three (rest : Bytes) : decodeGroups (charArray4 a b c ++ rest) = a :: b :: c :: decodeGroups rest := by
  obtain ⟨hw, hx, hy, hz⟩ := found a b c
  rw [charArray4_eq]
  change charArray3 _ _ _ _ ++ decodeGroups rest = _
  rw [charArray3, first_byte a b hw hx, second_byte a b c hx hy, third_byte b c hy hz]
  rfl

theorem decodeGroups_two : decodeGroups ((charArray4 a b 0).take 3) = [a, b] := by
  obtain ⟨hw, hx, hy, -⟩ := found a b 0
  rw [charArray4_eq]
  change (charArray3 _ _ _ _).take 2 = _
  rw [charArray3, first_byte a b hw hx, second_byte a b 0 hx hy]
  rfl

theorem decodeGroups_one : decodeGroups ((charArray4 a 0 0).take 2) = [a] := by
  obtain ⟨hw, hx, -, -⟩ := found a 0 0
  rw [charArray4_eq]
  change (charArray3 _ _ _ _).take 1 = _
  rw [charArray3, first_byte a 0 hw hx]
  rfl

theorem takeWhile_group {group : Bytes} (h : group ⊆ charArray4 a b c) (rest : Bytes) :
    (group ++ rest).takeWhile (fun c => c != 0x3D && isBase64 c) =
      group ++ rest.takeWhile fun c => c != 0x3D && isBase64 c := by
  apply List.takeWhile_append_of_pos
  intro d hd
  have hmem := h hd
  rw [charArray4_eq] at hmem
  obtain ⟨i, hi, rfl⟩ := List.mem_map.mp hmem
  exact char_charOf (digits_lt a b c i hi)

end Groups

theorem decode_encode (s : Bytes) : base64Decode (base64Encode s) = s := by
  fun_induction base64Encode s with
  | case1 a b c rest ih =>
      rw [base64Decode, takeWhile_group a b c (List.Subset.refl _), decodeGroups_three]
      exact congrArg (fun t => a :: b :: c :: t) ih
  | case2 a b =>
      rw [base64Decode, takeWhile_group a b 0 (List.take_subset _ _)]
      exact decodeGroups_two a b
  | case3 a =>
      rw [base64Decode, takeWhile_group a 0 0 (List.take_subset _ _)]
      exact decodeGroups_one a
  | case4 => rfl

theorem length_encode (s : Bytes) : (base64Encode s).length = 4 * ((s.length + 2) / 3) := by
  fun_induction base64Encode s with
  | case1 a b c rest ih =>
      have hgroup : (charArray4 a b c).length = 4 := rfl
      rw [List.length_append, hgroup, ih, List.length_cons, List.length_cons, List.length_cons]
      omega
  | case2 a b => simp [charArray4]
  | case3 a => simp [charArray4]
  | case4 => rfl

theorem isBase64_group {a b c d : UInt8} (h : d ∈ charArray4 a b c) : isBase64 d = true := by
  rw [charArray4_eq] at h
  obtain ⟨i, hi, rfl⟩ := List.mem_map.mp h
  exact (Bool.and_eq_true _ _ ▸ char_charOf (digits_lt a b c i hi)).2

theorem mem_encode (s : Bytes) : ∀ c ∈ base64Encode s, isBase64 c = true ∨ c = 0x3D := by
  fun_induction base64Encode s with
  | case1 a b c rest ih =>
      intro d hd
      rcases List.mem_append.mp hd with hd | hd
      · exact .inl (isBase64_group hd)
      · exact ih d hd
  | case2 a b =>
      intro d hd
      rcases List.mem_append.mp hd with hd | hd
      · exact .inl (isBase64_group (List.take_subset _ _ hd))
      · exact .inr (List.mem_singleton.mp hd)
  | case3 a =>
      intro d hd
      rcases List.mem_append.mp hd with hd | hd
      · exact .inl (isBase64_group (List.take_subset _ _ hd))
      · simp only [List.mem_cons, List.not_mem_nil, or_false, or_self] at hd
        exact .inr hd
  | case4 => exact fun d hd => (nomatch hd)

/-- What is encoded is decoded to itself, in groups of four characters none
of which ends a line of the request it is put into. -/
theorem base64_roundTrip (s : Bytes) : base64Decode (base64Encode s) = s ∧
    (base64Encode s).length = 4 * ((s.length + 2) / 3) ∧ ∀ c ∈ base64Encode s, isBase64 c = true ∨ c = 0x3D :=
  ⟨decode_encode s, length_encode s, mem_encode s⟩

end RadioServices.Station.Base64

import Mathlib.Data.List.Basic
import Mathlib.Tactic.Ring

namespace RadioServices.Lib.BitFields

abbrev Field := Nat × Nat

def width : List Field → Nat
  | [] => 0
  | f :: fs => f.1 + width fs

/-- The number that the fields make, the first one in the highest bits. -/
def pack : List Field → Nat
  | [] => 0
  | f :: fs => f.2 * 2 ^ width fs + pack fs

def Fits (fs : List Field) : Prop := ∀ f ∈ fs, f.2 < 2 ^ f.1

/-- The bits of a number from an offset on, as many as the width says. -/
def field (v offset w : Nat) : Nat := v / 2 ^ offset % 2 ^ w

def unpack : List Nat → Nat → List Field
  | [], _ => []
  | w :: ws, v => (w, field v ws.sum w) :: unpack ws v

/-- The bytes of a number, the highest first. -/
def toBytes : Nat → Nat → List UInt8
  | 0, _ => []
  | n + 1, v => UInt8.ofNat (v / 256 ^ n) :: toBytes n v

def ofBytes : List UInt8 → Nat
  | [] => 0
  | b :: s => b.toNat * 256 ^ s.length + ofBytes s

section Fields

theorem Fits.tail {f : Field} {fs : List Field} (h : Fits (f :: fs)) : Fits fs :=
  fun g hg => h g (List.mem_cons_of_mem _ hg)

theorem pack_lt {fs : List Field} (h : Fits fs) : pack fs < 2 ^ width fs := by
  induction fs with
  | nil => exact Nat.one_pos
  | cons f fs ih =>
      have hhead := h f List.mem_cons_self
      have htail := ih h.tail
      rw [pack, width, Nat.pow_add]
      calc f.2 * 2 ^ width fs + pack fs < f.2 * 2 ^ width fs + 2 ^ width fs := Nat.add_lt_add_left htail _
        _ = (f.2 + 1) * 2 ^ width fs := (Nat.succ_mul _ _).symm
        _ ≤ 2 ^ f.1 * 2 ^ width fs := Nat.mul_le_mul_right _ hhead

theorem width_append (fs gs : List Field) : width (fs ++ gs) = width fs + width gs := by
  induction fs with
  | nil => rw [List.nil_append, width, Nat.zero_add]
  | cons f fs ih => rw [List.cons_append, width, width, ih, Nat.add_assoc]

theorem pack_append (fs gs : List Field) : pack (fs ++ gs) = pack fs * 2 ^ width gs + pack gs := by
  induction fs with
  | nil => rw [List.nil_append, pack, Nat.zero_mul, Nat.zero_add]
  | cons f fs ih =>
      rw [List.cons_append, pack, pack, ih, width_append, Nat.pow_add, Nat.add_mul, Nat.mul_assoc, Nat.add_assoc]

theorem width_eq_sum (fs : List Field) : width fs = (fs.map Prod.fst).sum := by
  induction fs with
  | nil => rfl
  | cons f fs ih => rw [width, ih, List.map_cons, List.sum_cons]

/-- A field is read at the offset that the fields behind it make. -/
theorem field_pack {fs gs : List Field} {f : Field} (h : Fits (fs ++ f :: gs)) :
    field (pack (fs ++ f :: gs)) (width gs) f.1 = f.2 := by
  have hf : f.2 < 2 ^ f.1 := h f (List.mem_append_right _ List.mem_cons_self)
  have hgs : pack gs < 2 ^ width gs :=
    pack_lt fun g hg => h g (List.mem_append_right _ (List.mem_cons_of_mem _ hg))
  have hpos : 0 < 2 ^ width gs := Nat.two_pow_pos _
  have hsplit : pack (fs ++ f :: gs) = pack gs + 2 ^ width gs * (pack fs * 2 ^ f.1 + f.2) := by
    rw [pack_append, width, pack, Nat.pow_add]
    ring
  rw [field, hsplit, Nat.add_mul_div_left _ _ hpos, Nat.div_eq_of_lt hgs, Nat.zero_add, Nat.mul_comm,
    Nat.mul_add_mod, Nat.mod_eq_of_lt hf]

theorem field_pack_getElem {fs : List Field} (h : Fits fs) {i : Nat} (hi : i < fs.length) :
    field (pack fs) (width (fs.drop (i + 1))) fs[i].1 = fs[i].2 := by
  have hsplit : fs.take i ++ fs[i] :: fs.drop (i + 1) = fs := by
    rw [← List.drop_eq_getElem_cons hi, List.take_append_drop]
  have hpack := field_pack (hsplit.symm ▸ h)
  rwa [hsplit] at hpack

theorem width_unpack (ws : List Nat) (v : Nat) : width (unpack ws v) = ws.sum := by
  induction ws with
  | nil => rfl
  | cons w ws ih => rw [unpack, width, ih, List.sum_cons]

theorem pack_unpack_eq (ws : List Nat) (v : Nat) : pack (unpack ws v) = v % 2 ^ ws.sum := by
  induction ws with
  | nil => rw [unpack, pack, List.sum_nil, Nat.pow_zero, Nat.mod_one]
  | cons w ws ih =>
      rw [unpack, pack, ih, width_unpack, field, List.sum_cons, Nat.add_comm w, Nat.pow_add, Nat.mod_mul,
        Nat.mul_comm, Nat.add_comm]

theorem pack_unpack {ws : List Nat} {v : Nat} (h : v < 2 ^ ws.sum) : pack (unpack ws v) = v := by
  rw [pack_unpack_eq, Nat.mod_eq_of_lt h]

end Fields

section Bytes

@[simp] theorem length_toBytes (n v : Nat) : (toBytes n v).length = n := by
  induction n with
  | zero => rfl
  | succ n ih => rw [toBytes, List.length_cons, ih]

theorem ofBytes_lt (s : List UInt8) : ofBytes s < 256 ^ s.length := by
  induction s with
  | nil => exact Nat.one_pos
  | cons b s ih =>
      have hb := b.toNat_lt
      rw [ofBytes, List.length_cons, Nat.pow_succ, Nat.mul_comm (256 ^ s.length)]
      calc b.toNat * 256 ^ s.length + ofBytes s < b.toNat * 256 ^ s.length + 256 ^ s.length :=
            Nat.add_lt_add_left ih _
        _ = (b.toNat + 1) * 256 ^ s.length := (Nat.succ_mul _ _).symm
        _ ≤ 256 * 256 ^ s.length := Nat.mul_le_mul_right _ hb

theorem ofBytes_toBytes_eq (n v : Nat) : ofBytes (toBytes n v) = v % 256 ^ n := by
  induction n with
  | zero => rw [toBytes, ofBytes, Nat.pow_zero, Nat.mod_one]
  | succ n ih =>
      have hbyte : (UInt8.ofNat (v / 256 ^ n)).toNat = v / 256 ^ n % 256 := UInt8.toNat_ofNat'
      rw [toBytes, ofBytes, ih, length_toBytes, hbyte, Nat.pow_succ, Nat.mod_mul, Nat.mul_comm, Nat.add_comm]

theorem ofBytes_toBytes {n v : Nat} (h : v < 256 ^ n) : ofBytes (toBytes n v) = v := by
  rw [ofBytes_toBytes_eq, Nat.mod_eq_of_lt h]

/-- What stands above the bytes does not matter. -/
theorem toBytes_mul_add (n k v : Nat) : toBytes n (k * 256 ^ n + v) = toBytes n v := by
  induction n generalizing k with
  | zero => rfl
  | succ n ih =>
      have hpow : k * 256 ^ (n + 1) + v = k * 256 * 256 ^ n + v := by ring
      have hhead : (k * 256 * 256 ^ n + v) / 256 ^ n = k * 256 + v / 256 ^ n := by
        rw [Nat.add_comm, Nat.add_mul_div_right _ _ (Nat.pow_pos (by decide)), Nat.add_comm]
      have hbyte : UInt8.ofNat (k * 256 + v / 256 ^ n) = UInt8.ofNat (v / 256 ^ n) := by
        apply UInt8.toNat_inj.mp
        rw [UInt8.toNat_ofNat', UInt8.toNat_ofNat']
        omega
      rw [hpow, toBytes, toBytes, hhead, hbyte, ih]

theorem toBytes_ofBytes (s : List UInt8) : toBytes s.length (ofBytes s) = s := by
  induction s with
  | nil => rfl
  | cons b s ih =>
      have hhead : (b.toNat * 256 ^ s.length + ofBytes s) / 256 ^ s.length = b.toNat := by
        rw [Nat.add_comm, Nat.add_mul_div_right _ _ (Nat.pow_pos (by decide)),
          Nat.div_eq_of_lt (ofBytes_lt s), Nat.zero_add]
      rw [ofBytes, List.length_cons, toBytes, hhead, UInt8.ofNat_toNat, toBytes_mul_add, ih]

end Bytes

end RadioServices.Lib.BitFields

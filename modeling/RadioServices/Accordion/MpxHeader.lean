import RadioServices.Accordion.Mpx

namespace RadioServices.Accordion.Mpx

def frameSizeOf (version layer index rate padding : Nat) : Nat :=
  let br := 1000 *
    if version = 3 ∧ layer = 3 then brtable.getD index 0
    else if version = 3 ∧ layer = 2 then brtable.getD (index + 16) 0
    else if version = 3 ∧ layer = 1 then brtable.getD (index + 32) 0
    else if (version = 2 ∨ version = 0) ∧ layer = 3 then brtable.getD (index + 48) 0
    else if (version = 2 ∨ version = 0) ∧ (layer = 2 ∨ layer = 1) then brtable.getD (index + 64) 0
    else 0
  let sr := srtable.getD (rate + if version = 0 then 8 else if version = 2 then 4 else 0) 0
  if version = 1 ∨ 3 < version then 0
  else if layer = 0 ∨ 3 < layer then 0
  else if 3 ≤ rate then 0
  else if version = 3 then
    if layer = 3 then 12 * br / sr * 4 + padding * 4
    else if layer = 2 ∨ layer = 1 then 144 * br / sr + padding
    else 0
  else if version = 2 ∨ version = 0 then
    if layer = 3 then 12 * br / sr * 4 + padding * 4
    else if layer = 2 then 144 * br / sr + padding
    else if layer = 1 then 72 * br / sr + padding
    else 0
  else 0

section Header

variable (header : List UInt8)

theorem mpegver_lt : mpegver header < 4 := by
  have hle : byteAt header 1 &&& 0x18 ≤ 0x18 := Nat.and_le_right
  rw [mpegver, Nat.shiftRight_eq_div_pow]
  omega

theorem layer_lt : layer header < 4 := by
  have hle : byteAt header 1 &&& 0x06 ≤ 0x06 := Nat.and_le_right
  rw [layer, Nat.shiftRight_eq_div_pow]
  omega

theorem brindex_lt : brindex header < 16 := by
  have hle : byteAt header 2 &&& 0xF0 ≤ 0xF0 := Nat.and_le_right
  rw [brindex, Nat.shiftRight_eq_div_pow]
  omega

theorem srindex_lt : srindex header < 4 := by
  have hle : byteAt header 2 &&& 0x0C ≤ 0x0C := Nat.and_le_right
  rw [srindex, Nat.shiftRight_eq_div_pow]
  omega

theorem padding_lt : padding header < 2 := by
  have hle : byteAt header 2 &&& 0x02 ≤ 0x02 := Nat.and_le_right
  rw [padding, Nat.shiftRight_eq_div_pow]
  omega

variable {header}

theorem getFrameSize_eq (h : badSyncword header = false) :
    getFrameSize header =
      frameSizeOf (mpegver header) (layer header) (brindex header) (srindex header) (padding header) := by
  simp only [getFrameSize, h, Bool.false_eq_true, if_false, bitrate, samplingRate, frameSizeOf]

theorem getFrameSize_of_badSyncword (h : badSyncword header = true) : getFrameSize header = 0 := by
  simp only [getFrameSize, h, if_true]

/-- Two kinds of sizes: that of a frame with a bit rate, and that of its padding alone. -/
theorem frameSizeOf_cases : ∀ (v : Fin 4) (l : Fin 4) (i : Fin 16) (s : Fin 4) (p : Fin 2),
    frameSizeOf v l i s p ≤ 2881 ∧
      (v ≠ 1 → l ≠ 0 → s ≠ 3 → i ≠ 0 → i ≠ 15 → 24 ≤ frameSizeOf v l i s p) ∧
      (i = 0 ∨ i = 15 → frameSizeOf v l i s p = 0 ∨ frameSizeOf v l i s p = 1 ∨ frameSizeOf v l i s p = 4) := by
  decide +kernel

theorem getFrameSize_le (header : List UInt8) : getFrameSize header ≤ 2881 := by
  cases h : badSyncword header with
  | true =>
      rw [getFrameSize_of_badSyncword h]
      exact Nat.zero_le _
  | false =>
      rw [getFrameSize_eq h]
      exact (frameSizeOf_cases ⟨_, mpegver_lt _⟩ ⟨_, layer_lt _⟩ ⟨_, brindex_lt _⟩ ⟨_, srindex_lt _⟩
        ⟨_, padding_lt _⟩).1

theorem le_frameSizeOf (hversion : mpegver header ≠ 1) (hlayer : layer header ≠ 0) (hrate : srindex header ≠ 3)
    (hfree : brindex header ≠ 0) (hbitrate : brindex header ≠ 15) :
    24 ≤ frameSizeOf (mpegver header) (layer header) (brindex header) (srindex header) (padding header) := by
  have hcases := (frameSizeOf_cases ⟨_, mpegver_lt header⟩ ⟨_, layer_lt header⟩ ⟨_, brindex_lt header⟩
    ⟨_, srindex_lt header⟩ ⟨_, padding_lt header⟩).2.1
  simp only [ne_eq, Fin.ext_iff] at hcases
  exact hcases hversion hlayer hrate hfree hbitrate

/-- A header with all bits of the syncword and no reserved value. -/
def ValidHeader (header : List UInt8) : Prop :=
  byteAt header 0 = 0xFF ∧ byteAt header 1 &&& 0xE0 = 0xE0 ∧ mpegver header ≠ 1 ∧ layer header ≠ 0 ∧
    brindex header ≠ 0 ∧ brindex header ≠ 15 ∧ srindex header ≠ 3

theorem badSyncword_of_bits (h : byteAt header 1 &&& 0xE0 = 0xE0) : badSyncword header = false := by
  unfold badSyncword
  rw [h]
  exact Bool.and_false _

theorem ValidHeader.isValidFrameHeader (h : ValidHeader header) : isValidFrameHeader header = true := by
  obtain ⟨-, hsync, hversion, hlayer, -, hbitrate, hrate⟩ := h
  have h₁ := mpegver_lt header
  have h₂ := layer_lt header
  have h₃ := brindex_lt header
  have h₄ := srindex_lt header
  rw [Mpx.isValidFrameHeader, badSyncword_of_bits hsync, if_neg (by decide), if_neg (by omega), if_neg (by omega),
    if_neg (by omega), if_neg (by omega)]

theorem ValidHeader.le_getFrameSize (h : ValidHeader header) : 24 ≤ getFrameSize header := by
  obtain ⟨-, hsync, hversion, hlayer, hfree, hbitrate, hrate⟩ := h
  rw [getFrameSize_eq (badSyncword_of_bits hsync)]
  exact le_frameSizeOf hversion hlayer hrate hfree hbitrate

end Header

end RadioServices.Accordion.Mpx

import RadioServices.Lib.BitFields
import RadioServices.Accordion.Aac

namespace RadioServices.Accordion.AacHeader

open Lib.BitFields Aac

structure Adts where
  syncword : Fin (2 ^ 12)
  version : Fin (2 ^ 1)
  layer : Fin (2 ^ 2)
  protectionAbsent : Fin (2 ^ 1)
  profile : Fin (2 ^ 2)
  samplingFrequency : Fin (2 ^ 4)
  privateBit : Fin (2 ^ 1)
  channelConfig : Fin (2 ^ 3)
  originality : Fin (2 ^ 1)
  home : Fin (2 ^ 1)
  copyrightId : Fin (2 ^ 1)
  copyrightStart : Fin (2 ^ 1)
  frameLength : Fin (2 ^ 13)
  fullness : Fin (2 ^ 11)
  frames : Fin (2 ^ 2)

namespace Adts

def fields (h : Adts) : List Field :=
  [(12, h.syncword), (1, h.version), (2, h.layer), (1, h.protectionAbsent), (2, h.profile),
    (4, h.samplingFrequency), (1, h.privateBit), (3, h.channelConfig), (1, h.originality), (1, h.home),
    (1, h.copyrightId), (1, h.copyrightStart), (13, h.frameLength), (11, h.fullness), (2, h.frames)]

def encode (h : Adts) : List UInt8 := toBytes 7 (pack h.fields)

theorem fits_fields (h : Adts) : Fits h.fields := by
  intro f hf
  simp only [fields, List.mem_cons, List.not_mem_nil, or_false] at hf
  rcases hf with rfl | rfl | rfl | rfl | rfl | rfl | rfl | rfl | rfl | rfl | rfl | rfl | rfl | rfl | rfl <;>
    exact Fin.isLt _

theorem length_encode (h : Adts) : h.encode.length = 7 := length_toBytes _ _

def widths : List Nat := [12, 1, 2, 1, 2, 4, 1, 3, 1, 1, 1, 1, 13, 11, 2]

theorem widths_eq (h : Adts) : h.fields.map Prod.fst = widths := rfl

theorem ofBytes_encode (h : Adts) : ofBytes h.encode = pack h.fields := by
  have hlt := pack_lt h.fits_fields
  have hpow : 2 ^ widths.sum = 256 ^ 7 := by decide
  rw [width_eq_sum, widths_eq, hpow] at hlt
  exact ofBytes_toBytes hlt

def ofWord (v : Nat) : Adts :=
  let value (offset w : Nat) : Fin (2 ^ w) := ⟨field v offset w, Nat.mod_lt _ (Nat.two_pow_pos w)⟩
  ⟨value 44 12, value 43 1, value 41 2, value 40 1, value 38 2, value 34 4, value 33 1, value 30 3,
    value 29 1, value 28 1, value 27 1, value 26 1, value 13 13, value 2 11, value 0 2⟩

theorem fields_ofWord (v : Nat) : (ofWord v).fields = unpack widths v := by
  rfl

theorem exists_encode {s : List UInt8} (hs : s.length = 7) : ∃ h : Adts, h.encode = s := by
  have hpow : 256 ^ 7 = 2 ^ widths.sum := by decide
  have hlt := ofBytes_lt s
  rw [hs, hpow] at hlt
  refine ⟨ofWord (ofBytes s), ?_⟩
  rw [encode, fields_ofWord, pack_unpack hlt, ← hs, toBytes_ofBytes]

theorem field_encode (h : Adts) {i offset : Nat} (hi : i < h.fields.length)
    (hoffset : (widths.drop (i + 1)).sum = offset) :
    field (ofBytes h.encode) offset h.fields[i].1 = h.fields[i].2 := by
  have hfield := field_pack_getElem h.fits_fields hi
  rwa [width_eq_sum, List.map_drop, widths_eq, hoffset, ← ofBytes_encode] at hfield

end Adts

section Bits

variable {header : List UInt8}

theorem byteAt_lt (header : List UInt8) (i : Nat) : byteAt header i < 256 := UInt8.toNat_lt _

theorem bytes_lt (header : List UInt8) :
    byteAt header 0 < 256 ∧ byteAt header 1 < 256 ∧ byteAt header 2 < 256 ∧ byteAt header 3 < 256 ∧
      byteAt header 4 < 256 ∧ byteAt header 5 < 256 ∧ byteAt header 6 < 256 :=
  ⟨byteAt_lt _ _, byteAt_lt _ _, byteAt_lt _ _, byteAt_lt _ _, byteAt_lt _ _, byteAt_lt _ _, byteAt_lt _ _⟩

theorem ofBytes_eq (h : header.length = 7) :
    ofBytes header = byteAt header 0 * 2 ^ 48 + byteAt header 1 * 2 ^ 40 + byteAt header 2 * 2 ^ 32 +
      byteAt header 3 * 2 ^ 24 + byteAt header 4 * 2 ^ 16 + byteAt header 5 * 2 ^ 8 + byteAt header 6 := by
  match header, h with
  | [a, b, c, d, e, f, g], _ =>
      simp only [ofBytes, byteAt, List.length_cons, List.length_nil, List.getD_cons_zero, List.getD_cons_succ]
      omega

theorem field_eq (h : header.length = 7) (offset w : Nat) :
    field (ofBytes header) offset w = (byteAt header 0 * 2 ^ 48 + byteAt header 1 * 2 ^ 40 +
      byteAt header 2 * 2 ^ 32 + byteAt header 3 * 2 ^ 24 + byteAt header 4 * 2 ^ 16 + byteAt header 5 * 2 ^ 8 +
      byteAt header 6) / 2 ^ offset % 2 ^ w := by
  rw [field, ofBytes_eq h]

theorem syncword_eq (h : header.length = 7) : syncword header = field (ofBytes header) 44 12 := by
  have hhigh : ∀ b < 256, (b <<< 4) &&& 0xFF0 = 2 ^ 4 * b := by decide +kernel
  have hlow : ∀ b < 256, (b >>> 4) &&& 0x0F = b / 16 := by decide +kernel
  have hbytes := bytes_lt header
  have hor := Nat.two_pow_add_eq_or_of_lt (show byteAt header 1 / 16 < 2 ^ 4 by omega) (byteAt header 0)
  rw [syncword, hhigh _ (byteAt_lt header 0), hlow _ (byteAt_lt header 1), ← hor, field_eq h]
  omega

theorem protectionAbsent_eq (h : header.length = 7) :
    byteAt header 1 &&& 0x01 = field (ofBytes header) 40 1 := by
  have hbit : ∀ b < 256, b &&& 0x01 = b % 2 := by decide +kernel
  rw [hbit _ (byteAt_lt header 1), field_eq h]
  have hbytes := bytes_lt header
  omega

theorem profile_eq (h : header.length = 7) : profile header = field (ofBytes header) 38 2 := by
  have hbits : ∀ b < 256, (b &&& 0xC0) >>> 6 = b / 64 := by decide +kernel
  rw [profile, hbits _ (byteAt_lt header 2), field_eq h]
  have hbytes := bytes_lt header
  omega

theorem samplingFrequency_eq (h : header.length = 7) : samplingFrequency header = field (ofBytes header) 34 4 := by
  have hbits : ∀ b < 256, ((b &&& 0x3C) >>> 2) &&& 0x0F = b / 4 % 16 := by decide +kernel
  rw [samplingFrequency, hbits _ (byteAt_lt header 2), field_eq h]
  have hbytes := bytes_lt header
  omega

theorem frameLength_eq (h : header.length = 7) : frameLength header = field (ofBytes header) 13 13 := by
  have hhigh : ∀ b < 256, (b &&& 0x03) <<< 11 = 2 ^ 11 * (b % 4) := by decide +kernel
  have hmid : ∀ b < 256, b <<< 3 = 2 ^ 3 * b := by decide +kernel
  have hlow : ∀ b < 256, (b &&& 0xE0) >>> 5 = b / 32 := by decide +kernel
  have hbytes := bytes_lt header
  have hor := Nat.two_pow_add_eq_or_of_lt (show 2 ^ 3 * byteAt header 4 < 2 ^ 11 by omega) (byteAt header 3 % 4)
  have hsum : 2 ^ 11 * (byteAt header 3 % 4) + 2 ^ 3 * byteAt header 4 =
      2 ^ 3 * (2 ^ 8 * (byteAt header 3 % 4) + byteAt header 4) := by omega
  have hlast := Nat.two_pow_add_eq_or_of_lt (show byteAt header 5 / 32 < 2 ^ 3 by omega)
    (2 ^ 8 * (byteAt header 3 % 4) + byteAt header 4)
  rw [frameLength, getFrameLength, hhigh _ (byteAt_lt header 3), hmid _ (byteAt_lt header 4),
    hlow _ (byteAt_lt header 5), ← hor, hsum, ← hlast, field_eq h]
  omega

theorem channelConfig_eq (h : header.length = 7) :
    ((byteAt header 2 &&& 0x01) <<< 2 ≠ 0 ∨ (byteAt header 3 &&& 0xC0) >>> 6 ≠ 0) ↔
      field (ofBytes header) 30 3 ≠ 0 := by
  have hhigh : ∀ b < 256, (b &&& 0x01) <<< 2 = 4 * (b % 2) := by decide +kernel
  have hlow : ∀ b < 256, (b &&& 0xC0) >>> 6 = b / 64 := by decide +kernel
  rw [hhigh _ (byteAt_lt header 2), hlow _ (byteAt_lt header 3), field_eq h]
  have hbytes := bytes_lt header
  omega

end Bits

namespace Adts

variable (h : Adts)

theorem syncword_encode : Aac.syncword h.encode = h.syncword := by
  rw [syncword_eq h.length_encode]
  exact h.field_encode (show 0 < 15 by decide) (by decide)

theorem protectionAbsent_encode : byteAt h.encode 1 &&& 0x01 = h.protectionAbsent := by
  rw [protectionAbsent_eq h.length_encode]
  exact h.field_encode (show 3 < 15 by decide) (by decide)

theorem profile_encode : Aac.profile h.encode = h.profile := by
  rw [profile_eq h.length_encode]
  exact h.field_encode (show 4 < 15 by decide) (by decide)

theorem samplingFrequency_encode : Aac.samplingFrequency h.encode = h.samplingFrequency := by
  rw [samplingFrequency_eq h.length_encode]
  exact h.field_encode (show 5 < 15 by decide) (by decide)

theorem frameLength_encode : Aac.frameLength h.encode = h.frameLength := by
  rw [frameLength_eq h.length_encode]
  exact h.field_encode (show 12 < 15 by decide) (by decide)

theorem channelConfig_encode :
    ((byteAt h.encode 2 &&& 0x01) <<< 2 ≠ 0 ∨ (byteAt h.encode 3 &&& 0xC0) >>> 6 ≠ 0) ↔ h.channelConfig ≠ 0 := by
  have hfield : field (ofBytes h.encode) 30 3 = h.channelConfig := h.field_encode (show 7 < 15 by decide) (by decide)
  rw [channelConfig_eq h.length_encode, hfield, Ne, Fin.val_eq_zero_iff]

/-- The sampling frequencies from 13 on are forbidden. -/
def Allowed : Prop :=
  h.syncword = 0xFFF ∧ h.profile ≠ 3 ∧ h.samplingFrequency < 13 ∧ h.frameLength ≤ 5000

theorem allowed_iff :
    h.Allowed ↔ Aac.syncword h.encode = 0x0FFF ∧ Aac.profile h.encode ≠ 3 ∧
      sftable.getD (Aac.samplingFrequency h.encode) 0 ≠ 0 ∧ Aac.frameLength h.encode ≤ 5000 := by
  have hsync : h.syncword = 0xFFF ↔ (h.syncword : Nat) = 0x0FFF := Fin.ext_iff
  have hprofile : h.profile = 3 ↔ (h.profile : Nat) = 3 := Fin.ext_iff
  have htable : ∀ i : Fin (2 ^ 4), i < 13 ↔ sftable.getD (i : Nat) 0 ≠ 0 := by decide
  have hlength : h.frameLength ≤ 5000 ↔ (h.frameLength : Nat) ≤ 5000 := Iff.rfl
  rw [Allowed, syncword_encode, profile_encode, samplingFrequency_encode, frameLength_encode, hsync, Ne, hprofile,
    htable, hlength]

/-- Of a channel configuration the check leaves whether there is one. -/
theorem isValidFrameHeader_encode (hallowed : h.Allowed) (sr : Int) :
    isValidFrameHeader h.encode sr =
      ⟨true, h.protectionAbsent, h.frameLength, h.samplingFrequency, if h.channelConfig ≠ 0 then 1 else 0⟩ := by
  obtain ⟨hsync, hprofile, hfrequency, hlength⟩ := h.allowed_iff.mp hallowed
  rw [isValidFrameHeader, if_neg (not_not.mpr hsync), if_neg hprofile, if_neg hfrequency,
    if_neg (Nat.not_lt.mpr hlength), protectionAbsent_encode, samplingFrequency_encode, frameLength_encode]
  simp only [channelConfig_encode]

theorem isValidFrameHeader_encode_of_not_allowed (hallowed : ¬ h.Allowed) (sr : Int) :
    (isValidFrameHeader h.encode sr).valid = false := by
  rw [isValidFrameHeader]
  split
  · rfl
  rename_i hsync
  split
  · rfl
  rename_i hprofile
  split
  · rfl
  rename_i hfrequency
  split
  · rfl
  rename_i hlength
  exact absurd (h.allowed_iff.mpr ⟨not_not.mp hsync, hprofile, hfrequency, Nat.not_lt.mp hlength⟩) hallowed

theorem validFrameLength_encode (hallowed : h.Allowed) :
    validFrameLength h.encode = if (h.frameLength : Nat) ≤ cHeaderSize then 0 else (h.frameLength : Nat) := by
  obtain ⟨hsync, hprofile, hfrequency, hlength⟩ := h.allowed_iff.mp hallowed
  rw [frameLength_encode] at hlength
  rw [validFrameLength, if_neg (not_not.mpr hsync), if_neg hprofile, if_neg hfrequency, frameLength_encode]
  simp only [Nat.not_lt.mpr hlength, or_false]

structure Decoded (sr : Int) : Prop where
  accepted : h.Allowed → isValidFrameHeader h.encode sr =
    ⟨true, h.protectionAbsent, h.frameLength, h.samplingFrequency, (h.channelConfig : Nat)⟩
  rejected : ¬ h.Allowed → (isValidFrameHeader h.encode sr).valid = false
  length : (isValidFrameHeader h.encode sr).valid = true → cHeaderSize < (isValidFrameHeader h.encode sr).length →
    validFrameLength h.encode = (isValidFrameHeader h.encode sr).length

theorem decoded_length {sr : Int} (hvalid : (isValidFrameHeader h.encode sr).valid = true)
    (hlong : cHeaderSize < (isValidFrameHeader h.encode sr).length) :
    validFrameLength h.encode = (isValidFrameHeader h.encode sr).length := by
  by_cases hallowed : h.Allowed
  · rw [isValidFrameHeader_encode h hallowed] at hlong ⊢
    rw [validFrameLength_encode h hallowed, if_neg (Nat.not_le.mpr hlong)]
  · rw [isValidFrameHeader_encode_of_not_allowed h hallowed] at hvalid
    cases hvalid

end Adts

theorem allowed_of_valid {s : List UInt8} (hs : s.length = 7) {sr : Int}
    (hvalid : (isValidFrameHeader s sr).valid = true) : ∃ h : Adts, h.Allowed ∧ h.encode = s := by
  obtain ⟨h, rfl⟩ := Adts.exists_encode hs
  refine ⟨h, ?_, rfl⟩
  by_contra hallowed
  rw [h.isValidFrameHeader_encode_of_not_allowed hallowed] at hvalid
  cases hvalid

/-- A header is decoded as documented if and only if it is rejected or of one channel at most. -/
theorem decoded_iff (h : Adts) (sr : Int) : h.Decoded sr ↔ (h.Allowed → h.channelConfig ≤ 1) := by
  have hchannels : ∀ c : Fin (2 ^ 3), (if c ≠ 0 then 1 else 0) = (c : Nat) ↔ c ≤ 1 := by decide
  constructor
  · intro hdecoded hallowed
    have heq := hdecoded.accepted hallowed
    rw [h.isValidFrameHeader_encode hallowed] at heq
    exact (hchannels _).mp (HeaderInfo.mk.inj heq).2.2.2.2
  · intro hcondition
    refine ⟨fun hallowed => ?_, fun hallowed => h.isValidFrameHeader_encode_of_not_allowed hallowed sr,
      h.decoded_length⟩
    rw [h.isValidFrameHeader_encode hallowed, (hchannels _).mpr (hcondition hallowed)]

/-- A frame of two channels is read as one of one channel. -/
theorem stereo_header : ¬ ∀ (h : Adts) (sr : Int), h.Decoded sr := by
  intro hall
  let h : Adts := ⟨0xFFF, 0, 0, 1, 1, 4, 0, 2, 0, 0, 0, 0, 512, 0x7FF, 0⟩
  have hallowed : h.Allowed := ⟨rfl, by decide, by decide, by decide⟩
  have heq := (hall h 0).accepted hallowed
  have hchannels : (isValidFrameHeader h.encode 0).channelConfig = 1 := by decide +kernel
  rw [heq] at hchannels
  exact absurd hchannels (by decide)

end RadioServices.Accordion.AacHeader

import RadioServices.Lib.Cut
import RadioServices.Lib.Percent
import RadioServices.Lib.Lines
import Mathlib.Data.String.Basic

namespace RadioServices.Accordion

open Lib.Percent

def ascii (s : String) : Bytes := s.toList.map Char.toUInt8

def lf : UInt8 := 0x0A

/-- In the C locale. -/
def isalnum (c : UInt8) : Bool :=
  (0x30 ≤ c && c ≤ 0x39) || (0x41 ≤ c && c ≤ 0x5A) || (0x61 ≤ c && c ≤ 0x7A)

/-- `sprintf("%02X", c)`. -/
def sprintf02X (c : UInt8) : Bytes :=
  (((Nat.toDigits 16 c.toNat).map fun d => d.toUpper.toUInt8).leftpad 2 0x30)

/-- The bytes that stand for themselves: letters, digits, and `-`, `_`, `.` and `~`. -/
def unreserved (c : UInt8) : Bool := isalnum c || c == 0x2D || c == 0x5F || c == 0x2E || c == 0x7E

/-- The text ends at the first NUL. -/
def urlEncode : Bytes → Bytes
  | [] => []
  | c :: chars =>
      if c = 0 then []
      else if unreserved c = true then c :: urlEncode chars
      else percent :: (sprintf02X c).take 2 ++ urlEncode chars

section Base64

def base64Chars : Bytes :=
  ascii ("ABCDEFGHIJKLMNOPQRSTUVWXYZ" ++ "abcdefghijklmnopqrstuvwxyz" ++ "0123456789+/")

def charArray4 (a b c : UInt8) : Bytes :=
  [(a &&& 0xfc) >>> 2, ((a &&& 0x03) <<< 4) + ((b &&& 0xf0) >>> 4), ((b &&& 0x0f) <<< 2) + ((c &&& 0xc0) >>> 6),
    c &&& 0x3f].map fun i => base64Chars.getD i.toNat 0

/-- Three bytes at a time. The last ones are filled up with zeros. -/
def base64Encode : Bytes → Bytes
  | a :: b :: c :: rest => charArray4 a b c ++ base64Encode rest
  | [a, b] => (charArray4 a b 0).take 3 ++ [0x3D]
  | [a] => (charArray4 a 0 0).take 2 ++ [0x3D, 0x3D]
  | [] => []

end Base64

structure TConfig where
  mount : Bytes
  password : Bytes

def getMetadataHeader (pConfig : TConfig) (s : Bytes) : Bytes :=
  ascii "GET /admin/metadata?mode=updinfo&mount=/" ++ pConfig.mount ++ ascii "&song=" ++ urlEncode s ++
    ascii " HTTP/1.0\n" ++ ascii "User-Agent: accordion/Version 5.0\n" ++ ascii "Authorization: Basic " ++
    base64Encode (ascii "source:" ++ pConfig.password) ++ ascii "\n" ++ ascii "\n"

section Encoding

theorem sprintf02X_eq (c : UInt8) : sprintf02X c = [hexDigit (c.toNat / 16), hexDigit (c.toNat % 16)] := by
  have hdigit : ∀ n < 16, (n.digitChar.toUpper.toUInt8) = hexDigit n := by decide
  have hlt := c.toNat_lt
  rw [sprintf02X]
  rcases Nat.lt_or_ge c.toNat 16 with h | h
  · rw [Nat.toDigits_of_lt_base h, Nat.div_eq_of_lt h, Nat.mod_eq_of_lt h, List.map_singleton, hdigit _ h]
    rfl
  · rw [Nat.toDigits_of_base_le (by omega) h, Nat.toDigits_of_lt_base (by omega), List.map_append,
      List.map_singleton, List.map_singleton, hdigit _ (by omega), hdigit _ (by omega)]
    rfl

theorem urlEncode_eq {s : Bytes} (hs : 0 ∉ s) : urlEncode s = encode unreserved s := by
  induction s with
  | nil => rfl
  | cons c s ih =>
      rw [List.mem_cons, not_or] at hs
      rw [urlEncode, if_neg (Ne.symm hs.1), encode_cons, ih hs.2, sprintf02X_eq]
      split <;> rfl

theorem unreserved_percent : unreserved percent = false := by decide

theorem not_mem_urlEncode {s : Bytes} (hs : 0 ∉ s) {c : UInt8} (hkeep : unreserved c = false)
    (hpercent : c ≠ percent) (hdigit : ¬ IsHexDigit c) : c ∉ urlEncode s := by
  intro hmem
  rw [urlEncode_eq hs] at hmem
  rcases (encoded_encode s).mem hmem with h | h | h
  · rw [hkeep] at h
    cases h
  · exact hpercent h
  · exact hdigit h

theorem not_mem_urlEncode_of_blank {s : Bytes} (hs : 0 ∉ s) {c : UInt8} (hc : c ≤ 0x20) : c ∉ urlEncode s := by
  apply not_mem_urlEncode hs
  · rw [unreserved, isalnum]
    grind
  · rw [percent]
    grind
  · rw [IsHexDigit]
    grind

end Encoding

section Header

theorem lf_not_mem_charArray4 (a b c : UInt8) : lf ∉ charArray4 a b c := by
  have htable : ∀ i, base64Chars.getD i 0 ≠ lf := by
    intro i
    have hmem : base64Chars.getD i 0 ∈ 0 :: base64Chars := by
      rw [List.getD_eq_getElem?_getD]
      cases hi : base64Chars[i]? with
      | none => exact List.mem_cons_self
      | some c => exact List.mem_cons_of_mem _ (List.mem_of_getElem? hi)
    have hnot : lf ∉ 0 :: base64Chars := by decide +kernel
    exact fun h => hnot (h ▸ hmem)
  intro hmem
  obtain ⟨i, -, hi⟩ := List.mem_map.mp hmem
  exact htable _ hi

theorem lf_not_mem_base64Encode (s : Bytes) : lf ∉ base64Encode s := by
  induction s using base64Encode.induct with
  | case1 a b c rest ih =>
      rw [base64Encode, List.mem_append, not_or]
      exact ⟨lf_not_mem_charArray4 a b c, ih⟩
  | case2 a b =>
      rw [base64Encode, List.mem_append, not_or]
      exact ⟨fun h => lf_not_mem_charArray4 a b 0 (List.mem_of_mem_take h), by decide⟩
  | case3 a =>
      rw [base64Encode, List.mem_append, not_or]
      exact ⟨fun h => lf_not_mem_charArray4 a 0 0 (List.mem_of_mem_take h), by decide⟩
  | case4 => exact List.not_mem_nil

def mountRequest (pConfig : TConfig) : Bytes :=
  ascii "GET /admin/metadata?mode=updinfo&mount=/" ++ pConfig.mount

def songRequest (pConfig : TConfig) (s : Bytes) : Bytes :=
  mountRequest pConfig ++ ascii "&song=" ++ urlEncode s ++ ascii " HTTP/1.0"

def authorization (pConfig : TConfig) : Bytes :=
  ascii "Authorization: Basic " ++ base64Encode (ascii "source:" ++ pConfig.password)

theorem lf_not_mem_mountRequest {pConfig : TConfig} (h : lf ∉ pConfig.mount) : lf ∉ mountRequest pConfig := by
  rw [mountRequest, List.mem_append, not_or]
  exact ⟨by decide +kernel, h⟩

theorem lf_not_mem_songRequest {pConfig : TConfig} (h : lf ∉ pConfig.mount) {s : Bytes} (hs : 0 ∉ s) :
    lf ∉ songRequest pConfig s := by
  have hencode := not_mem_urlEncode_of_blank hs (show lf ≤ 0x20 by decide)
  rw [songRequest, List.mem_append, List.mem_append, List.mem_append, not_or, not_or, not_or]
  exact ⟨⟨⟨lf_not_mem_mountRequest h, by decide +kernel⟩, hencode⟩, by decide +kernel⟩

theorem getMetadataHeader_eq (pConfig : TConfig) (s : Bytes) :
    getMetadataHeader pConfig s =
      Lib.Lines.terminated lf [songRequest pConfig s, ascii "User-Agent: accordion/Version 5.0",
        authorization pConfig, []] := by
  have hrequest : ascii " HTTP/1.0\n" = ascii " HTTP/1.0" ++ [lf] := by decide +kernel
  have hagent : ascii "User-Agent: accordion/Version 5.0\n" = ascii "User-Agent: accordion/Version 5.0" ++ [lf] := by
    decide +kernel
  have hend : ascii "\n" = [lf] := by decide +kernel
  rw [getMetadataHeader, hrequest, hagent, hend, songRequest, mountRequest, authorization]
  simp only [Lib.Lines.terminated, List.flatMap_cons, List.flatMap_nil, List.append_assoc, List.nil_append,
    List.append_nil]

theorem lines_getMetadataHeader {pConfig : TConfig} (h : lf ∉ pConfig.mount) {s : Bytes} (hs : 0 ∉ s) :
    Lib.Lines.lines lf (getMetadataHeader pConfig s) =
      [songRequest pConfig s, ascii "User-Agent: accordion/Version 5.0", authorization pConfig, []] := by
  rw [getMetadataHeader_eq, Lib.Lines.lines_terminated_iff]
  simp only [List.mem_cons, List.not_mem_nil, or_false]
  rintro line (rfl | rfl | rfl | rfl)
  · exact lf_not_mem_songRequest h hs
  · decide +kernel
  · rw [authorization, List.mem_append, not_or]
    exact ⟨by decide +kernel, lf_not_mem_base64Encode _⟩
  · exact List.not_mem_nil

def requestLine (header : Bytes) : Bytes := header.takeWhile fun c => c ≠ lf

theorem requestLine_append_lf {line : Bytes} (h : lf ∉ line) (rest : Bytes) :
    requestLine (line ++ lf :: rest) = line := by
  rw [requestLine, Lib.Cut.takeWhile_ne_append h]

theorem requestLine_append_of_mem {line : Bytes} (h : lf ∈ line) (rest : Bytes) :
    requestLine (line ++ rest) = requestLine line := by
  obtain ⟨before, behind, rfl, hbefore⟩ := List.eq_append_cons_of_mem h
  rw [List.append_assoc, List.cons_append, requestLine_append_lf hbefore, requestLine_append_lf hbefore]

/-- A line end in the mount point ends the request line in front of the title. -/
theorem requestLine_getMetadataHeader (pConfig : TConfig) {s : Bytes} (hs : 0 ∉ s) :
    requestLine (getMetadataHeader pConfig s) =
      if lf ∈ pConfig.mount then requestLine (mountRequest pConfig) else songRequest pConfig s := by
  rw [getMetadataHeader_eq, Lib.Lines.terminated_cons]
  split
  · rename_i hmount
    have hmem : lf ∈ mountRequest pConfig := List.mem_append_right _ hmount
    rw [songRequest, List.append_assoc, List.append_assoc, List.append_assoc, requestLine_append_of_mem hmem]
  · rename_i hmount
    exact requestLine_append_lf (lf_not_mem_songRequest hmount hs) _

end Header

theorem urlEncode_faithful (s : Bytes) (hs : 0 ∉ s) :
    Encoded unreserved (urlEncode s) ∧ decode (urlEncode s) = s ∧
      (∀ t, 0 ∉ t → t ≠ s → urlEncode t ≠ urlEncode s) ∧
      ∀ pConfig, requestLine (getMetadataHeader pConfig s) =
        if lf ∈ pConfig.mount then requestLine (mountRequest pConfig) else songRequest pConfig s := by
  refine ⟨?_, ?_, ?_, fun pConfig => requestLine_getMetadataHeader pConfig hs⟩
  · rw [urlEncode_eq hs]
    exact encoded_encode s
  · rw [urlEncode_eq hs]
    exact decode_encode unreserved_percent s
  · intro t ht hne heq
    rw [urlEncode_eq hs, urlEncode_eq ht] at heq
    exact hne (encode_injective unreserved_percent heq)

/-- A title with a byte above 127, an ampersand and the end of a line. -/
theorem urlEncode_faithful_title :
    urlEncode [0xD0, 0x26, 0x0A, 0x61] = ascii "%D0%26%0Aa" ∧ decode (ascii "%D0%26%0Aa") = [0xD0, 0x26, 0x0A, 0x61] := by
  have hencode : urlEncode [0xD0, 0x26, 0x0A, 0x61] = ascii "%D0%26%0Aa" := by decide +kernel
  have h := (urlEncode_faithful [0xD0, 0x26, 0x0A, 0x61] (by decide)).2.1
  rw [hencode] at h
  exact ⟨hencode, h⟩

end RadioServices.Accordion

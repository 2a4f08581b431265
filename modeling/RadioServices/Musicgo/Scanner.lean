import RadioServices.Lib.Loop
import RadioServices.Musicgo.MediaPath
import Mathlib.Data.List.GetD

namespace RadioServices.Musicgo

open Lib Lib.C Lib.Loop
open Accordion (find)

namespace Token

def behind (t : Token) : Str := t.mem.drop (t.pch + t.text.length + 1)

def shift (front : Str) (t : Token) : Token := ⟨front.length + t.pch, t.text, front.length + t.next, front ++ t.mem⟩

theorem behind_shift (front : Str) (t : Token) : (t.shift front).behind = t.behind := by
  simp only [behind, shift, Nat.add_assoc, List.drop_length_add_append]

theorem behind_head (piece mem : Str) (c : Char) (next : Nat) :
    (⟨0, piece, next, piece ++ c :: mem⟩ : Token).behind = mem := by
  rw [behind, Nat.zero_add, List.drop_length_add_append]
  rfl

end Token

namespace Scanner

section Strtok

variable {delim skip text after : Str} {c : Char}

/-- Memory in front of the address does not count. -/
theorem strtok_shift (delim front mem : Str) (p : Nat) :
    strtok delim (front ++ mem) (front.length + p) = (strtok delim mem p).map (Token.shift front) := by
  rw [strtok, strtok]
  rw [List.drop_length_add_append, Nat.add_assoc, List.drop_length_add_append, Nat.add_assoc]
  generalize p + ((mem.drop p).takeWhile fun c => decide (c ∈ delim)).length = start
  generalize (mem.drop start).takeWhile (fun c => decide (c ≠ '\x00' ∧ c ∉ delim)) = text
  have hchar : (front ++ mem).getD (front.length + (start + text.length)) '\x00' =
      mem.getD (start + text.length) '\x00' := by
    rw [List.getD_append_right _ _ _ _ (Nat.le_add_right _ _), Nat.add_sub_cancel_left]
  rw [hchar]
  split
  · rfl
  · split
    · rfl
    · rw [List.set_append_right _ _ (Nat.le_add_right _ _), Nat.add_sub_cancel_left]
      rfl

def Clean (delim text : Str) : Prop := ∀ c ∈ text, c ≠ '\x00' ∧ c ∉ delim

instance (delim text : Str) : Decidable (Clean delim text) := List.decidableBAll _ text

theorem Clean.append {a b : Str} (ha : Clean delim a) (hb : Clean delim b) : Clean delim (a ++ b) := fun c hc =>
  (List.mem_append.mp hc).elim (ha c) (hb c)

theorem Clean.cons {s : Str} (hc : c ≠ '\x00' ∧ c ∉ delim) (hs : Clean delim s) : Clean delim (c :: s) :=
  List.forall_mem_cons.mpr ⟨hc, hs⟩

theorem strtok_text (hskip : ∀ c ∈ skip, c ∈ delim) (htext : text ≠ []) (hclean : Clean delim text)
    (hc : c = '\x00' ∨ c ∈ delim) :
    strtok delim (skip ++ (text ++ c :: after)) 0 =
      some ⟨skip.length, text, skip.length + text.length + (if c = '\x00' then 0 else 1),
        skip ++ (text ++ '\x00' :: after)⟩ := by
  obtain ⟨x, rest, rfl⟩ := List.exists_cons_of_ne_nil htext
  have hskipped : (skip ++ (x :: rest ++ c :: after)).takeWhile (fun c => decide (c ∈ delim)) = skip := by
    rw [List.takeWhile_append_of_pos (fun c hc => decide_eq_true (hskip c hc)), List.cons_append,
      List.takeWhile_cons_of_neg (by simpa using (hclean x List.mem_cons_self).2), List.append_nil]
  have htaken : (x :: rest ++ c :: after).takeWhile (fun c => decide (c ≠ '\x00' ∧ c ∉ delim)) = x :: rest := by
    rw [List.takeWhile_append_of_pos (fun c hc => decide_eq_true (hclean c hc)),
      List.takeWhile_cons_of_neg (by simpa using fun hne => hc.resolve_left hne), List.append_nil]
  have hchar : (skip ++ (x :: rest ++ c :: after)).getD (skip.length + (x :: rest).length) '\x00' = c := by
    rw [← List.append_assoc, ← List.length_append, Cut.getD_length_append]
  rw [strtok]
  simp only [List.drop_zero, hskipped, Nat.zero_add, List.drop_left, htaken, hchar, if_neg htext]
  split
  · rename_i hnul
    rw [hnul]
    rfl
  · rw [List.set_append_right _ _ (Nat.le_add_right _ _), Nat.add_sub_cancel_left,
      List.set_append_right _ _ (Nat.le_refl _), Nat.sub_self]
    rfl

theorem strtok_end (hskip : ∀ c ∈ skip, c ∈ delim) (hnul : '\x00' ∉ delim) :
    strtok delim (skip ++ '\x00' :: after) 0 = none := by
  have hskipped : (skip ++ '\x00' :: after).takeWhile (fun c => decide (c ∈ delim)) = skip := by
    rw [List.takeWhile_append_of_pos (fun c hc => decide_eq_true (hskip c hc)),
      List.takeWhile_cons_of_neg (by simpa using hnul), List.append_nil]
  rw [strtok]
  simp only [List.drop_zero, hskipped, Nat.zero_add, List.drop_left]
  rw [List.takeWhile_cons_of_neg (by simp), if_pos rfl]

end Strtok

section FileTokens

variable {mem front : Str} {v fuel : Nat}

/-- The tokens `get_file_data` reads from an address on, and the memory it leaves. -/
def fileTokens : Nat → Str → Nat → List Token × Str
  | 0, mem, _ => ([], mem)
  | fuel + 1, mem, v =>
      match strtok " ?&".toList mem v with
      | none => ([], mem)
      | some t => (t :: (fileTokens fuel t.mem t.next).1, (fileTokens fuel t.mem t.next).2)

def readTokens (r : Request) (tokens : List Token) : Request :=
  tokens.foldl (fun r t => r.readToken t.text t.behind) r

theorem getFileData_eq (r : Request) (hfuel : mem.length < v + fuel) (hpos : 0 < fuel) :
    Request.getFileData fuel mem v r = some (readTokens r (fileTokens fuel mem v).1, (fileTokens fuel mem v).2) := by
  induction fuel generalizing mem v r with
  | zero => exact absurd hpos (Nat.lt_irrefl 0)
  | succ fuel ih =>
      rw [Request.getFileData, fileTokens]
      cases htoken : strtok " ?&".toList mem v with
      | none => rfl
      | some t =>
          obtain ⟨hlength, -, hlt, hnext, -⟩ := MediaPath.strtok_some htoken
          exact ih _ (by omega) (by omega)

theorem fileTokens_shift (fuel : Nat) (front mem : Str) (v : Nat) :
    fileTokens fuel (front ++ mem) (front.length + v) =
      ((fileTokens fuel mem v).1.map (Token.shift front), front ++ (fileTokens fuel mem v).2) := by
  induction fuel generalizing mem v with
  | zero => rfl
  | succ fuel ih =>
      rw [fileTokens, fileTokens, strtok_shift]
      cases strtok " ?&".toList mem v with
      | none => rfl
      | some t =>
          dsimp only [Option.map_some, Token.shift]
          rw [ih]
          rfl

theorem fileTokens_of_le {fuel' : Nat} (hfuel : mem.length < v + fuel) (hpos : 0 < fuel) (hle : fuel ≤ fuel') :
    fileTokens fuel' mem v = fileTokens fuel mem v := by
  induction fuel generalizing mem v fuel' with
  | zero => exact absurd hpos (Nat.lt_irrefl 0)
  | succ fuel ih =>
      obtain ⟨fuel', rfl⟩ := Nat.exists_eq_add_one_of_ne_zero (n := fuel') (by omega)
      rw [fileTokens, fileTokens]
      cases htoken : strtok " ?&".toList mem v with
      | none => rfl
      | some t =>
          obtain ⟨hlength, -, hlt, hnext, -⟩ := MediaPath.strtok_some htoken
          dsimp only
          rw [ih (by omega) (by omega) (by omega)]

theorem length_fileTokens (fuel : Nat) (mem : Str) (v : Nat) : (fileTokens fuel mem v).2.length = mem.length := by
  induction fuel generalizing mem v with
  | zero => rfl
  | succ fuel ih =>
      rw [fileTokens]
      cases htoken : strtok " ?&".toList mem v with
      | none => rfl
      | some t => exact (ih t.mem t.next).trans (MediaPath.strtok_some htoken).1

theorem readTokens_shift (r : Request) (front : Str) (tokens : List Token) :
    readTokens r (tokens.map (Token.shift front)) = readTokens r tokens := by
  rw [readTokens, readTokens, List.foldl_map]
  simp only [Token.behind_shift]
  rfl

theorem readTokens_append (r : Request) (s t : List Token) :
    readTokens r (s ++ t) = readTokens (readTokens r s) t := List.foldl_append

end FileTokens

section Pieces

variable {piece rest : Str} {c d : Char}

def fileRead (mem : Str) : List Token × Str := fileTokens (mem.length + 1) mem 0

theorem fileTokens_append (front mem : Str) {fuel : Nat} (hfuel : mem.length < fuel) :
    fileTokens fuel (front ++ mem) front.length =
      ((fileRead mem).1.map (Token.shift front), front ++ (fileRead mem).2) := by
  have hshift := fileTokens_shift fuel front mem 0
  have hread : fileTokens fuel mem 0 = fileRead mem := fileTokens_of_le (by omega) (Nat.succ_pos _) hfuel
  rwa [Nat.add_zero, hread] at hshift

theorem fileRead_of_none (h : strtok " ?&".toList rest 0 = none) : fileRead rest = ([], rest) := by
  rw [fileRead, fileTokens, h]

theorem fileRead_nul (rest : Str) : fileRead ('\x00' :: rest) = ([], '\x00' :: rest) :=
  fileRead_of_none (@strtok_end _ [] _ (fun _ h => nomatch h) (by decide))

theorem fileRead_separator (hd : d ∈ " ?&".toList) (rest : Str) :
    fileRead (d :: rest) = ((fileRead rest).1.map (Token.shift [d]), d :: (fileRead rest).2) := by
  have hskipped : (d :: rest).takeWhile (fun c => decide (c ∈ " ?&".toList)) =
      d :: rest.takeWhile (fun c => decide (c ∈ " ?&".toList)) :=
    List.takeWhile_cons_of_pos (decide_eq_true hd)
  have hskip : strtok " ?&".toList (d :: rest) 0 = strtok " ?&".toList (d :: rest) 1 := by
    rw [strtok, strtok, List.drop_zero, hskipped, List.length_cons, Nat.zero_add, Nat.add_comm _ 1]
    rfl
  have hsame : fileRead (d :: rest) = fileTokens ((d :: rest).length + 1) (d :: rest) 1 := by
    rw [fileRead, fileTokens, fileTokens, hskip]
  exact hsame.trans (fileTokens_append [d] rest (by rw [List.length_cons]; omega))

theorem fileRead_piece (hpiece : piece ≠ []) (hclean : Clean " ?&".toList piece) (hd : d ∈ " ?&".toList) (rest : Str) :
    fileRead (piece ++ d :: rest) =
      (⟨0, piece, piece.length + 1, piece ++ '\x00' :: rest⟩ ::
        (fileRead rest).1.map (Token.shift (piece ++ ['\x00'])), piece ++ '\x00' :: (fileRead rest).2) := by
  have hne : d ≠ '\x00' := by
    rintro rfl
    exact absurd hd (by decide)
  have htoken := @strtok_text _ [] _ rest _ (fun _ h => nomatch h) hpiece hclean (.inr hd)
  simp only [List.nil_append, List.length_nil, Nat.zero_add, if_neg hne] at htoken
  have hlt : rest.length < (piece ++ d :: rest).length := by
    rw [List.length_append, List.length_cons]
    omega
  have hrest := fileTokens_append (piece ++ ['\x00']) rest hlt
  simp only [List.length_append, List.length_singleton, List.append_assoc, List.singleton_append] at hrest
  rw [fileRead, fileTokens, htoken]
  dsimp only
  rw [List.length_append, hrest]

theorem fileRead_last (hpiece : piece ≠ []) (hclean : Clean " ?&".toList piece) (rest : Str) :
    fileRead (piece ++ '\x00' :: rest) = ([⟨0, piece, piece.length, piece ++ '\x00' :: rest⟩], piece ++ '\x00' :: rest) := by
  have htoken := @strtok_text _ [] _ rest _ (fun _ h => nomatch h) hpiece hclean (.inl rfl)
  simp only [List.nil_append, List.length_nil, Nat.zero_add, if_true, Nat.add_zero] at htoken
  have hlt : ('\x00' :: rest).length < (piece ++ '\x00' :: rest).length := by
    rw [List.length_append]
    exact Nat.lt_add_of_pos_left (List.length_pos_iff.mpr hpiece)
  have hrest := fileTokens_append piece ('\x00' :: rest) hlt
  rw [fileRead_nul] at hrest
  rw [fileRead, fileTokens, htoken]
  dsimp only
  rw [hrest]
  rfl

end Pieces

section Lines

/-- Where `get_file_data` begins in a line. Other lines are for the log alone. -/
def fileOffset (text : Str) : Option Nat :=
  ((find "GET /".toList text).or (find "Range:".toList text)).map fun pdata => text.length - pdata.length

def lineTokens (t : Token) : List Token × Str :=
  match fileOffset t.text with
  | none => ([], t.mem)
  | some offset => fileTokens (t.mem.length + 1) t.mem (t.pch + offset)

theorem readLine_eq (r : Request) (t : Token) :
    r.readLine t = some (readTokens r (lineTokens t).1, (lineTokens t).2) := by
  rw [Request.readLine, lineTokens, fileOffset]
  cases find "GET /".toList t.text with
  | some pdata => exact getFileData_eq r (by omega) (Nat.succ_pos _)
  | none =>
      cases find "Range:".toList t.text with
      | some pdata => exact getFileData_eq r (by omega) (Nat.succ_pos _)
      | none => rfl

theorem length_lineTokens (t : Token) : (lineTokens t).2.length = t.mem.length := by
  rw [lineTokens]
  split
  · rfl
  · exact length_fileTokens _ _ _

theorem lineTokens_shift (front : Str) (t : Token) :
    lineTokens (t.shift front) = ((lineTokens t).1.map (Token.shift front), front ++ (lineTokens t).2) := by
  rw [lineTokens, lineTokens]
  dsimp only [Token.shift]
  cases fileOffset t.text with
  | none => rfl
  | some offset =>
      dsimp only
      rw [Nat.add_assoc, fileTokens_shift, fileTokens_of_le (Nat.lt_add_left _ (Nat.lt_succ_self t.mem.length))
        (Nat.succ_pos _) (by rw [List.length_append]; omega)]

/-- What `get_file_data` reads of a line at the beginning of a memory, and what it leaves. -/
def lineRead (text after : Str) : List Token × Str :=
  match fileOffset text with
  | none => ([], text ++ '\x00' :: after)
  | some offset =>
      ((fileRead (text.drop offset ++ '\x00' :: after)).1.map (Token.shift (text.take offset)),
        text.take offset ++ (fileRead (text.drop offset ++ '\x00' :: after)).2)

theorem lineTokens_eq (front text after : Str) (next : Nat) :
    lineTokens ⟨front.length, text, next, front ++ (text ++ '\x00' :: after)⟩ =
      ((lineRead text after).1.map (Token.shift front), front ++ (lineRead text after).2) := by
  rw [lineTokens, lineRead]
  dsimp only
  cases hoffset : fileOffset text with
  | none => rfl
  | some offset =>
      have hle : offset ≤ text.length := by
        obtain ⟨pdata, -, rfl⟩ := Option.map_eq_some_iff.mp hoffset
        exact Nat.sub_le _ _
      have hsplit : front ++ (text ++ '\x00' :: after) =
          (front ++ text.take offset) ++ (text.drop offset ++ '\x00' :: after) := by
        rw [List.append_assoc, ← List.append_assoc (text.take offset), List.take_append_drop]
      have hlength : front.length + offset = (front ++ text.take offset).length := by
        rw [List.length_append, List.length_take_of_le hle]
      have hlt : (text.drop offset ++ '\x00' :: after).length <
          ((front ++ text.take offset) ++ (text.drop offset ++ '\x00' :: after)).length + 1 := by
        rw [@List.length_append _ (front ++ text.take offset)]
        omega
      dsimp only
      rw [hlength, hsplit, fileTokens_append _ _ hlt, List.map_map, List.append_assoc]
      congr 2
      funext t
      simp only [Token.shift, Function.comp_apply, List.length_append, List.append_assoc, Nat.add_assoc]

end Lines

/-- The loop over the lines in front of a call of `strtok`. -/
structure Scan where
  mem : Str
  pshift : Nat

namespace Scan

def line (s : Scan) : Option Token := strtok "\r\n".toList s.mem s.pshift

def next (s : Scan) : Option Scan := s.line.map fun t => ⟨(lineTokens t).2, s.pshift + t.text.length + 2⟩

def tokens (s : Scan) : List Token := (s.line.map fun t => (lineTokens t).1).getD []

def start (recvStr behind : Str) : Scan := ⟨Request.memory recvStr behind, 0⟩

end Scan

def scan (recvStr behind : Str) : List Scan :=
  trace Scan.next ((Request.memory recvStr behind).length + 1) (Scan.start recvStr behind)

def tokensRead (recvStr behind : Str) : List Token := (scan recvStr behind).flatMap Scan.tokens

section Runs

variable {s t : Scan} {fuel : Nat}

theorem next_cases (h : s.next = some t) :
    t.mem.length = s.mem.length ∧ s.pshift < s.mem.length ∧ s.pshift + 2 < t.pshift := by
  obtain ⟨l, hl, rfl⟩ := Option.map_eq_some_iff.mp h
  obtain ⟨hlength, hlt, -⟩ := MediaPath.strtok_some hl
  have htext : l.text ≠ [] := by
    rw [Scan.line, strtok] at hl
    split at hl
    · cases hl
    · rename_i hne
      split at hl <;> (cases hl; exact hne)
  have hpos := List.length_pos_iff.mpr htext
  refine ⟨(length_lineTokens l).trans hlength, hlt, ?_⟩
  dsimp only
  omega

theorem ends (hfuel : s.mem.length < s.pshift + fuel) (hpos : 0 < fuel) : Ends Scan.next fuel s := by
  induction fuel generalizing s with
  | zero => exact absurd hpos (Nat.lt_irrefl 0)
  | succ fuel ih =>
      intro t ht
      obtain ⟨hlength, hlt, hnext⟩ := next_cases ht
      exact ih (by omega) (by omega)

theorem readLines_eq (r : Request) (hfuel : s.mem.length < s.pshift + fuel) (hpos : 0 < fuel) :
    Request.readLines fuel s.mem s.pshift r =
      some (readTokens r ((trace Scan.next fuel s).flatMap Scan.tokens)) := by
  induction fuel generalizing s r with
  | zero => exact absurd hpos (Nat.lt_irrefl 0)
  | succ fuel ih =>
      cases hline : s.line with
      | none =>
          have hnext : s.next = none := by rw [Scan.next, hline, Option.map_none]
          rw [trace_of_none hnext, List.flatMap_singleton, Scan.tokens, hline, Request.readLines]
          have hstrtok : strtok "\r\n".toList s.mem s.pshift = none := hline
          rw [hstrtok]
          rfl
      | some t =>
          have hnext : s.next = some ⟨(lineTokens t).2, s.pshift + t.text.length + 2⟩ := by
            rw [Scan.next, hline, Option.map_some]
          obtain ⟨hlength, hlt, hfurther⟩ := next_cases hnext
          have hstrtok : strtok "\r\n".toList s.mem s.pshift = some t := hline
          rw [trace_of_some hnext, List.flatMap_cons, readTokens_append, Scan.tokens, hline, Request.readLines,
            hstrtok]
          simp only [readLine_eq, Option.bind_eq_bind, Option.bind_some]
          dsimp only at hlength hfurther
          exact ih (s := ⟨(lineTokens t).2, s.pshift + t.text.length + 2⟩) _ (by dsimp only; omega) (by omega)

/-- The request is what the tokens make of it, one by one. -/
theorem parse_eq (r : Request) (recvStr behind : Str) :
    r.parse recvStr behind = some (readTokens r (tokensRead recvStr behind)) :=
  readLines_eq r (s := Scan.start recvStr behind) (Nat.lt_add_left _ (Nat.lt_succ_self _)) (Nat.succ_pos _)

theorem sparse_eq (aliases : SortedMap Str Str) (startPosition duration : Int) (recvStr behind : Str) :
    Request.sparse aliases startPosition duration recvStr behind =
      some (Request.filePath aliases (readTokens (.new startPosition duration) (tokensRead recvStr behind))) := by
  rw [Request.sparse, parse_eq]
  rfl

end Runs

section Texts

variable {front skip text after : Str} {c : Char}

theorem line_text (hskip : ∀ c ∈ skip, c ∈ "\r\n".toList) (htext : text ≠ []) (hclean : Clean "\r\n".toList text)
    (hc : c = '\x00' ∨ c ∈ "\r\n".toList) :
    ∃ further, Scan.line ⟨front ++ (skip ++ (text ++ c :: after)), front.length⟩ =
      some ⟨(front ++ skip).length, text, further, (front ++ skip) ++ (text ++ '\x00' :: after)⟩ := by
  have hshift := strtok_shift "\r\n".toList front (skip ++ (text ++ c :: after)) 0
  rw [strtok_text hskip htext hclean hc, Nat.add_zero, Option.map_some] at hshift
  dsimp only [Token.shift] at hshift
  rw [List.length_append, List.append_assoc]
  exact ⟨_, hshift⟩

theorem line_end (hskip : ∀ c ∈ skip, c ∈ "\r\n".toList) :
    Scan.line ⟨front ++ (skip ++ '\x00' :: after), front.length⟩ = none := by
  have hshift := strtok_shift "\r\n".toList front (skip ++ '\x00' :: after) 0
  rwa [strtok_end hskip (by decide), Nat.add_zero, Option.map_none] at hshift

theorem next_text (hskip : ∀ c ∈ skip, c ∈ "\r\n".toList) (htext : text ≠ []) (hclean : Clean "\r\n".toList text)
    (hc : c = '\x00' ∨ c ∈ "\r\n".toList) :
    Scan.next ⟨front ++ (skip ++ (text ++ c :: after)), front.length⟩ =
      some ⟨(front ++ skip) ++ (lineRead text after).2, front.length + text.length + 2⟩ := by
  obtain ⟨further, hline⟩ := @line_text front _ _ after _ hskip htext hclean hc
  rw [Scan.next, hline, Option.map_some, lineTokens_eq]

theorem tokens_text (hskip : ∀ c ∈ skip, c ∈ "\r\n".toList) (htext : text ≠ []) (hclean : Clean "\r\n".toList text)
    (hc : c = '\x00' ∨ c ∈ "\r\n".toList) :
    Scan.tokens ⟨front ++ (skip ++ (text ++ c :: after)), front.length⟩ =
      (lineRead text after).1.map (Token.shift (front ++ skip)) := by
  obtain ⟨further, hline⟩ := @line_text front _ _ after _ hskip htext hclean hc
  rw [Scan.tokens, hline, Option.map_some, Option.getD_some, lineTokens_eq]

def Scan.shift (front : Str) (s : Scan) : Scan := ⟨front ++ s.mem, front.length + s.pshift⟩

theorem line_shift (front : Str) (s : Scan) : (s.shift front).line = s.line.map (Token.shift front) :=
  strtok_shift "\r\n".toList front s.mem s.pshift

theorem next_shift (front : Str) (s : Scan) : (s.shift front).next = s.next.map (Scan.shift front) := by
  rw [Scan.next, Scan.next, line_shift, Option.map_map, Option.map_map]
  refine congrArg (fun f => Option.map f s.line) (funext fun t => ?_)
  simp only [Function.comp_apply, lineTokens_shift, Scan.shift]
  simp only [Token.shift, Nat.add_assoc]

theorem tokens_shift (front : Str) (s : Scan) : (s.shift front).tokens = s.tokens.map (Token.shift front) := by
  rw [Scan.tokens, Scan.tokens, line_shift]
  cases s.line with
  | none => rfl
  | some t =>
      simp only [Option.map_some, Option.getD_some, lineTokens_shift]

def restTokens (mem : Str) : List Token := (trace Scan.next (mem.length + 1) ⟨mem, 0⟩).flatMap Scan.tokens

theorem flatMap_tokens_append (front mem : Str) {fuel : Nat} (hfuel : mem.length < fuel) :
    (trace Scan.next fuel ⟨front ++ mem, front.length⟩).flatMap Scan.tokens =
      (restTokens mem).map (Token.shift front) := by
  have hends : Ends Scan.next (mem.length + 1) ⟨mem, 0⟩ := ends (Nat.lt_add_left _ (Nat.lt_succ_self _)) (Nat.succ_pos _)
  have hshift := trace_map (Scan.shift front) (next_shift front) fuel ⟨mem, 0⟩
  rw [Scan.shift, Nat.add_zero, trace_of_ends hends hfuel] at hshift
  rw [hshift, restTokens, List.flatMap_map, List.map_flatMap]
  refine congrArg (fun f => List.flatMap f _) (funext fun s => tokens_shift front s)

end Texts

end Scanner

end RadioServices.Musicgo

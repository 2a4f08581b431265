import RadioServices.Lib.CString
import RadioServices.Lib.Fgets
import RadioServices.Lib.Strip

namespace RadioServices.IniParser

open Lib Lib.C Lib.Fgets

universe u

variable {σ : Type u}

def initMaxLine : Nat := 200

def maxSection : Nat := 50

def maxName : Nat := 50

def inlineCommentPrefixes : Str := [';']

def bom : Str := ['\u00ef', '\u00bb', '\u00bf']

def rstrip (s : Str) : Str := s.rdropWhile isSpace

def lskip (s : Str) : Str := s.dropWhile isSpace

/-- The search stops at one of `chars`, which is `none` for a null pointer. -/
def stops (chars : Option Str) (c : Char) : Bool := chars.any fun cs => decide (c ∈ cs)

def found (chars : Option Str) (wasSpace : Bool) (c : Char) : Bool :=
  stops chars c || (wasSpace && decide (c ∈ inlineCommentPrefixes))

/-- What is in front of the first of `chars` or of an inline comment, and the
rest. -/
def findCharsOrComment (chars : Option Str) : Bool → Str → Str × Str
  | _, [] => ([], [])
  | wasSpace, c :: s =>
      if found chars wasSpace c then ([], c :: s)
      else (c :: (findCharsOrComment chars (isSpace c) s).1, (findCharsOrComment chars (isSpace c) s).2)

def strncpy0 (src : Str) (size : Nat) : Str := src.take (size - 1)

abbrev Handler (σ : Type u) := σ → Str → Str → Str → Bool × σ

structure State (σ : Type u) where
  user : σ
  sectionName : Str
  prevName : Str
  lineno : Nat
  error : Nat

/-- The first line with an error is kept. -/
def fail (s : State σ) : State σ := { s with error := if s.error = 0 then s.lineno else s.error }

def call (handler : Handler σ) (s : State σ) (name value : Str) : State σ :=
  let answer := handler s.user s.sectionName name value
  let t := { s with user := answer.2 }
  if answer.1 then t else fail t

def sectionLine (s : State σ) (text : Str) : State σ :=
  match findCharsOrComment (some [']']) false text with
  | (name, ']' :: _) => { s with sectionName := strncpy0 name maxSection, prevName := [] }
  | _ => fail s

def pairLine (handler : Handler σ) (s : State σ) (start : Str) : State σ :=
  match findCharsOrComment (some ['=', ':']) false start with
  | (left, c :: right) =>
      if c = '=' ∨ c = ':' then
        let name := rstrip left
        let value := rstrip (findCharsOrComment none false (lskip right)).1
        call handler { s with prevName := strncpy0 name maxName } name value
      else fail s
  | (_, []) => fail s

/-- The line without the spaces at its end. `start` stands behind the beginning
of the line if something was skipped in front of it. -/
def strippedLine (handler : Handler σ) (s : State σ) (marked : Bool) (stripped : Str) : State σ :=
  match lskip stripped with
  | [] => s
  | c :: text =>
      let start := c :: text
      if c = ';' ∨ c = '#' then s
      else if s.prevName ≠ [] ∧ (marked = true ∨ start.length < stripped.length) then call handler s s.prevName start
      else if c = '[' then sectionLine s text
      else pairLine handler s start

def nextLine (handler : Handler σ) (s₀ : State σ) (buffer : Str) : State σ :=
  let line := cstr buffer
  let s := { s₀ with lineno := s₀.lineno + 1 }
  let marked := decide (s.lineno = 1 ∧ bom <+: line)
  strippedLine handler s marked (rstrip (if marked then line.drop bom.length else line))

def iniParseStream (handler : Handler σ) (lines : List Str) (user : σ) : State σ :=
  lines.foldl (nextLine handler) ⟨user, [], [], 0, 0⟩

def iniParseFile (handler : Handler σ) (file : Str) (user : σ) : State σ :=
  iniParseStream handler (buffers '\n' (initMaxLine - 1) file) user

/-- The file is `none` if it cannot be opened. -/
def iniParse (handler : Handler σ) (file : Option Str) (user : σ) : Int × σ :=
  match file with
  | none => (-1, user)
  | some bytes => ((iniParseFile handler bytes user).error, (iniParseFile handler bytes user).user)

section Find

variable {chars : Option Str} {w : Bool} {c : Char}

theorem found_iff : found chars w c = true ↔ stops chars c = true ∨ w = true ∧ c = ';' := by
  simp [found, inlineCommentPrefixes]

theorem findCharsOrComment_found (h : found chars w c = true) (s : Str) :
    findCharsOrComment chars w (c :: s) = ([], c :: s) := if_pos h

theorem findCharsOrComment_cons (h : ¬ found chars w c = true) (s : Str) : findCharsOrComment chars w (c :: s) =
    (c :: (findCharsOrComment chars (isSpace c) s).1, (findCharsOrComment chars (isSpace c) s).2) := if_neg h

theorem findCharsOrComment_append (chars : Option Str) (w : Bool) (s : Str) :
    (findCharsOrComment chars w s).1 ++ (findCharsOrComment chars w s).2 = s := by
  induction s generalizing w with
  | nil => rfl
  | cons c s ih =>
      by_cases hc : found chars w c = true
      · rw [findCharsOrComment_found hc, List.nil_append]
      · rw [findCharsOrComment_cons hc, List.cons_append, ih]

/-- No inline comment begins in the text. -/
def Plain (s : Str) : Prop := ∀ c, isSpace c = true → ¬ [c, ';'] <:+: s

/-- None begins behind a character that was a space or not, either. -/
def Clear (wasSpace : Bool) (s : Str) : Prop := (wasSpace = true → s.head? ≠ some ';') ∧ Plain s

theorem clear_nil (w : Bool) : Clear w [] := by
  refine ⟨fun _ h => (nomatch h), fun c _ h => ?_⟩
  have hle := h.length_le
  simp at hle

theorem clear_false {s : Str} : Clear false s ↔ Plain s := and_iff_right fun h => (nomatch h)

theorem plain_cons {s : Str} : Plain (c :: s) ↔ Clear (isSpace c) s := by
  constructor
  · intro h
    refine ⟨fun hc hhead => ?_, fun d hd hinfix => h d hd (List.infix_cons hinfix)⟩
    obtain ⟨t, rfl⟩ := List.head?_eq_some_iff.mp hhead
    exact h c hc ⟨[], t, rfl⟩
  · rintro ⟨hhead, hrest⟩ d hd hinfix
    rcases List.infix_cons_iff.mp hinfix with hbegins | hlater
    · obtain ⟨rfl, t, rfl⟩ := List.cons_prefix_cons.mp hbegins
      exact hhead hd rfl
    · exact hrest d hd hlater

theorem clear_cons {s : Str} : Clear w (c :: s) ↔ ¬ (w = true ∧ c = ';') ∧ Clear (isSpace c) s := by
  rw [Clear, plain_cons, List.head?_cons, ne_eq, Option.some.injEq, not_and]

theorem clear_append {a b : Str} (ha : Clear w a) (hb : ';' ∉ b) : Clear w (a ++ b) := by
  induction a generalizing w with
  | nil =>
      refine ⟨fun _ h => hb (List.mem_of_head? h), fun c _ hinfix => hb ?_⟩
      exact hinfix.subset (List.mem_cons_of_mem _ List.mem_cons_self)
  | cons c a ih =>
      rw [List.cons_append, clear_cons]
      exact (clear_cons.mp ha).imp_right ih

theorem clear_of_append {a b : Str} (h : Clear w (a ++ b)) : Clear w a := by
  induction a generalizing w with
  | nil => exact clear_nil w
  | cons c a ih =>
      rw [List.cons_append, clear_cons] at h
      exact clear_cons.mpr (h.imp_right ih)

def Free (chars : Option Str) (wasSpace : Bool) (s : Str) : Prop :=
  Clear wasSpace s ∧ ∀ c ∈ s, stops chars c = false

theorem free_nil : Free chars w [] := ⟨clear_nil w, fun _ h => (nomatch h)⟩

theorem free_cons {s : Str} : Free chars w (c :: s) ↔ ¬ found chars w c = true ∧ Free chars (isSpace c) s := by
  rw [Free, Free, clear_cons, List.forall_mem_cons, found_iff, not_or, Bool.not_eq_true]
  tauto

theorem findCharsOrComment_of_free {a : Str} (h : Free chars w a) : findCharsOrComment chars w a = (a, []) := by
  induction a generalizing w with
  | nil => rfl
  | cons c a ih =>
      obtain ⟨hc, ha⟩ := free_cons.mp h
      rw [findCharsOrComment_cons hc, ih ha]

theorem findCharsOrComment_of_stop {a : Str} (h : Free chars w a) (hc : stops chars c = true) (s : Str) :
    findCharsOrComment chars w (a ++ c :: s) = (a, c :: s) := by
  induction a generalizing w with
  | nil => exact findCharsOrComment_found (found_iff.mpr (.inl hc)) s
  | cons d a ih =>
      obtain ⟨hd, ha⟩ := free_cons.mp h
      rw [List.cons_append, findCharsOrComment_cons hd, ih ha]

theorem findCharsOrComment_of_comment {a : Str} (h : Free chars w (a ++ [c])) (hc : isSpace c = true) (s : Str) :
    findCharsOrComment chars w (a ++ c :: ';' :: s) = (a ++ [c], ';' :: s) := by
  induction a generalizing w with
  | nil =>
      have hsemicolon : found chars (isSpace c) ';' = true := found_iff.mpr (.inr ⟨hc, rfl⟩)
      rw [List.nil_append, findCharsOrComment_cons (free_cons.mp h).1, findCharsOrComment_found hsemicolon]
      rfl
  | cons d a ih =>
      obtain ⟨hd, ha⟩ := free_cons.mp h
      rw [List.cons_append, findCharsOrComment_cons hd, ih ha]
      rfl

theorem findCharsOrComment_fst (chars : Option Str) (w : Bool) (s : Str) :
    Free chars w (findCharsOrComment chars w s).1 := by
  induction s generalizing w with
  | nil => exact free_nil
  | cons c s ih =>
      by_cases hc : found chars w c = true
      · rw [findCharsOrComment_found hc]
        exact free_nil
      · rw [findCharsOrComment_cons hc]
        exact free_cons.mpr ⟨hc, ih _⟩

theorem findCharsOrComment_snd {s t : Str} (h : (findCharsOrComment chars w s).2 = c :: t) :
    stops chars c = true ∨
      c = ';' ∧ ((findCharsOrComment chars w s).1 = [] ∧ w = true ∨
        ∃ a d, (findCharsOrComment chars w s).1 = a ++ [d] ∧ isSpace d = true) := by
  induction s generalizing w with
  | nil => cases h
  | cons d s ih =>
      by_cases hd : found chars w d = true
      · rw [findCharsOrComment_found hd] at h ⊢
        cases h
        exact (found_iff.mp hd).imp_right fun hw => ⟨hw.2, .inl ⟨rfl, hw.1⟩⟩
      · rw [findCharsOrComment_cons hd] at h ⊢
        rcases ih h with hstop | ⟨rfl, hnil | ⟨a, e, he, hspace⟩⟩
        · exact .inl hstop
        · exact .inr ⟨rfl, .inr ⟨[], d, congrArg (d :: ·) hnil.1, hnil.2⟩⟩
        · exact .inr ⟨rfl, .inr ⟨d :: a, e, congrArg (d :: ·) he, hspace⟩⟩

end Find

end RadioServices.IniParser

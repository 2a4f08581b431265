import RadioServices.IniParser
import RadioServices.Lib.Lines

namespace RadioServices.IniGrammar

open Lib Lib.C Lib.Fgets Lib.Strip IniParser

universe u

variable {σ : Type u}

def Spaces (s : Str) : Prop := ∀ c ∈ s, isSpace c = true

def Trimmed (s : Str) : Prop := Begins isSpace s ∧ Ends isSpace s

instance (s : Str) : Decidable (Trimmed s) := inferInstanceAs (Decidable (_ ∧ _))

def comments : Str := [';', '#']

/-- A name and its value, with the spaces around them and a note behind. -/
structure Pair where
  indent : Str
  name : Str
  before : Str
  sign : Char
  after : Str
  value : Str
  trail : Str
  note : Option Str

def noteText : Option Str → Str
  | none => []
  | some text => ';' :: text

def Pair.right (p : Pair) : Str := p.after ++ (p.value ++ (p.trail ++ noteText p.note))

def Pair.render (p : Pair) : Str := p.indent ++ (p.name ++ (p.before ++ p.sign :: p.right))

/-- A line that opens with spaces is a pair only as long as no name is open. -/
structure Pair.Fits (p : Pair) (opened : Prop) : Prop where
  indent : Spaces p.indent
  flush : opened → p.indent = []
  name : Trimmed p.name
  free : Free (some ['=', ':']) false p.name
  head : ∀ c ∈ p.name.head?, c ∉ '[' :: comments
  before : Spaces p.before
  unnamed : p.name = [] → p.before = []
  sign : p.sign = '=' ∨ p.sign = ':'
  after : Spaces p.after
  value : Trimmed p.value
  plain : Plain p.value
  trail : Spaces p.trail
  note : p.note.isSome = true → p.value ≠ [] ∧ p.trail ≠ []

inductive Line
  | blank (spaces : Str)
  | comment (indent : Str) (mark : Char) (text : Str)
  | header (indent name after : Str)
  | pair (p : Pair)
  | more (indent value trail : Str)

namespace Line

def render : Line → Str
  | blank spaces => spaces
  | comment indent mark text => indent ++ mark :: text
  | header indent name after => indent ++ '[' :: (name ++ ']' :: after)
  | pair p => p.render
  | more indent value trail => indent ++ (value ++ trail)

/-- What a line has to be like. `opened` says that there is a name that it can go on with. -/
def Fits (opened : Prop) : Line → Prop
  | blank spaces => Spaces spaces
  | comment indent mark _ => Spaces indent ∧ mark ∈ comments
  | header indent name _ => Spaces indent ∧ (opened → indent = []) ∧ Free (some [']']) false name
  | pair p => p.Fits opened
  | more indent value trail => opened ∧ Spaces indent ∧ indent ≠ [] ∧ Trimmed value ∧ value ≠ [] ∧
      (∀ c ∈ value.head?, c ∉ comments) ∧ Spaces trail

end Line

/-- Where a line stands: in which section, and behind which name. -/
structure Place where
  sectionName : Str
  name : Str

def Place.Opened (p : Place) : Prop := p.name ≠ []

def start : Place := ⟨[], []⟩

def Line.place (p : Place) : Line → Place
  | .header _ name _ => ⟨name.take 49, []⟩
  | .pair q => ⟨p.sectionName, q.name.take 49⟩
  | _ => p

def Line.given (p : Place) : Line → Option (Str × Str)
  | .pair q => some (q.name, q.value)
  | .more _ value _ => some (p.name, value)
  | _ => none

def meaning : Place → List Line → List (Str × Str × Str)
  | _, [] => []
  | p, l :: doc => ((l.given p).map fun g => (p.sectionName, g)).toList ++ meaning (l.place p) doc

def Valid : Place → List Line → Prop
  | _, [] => True
  | p, l :: doc => l.Fits p.Opened ∧ Valid (l.place p) doc

def placeOf (s : State σ) : Place := ⟨s.sectionName, s.prevName⟩

/-- The lines of a text that belong to the grammar, read from a place behind
`n` lines, and the numbers of those that do not. -/
inductive Reads : Place → Nat → List Str → List Line → List Nat → Prop
  | nil (p : Place) (n : Nat) : Reads p n [] [] []
  | line {p : Place} {n : Nat} {l : Line} {texts : List Str} {doc : List Line} {bad : List Nat} (h : l.Fits p.Opened)
      (rest : Reads (l.place p) (n + 1) texts doc bad) : Reads p n (l.render :: texts) (l :: doc) bad
  | skip {p : Place} {n : Nat} {text : Str} {texts : List Str} {doc : List Line} {bad : List Nat}
      (h : ∀ l : Line, l.Fits p.Opened → l.render ≠ text) (rest : Reads p (n + 1) texts doc bad) :
      Reads p n (text :: texts) doc ((n + 1) :: bad)

/-- The file has no NUL, and each of its lines has room in the buffer. -/
def Readable (file : Str) : Prop := '\x00' ∉ file ∧ ∀ t ∈ Lines.lines '\n' file, t.length < initMaxLine - 1

instance (file : Str) : Decidable (Readable file) := inferInstanceAs (Decidable (_ ∧ _))

def unmarked (text : Str) : Str := if bom <+: text then text.drop bom.length else text

def texts (file : Str) : List Str := (Lines.lines '\n' file).modifyHead unmarked

def deliver (handler : Handler σ) (user : σ) (calls : List (Str × Str × Str)) : σ :=
  calls.foldl (fun u t => (handler u t.1 t.2.1 t.2.2).2) user

def Line.apply (handler : Handler σ) (s : State σ) (l : Line) : State σ :=
  let place := l.place (placeOf s)
  let t := { s with sectionName := place.sectionName, prevName := place.name }
  match l.given (placeOf s) with
  | none => t
  | some (name, value) => call handler t name value

section Strip

variable {s t : Str}

theorem rstrip_append_spaces (s : Str) (h : Spaces t) : rstrip (s ++ t) = rstrip s := rdropWhile_append_of_all s h

theorem rstrip_spaces (h : Spaces s) : rstrip s = [] := List.rdropWhile_eq_nil_iff.mpr h

theorem rstrip_append_cons (s : Str) {c : Char} (hc : isSpace c = false) (t : Str) :
    rstrip (s ++ c :: t) = s ++ c :: rstrip t := rdropWhile_append_cons s hc t

theorem rstrip_append_trimmed (s : Str) (hne : t ≠ []) (ht : Trimmed t) (u : Str) :
    rstrip (s ++ (t ++ u)) = s ++ (t ++ rstrip u) := by
  have hends : Ends isSpace (s ++ t) := (ends_append hne).mpr ht.2
  have hst : s ++ t ≠ [] := fun h => hne (List.append_eq_nil_iff.mp h).2
  rw [← List.append_assoc, rstrip, rdropWhile_append_of_ends hst hends, List.append_assoc]
  rfl

theorem lskip_spaces_append (h : Spaces s) (ht : Begins isSpace t) : lskip (s ++ t) = t := by
  rw [lskip, dropWhile_append_of_all h, dropWhile_eq_self ht]

theorem begins_trimmed_append (hne : s ≠ []) (hs : Trimmed s) : Begins isSpace (s ++ t) :=
  (begins_append hne).mpr hs.1

end Strip

section Shapes

variable {handler : Handler σ} {s : State σ} {marked : Bool} {indent text : Str} {c : Char}

theorem not_isSpace_of_comment (h : c ∈ comments) : isSpace c = false := by
  rcases List.mem_pair.mp h with rfl | rfl <;> rfl

theorem strippedLine_cons (hindent : Spaces indent) (hc : isSpace c = false) :
    strippedLine handler s marked (indent ++ c :: text) =
      if c ∈ comments then s
      else if s.prevName ≠ [] ∧ (marked = true ∨ indent ≠ []) then call handler s s.prevName (c :: text)
      else if c = '[' then sectionLine s text
      else pairLine handler s (c :: text) := by
  have hskip : lskip (indent ++ c :: text) = c :: text := lskip_spaces_append hindent (begins_cons.mpr hc)
  have hmark : (c = ';' ∨ c = '#') = (c ∈ comments) := propext List.mem_pair.symm
  have hlength : ((c :: text).length < (indent ++ c :: text).length) = (indent ≠ []) := by
    rw [List.length_append, ← List.length_pos_iff]
    exact propext (by omega)
  rw [strippedLine, hskip]
  simp only [hmark, hlength]

theorem strippedLine_comment (hindent : Spaces indent) (hc : c ∈ comments) :
    strippedLine handler s marked (indent ++ c :: text) = s := by
  rw [strippedLine_cons hindent (not_isSpace_of_comment hc), if_pos hc]

theorem strippedLine_more (hindent : Spaces indent) (hc : isSpace c = false) (hcomment : c ∉ comments)
    (hopen : s.prevName ≠ []) (hmore : marked = true ∨ indent ≠ []) :
    strippedLine handler s marked (indent ++ c :: text) = call handler s s.prevName (c :: text) := by
  rw [strippedLine_cons hindent hc, if_neg hcomment, if_pos ⟨hopen, hmore⟩]

theorem strippedLine_flush (hindent : Spaces indent) (hc : isSpace c = false) (hcomment : c ∉ comments)
    (hflush : s.prevName ≠ [] → ¬ (marked = true ∨ indent ≠ [])) : strippedLine handler s marked (indent ++ c :: text) =
      if c = '[' then sectionLine s text else pairLine handler s (c :: text) := by
  rw [strippedLine_cons hindent hc, if_neg hcomment, if_neg fun h => hflush h.1 h.2]

end Shapes

section Sound

variable {handler : Handler σ} {s : State σ} {marked : Bool}

theorem Pair.render_eq (p : Pair) : p.render = p.indent ++ ((p.name ++ p.before) ++ p.sign :: p.right) := by
  rw [Pair.render, List.append_assoc]

theorem isSpace_sign {c : Char} (h : c = '=' ∨ c = ':') : isSpace c = false := by
  rcases h with rfl | rfl <;> rfl

theorem stops_sign {c : Char} : stops (some ['=', ':']) c = true ↔ c = '=' ∨ c = ':' := by simp [stops]

theorem Pair.Fits.left {p : Pair} {opened : Prop} (h : p.Fits opened) : Free (some ['=', ':']) false (p.name ++ p.before) := by
  have hspace : ∀ c, isSpace c = true → stops (some ['=', ':']) c = false := by
    intro c hc
    rw [Bool.eq_false_iff, ne_eq, stops_sign]
    rintro (rfl | rfl) <;> cases hc
  refine ⟨clear_append h.free.1 fun hmem => (nomatch h.before _ hmem), fun c hc => ?_⟩
  rcases List.mem_append.mp hc with hc | hc
  · exact h.free.2 c hc
  · exact hspace c (h.before c hc)

theorem rstrip_name {p : Pair} {opened : Prop} (h : p.Fits opened) : rstrip (p.name ++ p.before) = p.name := by
  rw [rstrip_append_spaces _ h.before, rstrip, rdropWhile_eq_self h.name.2]

theorem Pair.Fits.exists_start {p : Pair} {opened : Prop} (h : p.Fits opened) {right : Str} :
    ∃ c text, (p.name ++ p.before) ++ p.sign :: right = c :: text ∧ isSpace c = false ∧ c ∉ '[' :: comments := by
  cases hname : p.name with
  | nil =>
      refine ⟨p.sign, right, by rw [h.unnamed hname]; rfl, isSpace_sign h.sign, ?_⟩
      rcases h.sign with heq | heq <;> rw [heq] <;> decide
  | cons c name =>
      have hbegins := h.name.1
      have hhead := h.head
      rw [hname] at hbegins hhead
      exact ⟨c, _, rfl, begins_cons.mp hbegins, hhead c rfl⟩

theorem value_right {p : Pair} {opened : Prop} (h : p.Fits opened) :
    rstrip (findCharsOrComment none false (lskip (rstrip p.right))).1 = p.value := by
  have hfree : Free none false p.value := ⟨clear_false.mpr h.plain, fun _ _ => rfl⟩
  have hspaces : Free none false (p.value ++ p.trail) :=
    ⟨clear_append hfree.1 fun hmem => (nomatch h.trail _ hmem), fun _ _ => rfl⟩
  have hself : rstrip p.value = p.value := rdropWhile_eq_self h.value.2
  by_cases hvalue : p.value = []
  · have hnote : p.note = none := by
      rw [← Option.not_isSome_iff_eq_none]
      exact fun hsome => (h.note hsome).1 hvalue
    have hright : Spaces p.right := by
      rw [Pair.right, hvalue, hnote]
      intro c hc
      simp only [noteText, List.append_nil, List.nil_append, List.mem_append] at hc
      exact hc.elim (h.after c) (h.trail c)
    rw [rstrip_spaces hright, hvalue]
    rfl
  · have hskip : lskip (rstrip p.right) = p.value ++ rstrip (p.trail ++ noteText p.note) := by
      rw [Pair.right, rstrip_append_trimmed _ hvalue h.value]
      exact lskip_spaces_append h.after (begins_trimmed_append hvalue h.value)
    rw [hskip]
    cases hnote : p.note with
    | none =>
        have hnothing : rstrip (p.trail ++ noteText none) = [] := by
          rw [noteText, List.append_nil, rstrip_spaces h.trail]
        rw [hnothing, List.append_nil, findCharsOrComment_of_free hfree, hself]
    | some text =>
        have htrail : p.trail ≠ [] := (h.note (by rw [hnote]; rfl)).2
        have hsemicolon : isSpace ';' = false := rfl
        rw [noteText, rstrip_append_cons _ hsemicolon]
        obtain ⟨t, d, ht⟩ := (List.eq_nil_or_concat' p.trail).resolve_left htrail
        have hd : isSpace d = true := h.trail d (by rw [ht]; simp)
        have hassoc : p.value ++ (p.trail ++ ';' :: rstrip text) = (p.value ++ t) ++ d :: ';' :: rstrip text := by
          simp [ht]
        have hback : (p.value ++ t) ++ [d] = p.value ++ p.trail := by rw [ht, List.append_assoc]
        rw [hassoc, findCharsOrComment_of_comment (by rwa [hback]) hd, hback, rstrip_append_spaces _ h.trail, hself]

theorem strippedLine_pair {p : Pair} (h : p.Fits (placeOf s).Opened) (hmarked : marked = true → s.prevName = []) :
    strippedLine handler s marked (rstrip p.render) = (Line.pair p).apply handler s := by
  have hstrip : rstrip p.render = p.indent ++ ((p.name ++ p.before) ++ p.sign :: rstrip p.right) := by
    rw [p.render_eq, ← List.append_assoc, rstrip_append_cons _ (isSpace_sign h.sign), List.append_assoc]
  have hnot : s.prevName ≠ [] → ¬ (marked = true ∨ p.indent ≠ []) := by
    rintro hprev (hmark | hindent)
    · exact hprev (hmarked hmark)
    · exact hindent (h.flush hprev)
  obtain ⟨c, text, hstart, hc, hmark⟩ := h.exists_start
  have hcomment : c ∉ comments := fun hmem => hmark (List.mem_cons_of_mem _ hmem)
  have hbracket : c ≠ '[' := fun heq => hmark (heq ▸ List.mem_cons_self)
  have hsign : stops (some ['=', ':']) p.sign = true := stops_sign.mpr h.sign
  rw [hstrip, hstart, strippedLine_flush h.indent hc hcomment hnot, if_neg hbracket, ← hstart, pairLine,
    findCharsOrComment_of_stop h.left hsign]
  dsimp only
  rw [if_pos h.sign, rstrip_name h, value_right h]
  rfl

theorem strippedLine_of_fits {l : Line} (h : l.Fits (placeOf s).Opened) (hmarked : marked = true → s.prevName = []) :
    strippedLine handler s marked (rstrip l.render) = l.apply handler s := by
  cases l with
  | blank spaces =>
      rw [Line.render, rstrip_spaces h]
      rfl
  | comment indent mark text =>
      rw [Line.render, rstrip_append_cons _ (not_isSpace_of_comment h.2), strippedLine_comment h.1 h.2]
      rfl
  | header indent name after =>
      obtain ⟨hindent, hflush, hname⟩ := h
      have hopen : isSpace '[' = false := rfl
      have hclose : isSpace ']' = false := rfl
      have hassoc : indent ++ '[' :: (name ++ ']' :: after) = (indent ++ '[' :: name) ++ ']' :: after := by simp
      have hnot : s.prevName ≠ [] → ¬ (marked = true ∨ indent ≠ []) := by
        rintro hprev (hmark | hindent)
        · exact hprev (hmarked hmark)
        · exact hindent (hflush hprev)
      have hfind := findCharsOrComment_of_stop hname (c := ']') rfl (rstrip after)
      rw [Line.render, hassoc, rstrip_append_cons _ hclose, List.append_assoc, List.cons_append,
        strippedLine_flush hindent hopen (by decide) hnot, if_pos rfl, sectionLine, hfind]
      rfl
  | pair p => exact strippedLine_pair h hmarked
  | more indent value trail =>
      obtain ⟨hopen, hindent, hne, htrim, hvalue, hcomment, htrail⟩ := h
      have hstrip : rstrip (indent ++ (value ++ trail)) = indent ++ value := by
        rw [rstrip_append_trimmed _ hvalue htrim, rstrip_spaces htrail, List.append_nil]
      obtain ⟨c, text, rfl⟩ := List.exists_cons_of_ne_nil hvalue
      rw [Line.render, hstrip, strippedLine_more hindent (begins_cons.mp htrim.1) (hcomment c rfl) hopen (.inr hne)]
      rfl

end Sound

section Complete

variable {handler : Handler σ} {s : State σ} {marked : Bool} {text : Str}

theorem sectionLine_or_fail (s : State σ) (text : Str) :
    (∃ name after, text = name ++ ']' :: after ∧ Free (some [']']) false name) ∨ sectionLine s text = fail s := by
  have happend := findCharsOrComment_append (some [']']) false text
  have hfree := findCharsOrComment_fst (some [']']) false text
  rw [sectionLine]
  split
  · rename_i name after hfind
    rw [hfind] at happend hfree
    exact .inl ⟨name, after, happend.symm, hfree⟩
  · exact .inr rfl

theorem pairLine_or_fail (handler : Handler σ) (s : State σ) (text : Str) :
    (∃ left sign right, text = left ++ sign :: right ∧ (sign = '=' ∨ sign = ':') ∧
      Free (some ['=', ':']) false left) ∨ pairLine handler s text = fail s := by
  have happend := findCharsOrComment_append (some ['=', ':']) false text
  have hfree := findCharsOrComment_fst (some ['=', ':']) false text
  rw [pairLine]
  split
  · rename_i left c right hfind
    rw [hfind] at happend hfree
    by_cases hc : c = '=' ∨ c = ':'
    · exact .inl ⟨left, c, right, happend.symm, hc, hfree⟩
    · exact .inr (if_neg hc)
  · exact .inr rfl

theorem free_of_append {chars : Option Str} {w : Bool} {a b : Str} (h : Free chars w (a ++ b)) : Free chars w a :=
  ⟨clear_of_append h.1, fun c hc => h.2 c (List.mem_append_left b hc)⟩

theorem exists_value (right : Str) : ∃ after value trail note, right = after ++ (value ++ (trail ++ noteText note)) ∧
    Spaces after ∧ Trimmed value ∧ Plain value ∧ Spaces trail ∧ (note.isSome = true → value ≠ [] ∧ trail ≠ []) := by
  obtain ⟨after, hright, hafter⟩ := exists_append_dropWhile isSpace right
  have hbegins := begins_dropWhile isSpace right
  generalize right.dropWhile isSpace = rest at hright hbegins
  have happend := findCharsOrComment_append none false rest
  have hfree := findCharsOrComment_fst none false rest
  have hsnd := fun c t => @findCharsOrComment_snd none false c rest t
  generalize findCharsOrComment none false rest = found at happend hfree hsnd
  obtain ⟨front, behind⟩ := found
  obtain ⟨trail, hfront, htrail⟩ := exists_rdropWhile_append isSpace front
  have hends := ends_rdropWhile isSpace front
  generalize front.rdropWhile isSpace = value at hfront hends
  subst hfront happend hright
  have hvalue : Begins isSpace value := by
    by_cases hne : value = []
    · rw [hne]
      exact fun c hc => (nomatch hc)
    · rw [List.append_assoc] at hbegins
      exact (begins_append hne).mp hbegins
  have hplain : Plain value := clear_false.mp (free_of_append hfree).1
  cases behind with
  | nil => exact ⟨after, value, trail, none, by simp [noteText], hafter, ⟨hvalue, hends⟩, hplain, htrail, fun h => (nomatch h)⟩
  | cons c t =>
      rcases hsnd c t rfl with hstop | ⟨rfl, ⟨-, hspace⟩ | ⟨a, d, had, hd⟩⟩
      · cases hstop
      · cases hspace
      · change value ++ trail = a ++ [d] at had
        have htrailing : trail ≠ [] := by
          rintro rfl
          rw [List.append_nil] at had
          rw [had, ends_concat, hd] at hends
          cases hends
        have hne : value ≠ [] := by
          rintro rfl
          obtain ⟨e, trail, rfl⟩ := List.exists_cons_of_ne_nil htrailing
          have he := htrail e List.mem_cons_self
          rw [begins_cons.mp hbegins] at he
          cases he
        exact ⟨after, value, trail, some t, by simp [noteText], hafter, ⟨hvalue, hends⟩, hplain, htrail,
          fun _ => ⟨hne, htrailing⟩⟩

/-- A line that is none of the grammar is an error. -/
theorem exists_line_or_fail (hmarked : marked = true → s.prevName = []) (text : Str) :
    (∃ l : Line, l.Fits (placeOf s).Opened ∧ l.render = text) ∨
      strippedLine handler s marked (rstrip text) = fail s := by
  obtain ⟨trail, htext, htrail⟩ := exists_rdropWhile_append isSpace text
  have hends := ends_rdropWhile isSpace text
  rw [← rstrip] at htext hends
  generalize rstrip text = stripped at htext hends
  obtain ⟨indent, hstripped, hindent⟩ := exists_append_dropWhile isSpace stripped
  have hbegins := begins_dropWhile isSpace stripped
  generalize stripped.dropWhile isSpace = first at hstripped hbegins
  subst hstripped htext
  cases first with
  | nil =>
      refine .inl ⟨.blank _, fun c hc => ?_, rfl⟩
      simp only [List.append_nil, List.mem_append] at hc
      exact hc.elim (hindent c) (htrail c)
  | cons c first =>
      have hc : isSpace c = false := begins_cons.mp hbegins
      by_cases hcomment : c ∈ comments
      · exact .inl ⟨.comment indent c (first ++ trail), ⟨hindent, hcomment⟩, by simp [Line.render]⟩
      by_cases hmore : s.prevName ≠ [] ∧ indent ≠ []
      · refine .inl ⟨.more indent (c :: first) trail, ⟨hmore.1, hindent, hmore.2, ⟨hbegins, ?_⟩, List.cons_ne_nil _ _, ?_, htrail⟩,
          by simp [Line.render]⟩
        · exact (ends_append (List.cons_ne_nil _ _)).mp hends
        · intro d hd
          cases hd
          exact hcomment
      have hflush : s.prevName ≠ [] → indent = [] := fun hprev => not_not.mp fun hne => hmore ⟨hprev, hne⟩
      have hnot : s.prevName ≠ [] → ¬ (marked = true ∨ indent ≠ []) := by
        rintro hprev (hmark | hne)
        · exact hprev (hmarked hmark)
        · exact hne (hflush hprev)
      rw [strippedLine_flush hindent hc hcomment hnot]
      by_cases hbracket : c = '['
      · rw [if_pos hbracket]
        refine (sectionLine_or_fail s first).imp_left ?_
        rintro ⟨name, after, rfl, hname⟩
        exact ⟨.header indent name (after ++ trail), ⟨hindent, hflush, hname⟩, by simp [Line.render, hbracket]⟩
      · rw [if_neg hbracket]
        refine (pairLine_or_fail handler s (c :: first)).imp_left ?_
        rintro ⟨left, sign, right, hfirst, hsign, hleft⟩
        obtain ⟨after, value, space, note, hright, hafter, hvalue, hplain, hspace, hnote⟩ := exists_value (right ++ trail)
        obtain ⟨before, hname, hbefore⟩ := exists_rdropWhile_append isSpace left
        have hnameEnds := ends_rdropWhile isSpace left
        generalize left.rdropWhile isSpace = name at hname hnameEnds
        subst hname
        have hunnamed : name = [] → before = [] := by
          rintro rfl
          cases before with
          | nil => rfl
          | cons d before =>
              cases hfirst
              rw [hbefore c List.mem_cons_self] at hc
              cases hc
        have hhead : ∀ d ∈ name.head?, d = c := by
          intro d hd
          obtain ⟨rest, rfl⟩ := List.head?_eq_some_iff.mp hd
          exact (List.cons_eq_cons.mp hfirst).1.symm
        refine ⟨.pair ⟨indent, name, before, sign, after, value, space, note⟩, ?_, ?_⟩
        · exact ⟨hindent, hflush, ⟨fun d hd => hhead d hd ▸ hc, hnameEnds⟩, free_of_append hleft,
            fun d hd hmem => (List.mem_cons.mp (hhead d hd ▸ hmem)).elim hbracket hcomment, hbefore, hunnamed, hsign,
            hafter, hvalue, hplain, hspace, hnote⟩
        · rw [Line.render, Pair.render_eq, Pair.right, ← hright, List.append_assoc, hfirst]
          simp

end Complete

section Files

variable {handler : Handler σ} {s : State σ}

def plainLine (handler : Handler σ) (s : State σ) (text : Str) : State σ :=
  strippedLine handler { s with lineno := s.lineno + 1 } false (rstrip text)

theorem strippedLine_marked (h : s.prevName = []) (marked : Bool) (stripped : Str) :
    strippedLine handler s marked stripped = strippedLine handler s false stripped := by
  have hfalse (q : Prop) : (s.prevName ≠ [] ∧ q) = False := eq_false fun hq => hq.1 h
  rw [strippedLine, strippedLine]
  simp only [hfalse]

/-- A line of the file, with or without its end. -/
def OfText (text buffer : Str) : Prop := buffer = text ++ ['\n'] ∨ buffer = text

theorem rstrip_ofText {text buffer : Str} (h : OfText text buffer) : rstrip buffer = rstrip text := by
  rcases h with rfl | rfl
  · exact rstrip_append_spaces text (fun c hc => by rw [List.mem_singleton.mp hc]; rfl)
  · rfl

theorem prefix_ofText {pattern text buffer : Str} (hpattern : '\n' ∉ pattern) (h : OfText text buffer) :
    pattern <+: buffer ↔ pattern <+: text := by
  rcases h with rfl | rfl
  · refine ⟨fun h => ?_, fun h => h.trans (List.prefix_append _ _)⟩
    rcases List.prefix_concat_iff.mp h with heq | h
    · rw [heq] at hpattern
      exact absurd (List.mem_append_right text List.mem_cons_self) hpattern
    · exact h
  · exact Iff.rfl

theorem drop_ofText {text buffer : Str} {n : Nat} (hn : n ≤ text.length) (h : OfText text buffer) :
    OfText (text.drop n) (buffer.drop n) := by
  rcases h with rfl | rfl
  · exact .inl (List.drop_append_of_le_length hn)
  · exact .inr rfl

theorem nextLine_first {text buffer : Str} (hnul : '\x00' ∉ buffer) (h : OfText text buffer) (hline : s.lineno = 0)
    (hprev : s.prevName = []) : nextLine handler s buffer = plainLine handler s (unmarked text) := by
  have hlineno : s.lineno + 1 = 1 := by rw [hline]
  have hbom : bom <+: buffer ↔ bom <+: text := prefix_ofText (by decide) h
  rw [nextLine, cstr_of_not_mem hnul]
  have hnext : ({ s with lineno := s.lineno + 1 } : State σ).prevName = [] := hprev
  dsimp only
  rw [plainLine, strippedLine_marked hnext, unmarked]
  by_cases hmark : bom <+: text
  · rw [if_pos (decide_eq_true ⟨hlineno, hbom.mpr hmark⟩), if_pos hmark, rstrip_ofText (drop_ofText hmark.length_le h)]
  · rw [if_neg (by simpa [hlineno, hbom] using hmark), if_neg hmark, rstrip_ofText h]

theorem nextLine_later {text buffer : Str} (hnul : '\x00' ∉ buffer) (h : OfText text buffer) (hline : s.lineno ≠ 0) :
    nextLine handler s buffer = plainLine handler s text := by
  have hmark : decide (s.lineno + 1 = 1 ∧ bom <+: buffer) = false := decide_eq_false fun hm => hline (by omega)
  rw [nextLine, cstr_of_not_mem hnul]
  dsimp only
  rw [hmark, if_neg Bool.false_ne_true, rstrip_ofText h, plainLine]

theorem forall₂_buffers {file : Str} (h : ∀ t ∈ Lines.lines '\n' file, t.length < initMaxLine - 1) :
    List.Forall₂ OfText (Lines.lines '\n' file) (buffers '\n' (initMaxLine - 1) file) := by
  induction hn : file.length using Nat.strongRecOn generalizing file with
  | ind n ih =>
      by_cases hsep : '\n' ∈ file
      · obtain ⟨line, rest, rfl, hline⟩ := List.eq_append_cons_of_mem hsep
        rw [Lines.lines_append_cons hline] at h ⊢
        rw [List.forall_mem_cons] at h
        rw [buffers_line hline h.1]
        refine .cons (.inl rfl) (ih rest.length ?_ h.2 rfl)
        rw [← hn, List.length_append, List.length_cons]
        omega
      · rw [Lines.lines_of_not_mem hsep] at h ⊢
        split
        · rename_i hnil
          rw [hnil]
          exact .nil
        · rename_i hne
          rw [if_neg hne] at h
          have hroom := h file List.mem_cons_self
          rw [buffers_of_not_mem hsep hne (Nat.le_of_lt hroom)]
          exact .cons (.inr rfl) .nil

theorem nul_not_mem_buffers {file : Str} (h : '\x00' ∉ file) {room : Nat} (hroom : 0 < room) :
    ∀ b ∈ buffers '\n' room file, '\x00' ∉ b := by
  intro b hb hmem
  rw [← @flatten_buffers _ _ '\n' room hroom file] at h
  exact h (List.mem_flatten_of_mem hb hmem)

theorem fail_lineno (s : State σ) : (fail s).lineno = s.lineno := rfl

theorem call_lineno (s : State σ) (name value : Str) : (call handler s name value).lineno = s.lineno := by
  rw [call]
  split <;> rfl

theorem apply_lineno (s : State σ) (l : Line) : (l.apply handler s).lineno = s.lineno := by
  rw [Line.apply]
  split
  · rfl
  · exact call_lineno _ _ _

theorem plainLine_cases (handler : Handler σ) (s : State σ) (text : Str) :
    (∃ l : Line, l.Fits (placeOf s).Opened ∧ l.render = text) ∨
      plainLine handler s text = fail { s with lineno := s.lineno + 1 } :=
  @exists_line_or_fail σ handler { s with lineno := s.lineno + 1 } false (fun h => (nomatch h)) text

theorem plainLine_of_fits {l : Line} (h : l.Fits (placeOf s).Opened) :
    plainLine handler s l.render = l.apply handler { s with lineno := s.lineno + 1 } :=
  strippedLine_of_fits (s := { s with lineno := s.lineno + 1 }) h fun h => (nomatch h)

theorem plainLine_lineno (s : State σ) (text : Str) : (plainLine handler s text).lineno = s.lineno + 1 := by
  rcases plainLine_cases handler s text with ⟨l, hl, rfl⟩ | hfail
  · rw [plainLine_of_fits hl, apply_lineno]
  · rw [hfail, fail_lineno]

theorem foldl_nextLine {texts buffers : List Str} (h : List.Forall₂ OfText texts buffers)
    (hnul : ∀ b ∈ buffers, '\x00' ∉ b) (hline : s.lineno ≠ 0) :
    buffers.foldl (nextLine handler) s = texts.foldl (plainLine handler) s := by
  induction h generalizing s with
  | nil => rfl
  | @cons text buffer texts buffers htext hrest ih =>
      rw [List.forall_mem_cons] at hnul
      have hnext : (plainLine handler s text).lineno ≠ 0 := by
        rw [plainLine_lineno]
        exact Nat.succ_ne_zero _
      rw [List.foldl_cons, List.foldl_cons, nextLine_later hnul.1 htext hline, ih hnul.2 hnext]

/-- The loop over a file is one over its lines. -/
theorem iniParseFile_eq {file : Str} (h : Readable file) (handler : Handler σ) (user : σ) :
    iniParseFile handler file user = (texts file).foldl (plainLine handler) ⟨user, [], [], 0, 0⟩ := by
  have hnul := @nul_not_mem_buffers file h.1 (initMaxLine - 1) (by decide)
  have hboth := forall₂_buffers h.2
  rw [iniParseFile, iniParseStream, texts]
  generalize Lines.lines '\n' file = lines at hboth
  generalize buffers '\n' (initMaxLine - 1) file = read at hboth hnul
  cases hboth with
  | nil => rfl
  | @cons text buffer lines read htext hrest =>
      rw [List.forall_mem_cons] at hnul
      have hnext : (plainLine handler (⟨user, [], [], 0, 0⟩ : State σ) (unmarked text)).lineno ≠ 0 := by
        rw [plainLine_lineno]
        exact Nat.succ_ne_zero _
      rw [List.modifyHead_cons, List.foldl_cons, List.foldl_cons, nextLine_first hnul.1 htext rfl rfl,
        foldl_nextLine hrest hnul.2 hnext]

/-- The user is told what the lines of the grammar mean, whatever is between
them, and the error is the number of the first line that is none. -/
structure Parsed (handler : Handler σ) (s t : State σ) (doc : List Line) (bad : List Nat) : Prop where
  user : t.user = deliver handler s.user (meaning (placeOf s) doc)
  error : t.error = if s.error = 0 then bad.headD 0 else s.error

theorem deliver_append (user : σ) (calls more : List (Str × Str × Str)) :
    deliver handler user (calls ++ more) = deliver handler (deliver handler user calls) more := List.foldl_append

theorem call_of_accepts (haccept : ∀ u x n v, (handler u x n v).1 = true) (s : State σ) (name value : Str) :
    call handler s name value = { s with user := (handler s.user s.sectionName name value).2 } := by
  rw [call, haccept, if_pos rfl]

theorem section_of_given {p : Place} {l : Line} {g : Str × Str} (h : l.given p = some g) :
    (l.place p).sectionName = p.sectionName := by
  cases l with
  | blank => cases h
  | comment => cases h
  | header => cases h
  | pair => rfl
  | more => rfl

theorem parsed_apply (haccept : ∀ u x n v, (handler u x n v).1 = true) (s : State σ) (l : Line) :
    placeOf (l.apply handler s) = l.place (placeOf s) ∧ (l.apply handler s).error = s.error ∧
      (l.apply handler s).user =
        deliver handler s.user ((l.given (placeOf s)).map fun g => (s.sectionName, g)).toList := by
  rw [Line.apply]
  cases hgiven : l.given (placeOf s) with
  | none => exact ⟨rfl, rfl, rfl⟩
  | some g =>
      dsimp only
      rw [call_of_accepts haccept]
      refine ⟨rfl, rfl, ?_⟩
      rw [section_of_given hgiven]
      rfl

theorem parsed_of_reads (haccept : ∀ u x n v, (handler u x n v).1 = true) {p : Place} {n : Nat} {texts : List Str}
    {doc : List Line} {bad : List Nat} (h : Reads p n texts doc bad) (hplace : placeOf s = p) (hline : s.lineno = n) :
    Parsed handler s (texts.foldl (plainLine handler) s) doc bad := by
  induction h generalizing s with
  | nil p n => exact ⟨rfl, by simp⟩
  | @line p n l texts doc bad hfits hrest ih =>
      subst hplace hline
      obtain ⟨hplace, herror, huser⟩ := parsed_apply haccept { s with lineno := s.lineno + 1 } l
      have hstep := @plainLine_of_fits _ handler s l hfits
      rw [List.foldl_cons, hstep]
      have hparsed := ih hplace (apply_lineno _ l)
      refine ⟨?_, ?_⟩
      · rw [hparsed.user, huser, hplace]
        exact (deliver_append _ _ _).symm
      · rw [hparsed.error, herror]
  | @skip p n text texts doc bad hnone hrest ih =>
      subst hplace hline
      have hfail : plainLine handler s text = fail { s with lineno := s.lineno + 1 } :=
        (plainLine_cases handler s text).resolve_left fun ⟨l, hl, heq⟩ => hnone l hl heq
      have hparsed := @ih (fail { s with lineno := s.lineno + 1 }) rfl rfl
      have herror : (fail { s with lineno := s.lineno + 1 }).error = if s.error = 0 then s.lineno + 1 else s.error := rfl
      rw [List.foldl_cons, hfail]
      refine ⟨hparsed.user, ?_⟩
      rw [hparsed.error, herror, List.headD_cons]
      by_cases hzero : s.error = 0
      · rw [if_pos hzero, if_neg (Nat.succ_ne_zero _)]
      · rw [if_neg hzero, if_neg hzero]

theorem exists_reads (p : Place) (n : Nat) (texts : List Str) : ∃ doc bad, Reads p n texts doc bad := by
  induction texts generalizing p n with
  | nil => exact ⟨[], [], .nil p n⟩
  | cons text texts ih =>
      by_cases hl : ∃ l : Line, l.Fits p.Opened ∧ l.render = text
      · obtain ⟨l, hfits, rfl⟩ := hl
        obtain ⟨doc, bad, hrest⟩ := ih (l.place p) (n + 1)
        exact ⟨l :: doc, bad, .line hfits hrest⟩
      · obtain ⟨doc, bad, hrest⟩ := ih p (n + 1)
        exact ⟨doc, (n + 1) :: bad, .skip (fun l hfits heq => hl ⟨l, hfits, heq⟩) hrest⟩

/-- Nothing is left out exactly of the texts that are written in the grammar. -/
theorem reads_nil_iff {p : Place} {n : Nat} {texts : List Str} {doc : List Line} :
    Reads p n texts doc [] ↔ Valid p doc ∧ texts = doc.map Line.render := by
  constructor
  · intro h
    induction texts generalizing p n doc with
    | nil =>
        cases h
        exact ⟨trivial, rfl⟩
    | cons text texts ih =>
        cases h with
        | @line _ _ l _ doc _ hfits hrest =>
            obtain ⟨hvalid, heq⟩ := ih hrest
            exact ⟨⟨hfits, hvalid⟩, congrArg (l.render :: ·) heq⟩
  · rintro ⟨hvalid, rfl⟩
    induction doc generalizing p n with
    | nil => exact .nil p n
    | cons l doc ih => exact .line hvalid.1 (ih hvalid.2)

theorem headD_of_reads {p : Place} {n : Nat} {texts : List Str} {doc : List Line} {bad : List Nat}
    (h : Reads p n texts doc bad) : bad.headD 0 = 0 ↔ bad = [] := by
  induction h with
  | nil => simp
  | line _ _ ih => exact ih
  | skip _ _ _ => simp

end Files

variable {handler : Handler σ}

theorem parse_of_reads (haccept : ∀ u x n v, (handler u x n v).1 = true) {file : Str} (h : Readable file) (user : σ)
    {doc : List Line} {bad : List Nat} (hreads : Reads start 0 (texts file) doc bad) :
    iniParse handler (some file) user = (((bad.headD 0 : Nat) : Int), deliver handler user (meaning start doc)) := by
  have hparsed := parsed_of_reads haccept hreads (s := ⟨user, [], [], 0, 0⟩) rfl rfl
  have hfile : iniParse handler (some file) user =
      (((iniParseFile handler file user).error : Int), (iniParseFile handler file user).user) := rfl
  rw [hfile, iniParseFile_eq h, hparsed.error, hparsed.user]
  rfl

/-- What the parser makes of a file: its lines can always be read by the
grammar, in whatever way they are, the handler is called for what they mean
and for nothing else, and the error is the number of the first line that is
left out. -/
theorem iniParseFile_reads (haccept : ∀ u x n v, (handler u x n v).1 = true) {file : Str} (h : Readable file)
    (user : σ) : (∃ doc bad, Reads start 0 (texts file) doc bad) ∧
      ∀ doc bad, Reads start 0 (texts file) doc bad →
        iniParse handler (some file) user = (((bad.headD 0 : Nat) : Int), deliver handler user (meaning start doc)) :=
  ⟨exists_reads _ _ _, fun _ _ hreads => parse_of_reads haccept h user hreads⟩

def noted (calls : List (Str × Str × Str)) (sectionName name value : Str) : Bool × List (Str × Str × Str) :=
  (true, calls ++ [(sectionName, name, value)])

def sample : Str := "[a]\nx = 1 ;y\nnothing\n  2\n".toList

theorem iniParseFile_reads_sample :
    (∃ doc bad, Reads start 0 (texts sample) doc bad) ∧
      iniParse noted (some sample) [] = (3, [("a".toList, "x".toList, "1".toList), ("a".toList, "x".toList, "2".toList)]) :=
  ⟨(@iniParseFile_reads _ noted (fun _ _ _ _ => rfl) sample (by decide) []).1, by decide⟩

/-- A file is parsed without an error if and only if it is written in the grammar. -/
theorem iniParse_eq_zero_iff (haccept : ∀ u x n v, (handler u x n v).1 = true) {file : Str} (h : Readable file)
    (user : σ) : (iniParse handler (some file) user).1 = 0 ↔ ∃ doc, Valid start doc ∧ texts file = doc.map Line.render := by
  obtain ⟨doc, bad, hreads⟩ := exists_reads start 0 (texts file)
  have hresult := parse_of_reads haccept h user hreads
  rw [hresult]
  dsimp only
  rw [Int.natCast_eq_zero, headD_of_reads hreads]
  constructor
  · rintro rfl
    exact ⟨doc, reads_nil_iff.mp hreads⟩
  · rintro ⟨other, hvalid⟩
    have hother := parse_of_reads haccept h user (reads_nil_iff.mpr hvalid)
    rw [hresult] at hother
    have hhead : bad.headD 0 = 0 := Int.ofNat.inj (Prod.mk.inj hother).1
    exact (headD_of_reads hreads).mp hhead

def soundSample : Str := "; x
[a]

x = 1 ;y
  2
y: z
".toList

/-- The first file has a line that is left out, the second one none. -/
theorem iniParse_eq_zero_iff_sample :
    ((iniParse noted (some sample) []).1 = 0 ↔ ∃ doc, Valid start doc ∧ texts sample = doc.map Line.render) ∧
      ∃ doc, Valid start doc ∧ texts soundSample = doc.map Line.render :=
  ⟨iniParse_eq_zero_iff (fun _ _ _ _ => rfl) (by decide) [],
    (@iniParse_eq_zero_iff _ noted (fun _ _ _ _ => rfl) soundSample (by decide) []).mp (by decide)⟩

end RadioServices.IniGrammar

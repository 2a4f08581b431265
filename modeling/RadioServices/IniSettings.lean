import RadioServices.IniCalls
import RadioServices.Lib.Strtol

namespace RadioServices.IniSettings

open Lib Lib.C Lib.Strip IniParser IniGrammar IniCalls

def valueHandler : Handler (SortedMap Str Str) := fun values sectionName name value =>
  let key := IniReader.makeKey sectionName name
  (true, values.insert key (IniReader.appendValue ((values.find? key).getD []) value))

def iniReader (file : Option Str) : Int × SortedMap Str Str := iniParse valueHandler file .empty

def get (values : SortedMap Str Str) (sectionName name defaultValue : Str) : Str :=
  (values.find? (IniReader.makeKey sectionName name)).getD defaultValue

def getInteger (values : SortedMap Str Str) (sectionName name : Str) (defaultValue : Int) : Int :=
  (strtolAny (cstr (get values sectionName name []))).getD defaultValue

def words (b : Bool) : List Str :=
  if b then ["true".toList, "yes".toList, "on".toList, "1".toList]
  else ["false".toList, "no".toList, "off".toList, "0".toList]

def getBoolean (values : SortedMap Str Str) (sectionName name : Str) (defaultValue : Bool) : Bool :=
  let valstr := IniReader.tolower (get values sectionName name [])
  if valstr ∈ words true then true
  else if valstr ∈ words false then false
  else defaultValue

/-- The values that calls give for a name of a section, up to letter case. -/
def ownValues (calls : List (Str × Str × Str)) (sectionName name : Str) : List Str :=
  (calls.filter fun t => decide (IniReader.tolower t.1 = IniReader.tolower sectionName ∧
    IniReader.tolower t.2.1 = IniReader.tolower name)).map fun t => t.2.2

/-- They are put together, or the default is taken if there are none. -/
def lookup (own : List Str) (defaultValue : Str) : Str :=
  if own = [] then defaultValue else own.foldl IniReader.appendValue []

section Lookup

def raw (t : IniReader.Triple) : Str × Str × Str := (t.sectionName, t.name, t.value)

theorem exists_triples {calls : List (Str × Str × Str)} (h : ∀ t ∈ calls, WellFormed t) :
    ∃ triples : List IniReader.Triple, calls = triples.map raw := by
  induction calls with
  | nil => exact ⟨[], rfl⟩
  | cons t calls ih =>
      rw [List.forall_mem_cons] at h
      obtain ⟨triples, rfl⟩ := ih h.2
      exact ⟨⟨t.1, t.2.1, t.2.2, h.1.sectionName.clean.2, h.1.name.clean.2, h.1.name.signs.1⟩ :: triples, rfl⟩

theorem deliver_map_raw (triples : List IniReader.Triple) :
    deliver valueHandler .empty (triples.map raw) = IniReader.iniParse triples := List.foldl_map

theorem key_eq_iff {t : IniReader.Triple} {s n : Str} (hn : '=' ∉ n) : IniReader.key t = IniReader.makeKey s n ↔
    IniReader.tolower t.sectionName = IniReader.tolower s ∧ IniReader.tolower t.name = IniReader.tolower n := by
  have hlower : '=' ∉ IniReader.tolower n := by rwa [IniReader.mem_tolower (by decide)]
  rw [IniReader.key, IniReader.makeKey_eq, IniReader.makeKey_eq]
  exact IniReader.append_eq_iff (IniReader.eq_not_mem_name t) hlower

theorem get_deliver {calls : List (Str × Str × Str)} (h : ∀ t ∈ calls, WellFormed t) (s : Str) {n : Str} (hn : '=' ∉ n)
    (d : Str) : get (deliver valueHandler .empty calls) s n d = lookup (ownValues calls s n) d := by
  obtain ⟨triples, rfl⟩ := exists_triples h
  have hfilter : (triples.filter fun t => decide (IniReader.key t = IniReader.makeKey s n)) =
      triples.filter fun t => decide (IniReader.tolower t.sectionName = IniReader.tolower s ∧
        IniReader.tolower t.name = IniReader.tolower n) :=
    List.filter_congr fun t _ => decide_eq_decide.mpr (key_eq_iff hn)
  have hown : ownValues (triples.map raw) s n =
      (triples.filter fun t => decide (IniReader.key t = IniReader.makeKey s n)).map IniReader.Triple.value := by
    rw [ownValues, List.filter_map, List.map_map, hfilter]
    rfl
  rw [get, deliver_map_raw, IniReader.find?_iniParse, lookup, hown, IniReader.readValue, IniReader.joined]
  cases triples.filter fun t => decide (IniReader.key t = IniReader.makeKey s n) with
  | nil => rfl
  | cons t own =>
      rw [if_neg (List.cons_ne_nil _ _), if_neg (by simp)]
      rfl

theorem clean_texts {file : Str} (h : Readable file) : ∀ t ∈ texts file, Clean t ∧ t.length < initMaxLine := by
  have hlines : ∀ t ∈ Lines.lines '\n' file, Clean t ∧ t.length < initMaxLine := fun t ht =>
    ⟨⟨Lines.not_mem_of_mem_lines ht, fun hmem => h.1 (Lines.subset_of_mem_lines ht hmem)⟩, Nat.lt_succ_of_lt (h.2 t ht)⟩
  rw [texts]
  cases hread : Lines.lines '\n' file with
  | nil =>
      intro t ht
      cases ht
  | cons first rest =>
      rw [hread, List.forall_mem_cons] at hlines
      have hsuffix := unmarked_suffix first
      rw [List.modifyHead_cons, List.forall_mem_cons]
      exact ⟨⟨hlines.1.1.of_subset hsuffix.subset, Nat.lt_of_le_of_lt hsuffix.length_le hlines.1.2⟩, hlines.2⟩

theorem accepts (u : SortedMap Str Str) (x n v : Str) : (valueHandler u x n v).1 = true := rfl

end Lookup

/-- Whatever the file is, a setting that is looked up is what well-formed
calls, which are the same for every handler, gave for it. -/
theorem get_of_file (file : Str) : ∃ calls, (∀ t ∈ calls, WellFormed t) ∧
    (∀ (σ : Type) (handler : Handler σ), (∀ u x n v, (handler u x n v).1 = true) →
      ∀ user, (iniParse handler (some file) user).2 = deliver handler user calls) ∧
    ∀ s n d, '=' ∉ n → get (iniReader (some file)).2 s n d = lookup (ownValues calls s n) d := by
  obtain ⟨calls, hform, hdeliver⟩ := exists_calls file
  refine ⟨calls, hform, hdeliver, fun s n d hn => ?_⟩
  rw [iniReader, hdeliver _ _ accepts]
  exact get_deliver hform s hn d

/-- A setting that can be written as one line. -/
structure Setting where
  name : Str
  value : Str
  trimmed : Trimmed name
  free : Free (some ['=', ':']) false name
  head : ∀ c ∈ name.head?, c ∉ '[' :: comments
  clean : Clean name
  value_trimmed : Trimmed value
  value_plain : Plain value
  value_clean : Clean value
  room : name.length + value.length + 1 < initMaxLine - 1

structure Group where
  name : Str
  free : Free (some [']']) false name
  clean : Clean name
  short : name.length < maxSection
  settings : List Setting

def Setting.line (s : Setting) : Line := .pair ⟨[], s.name, [], '=', [], s.value, [], none⟩

def Group.lines (g : Group) : List Line := .header [] g.name [] :: g.settings.map Setting.line

def document (groups : List Group) : List Line := groups.flatMap Group.lines

def write (groups : List Group) : Str := Lines.terminated '\n' ((document groups).map Line.render)

def entries (groups : List Group) : List (Str × Str × Str) :=
  groups.flatMap fun g => g.settings.map fun s => (g.name, s.name, s.value)

section Write

theorem fits_setting (s : Setting) (opened : Prop) : s.line.Fits opened :=
  ⟨fun _ h => (nomatch h), fun _ => rfl, s.trimmed, s.free, s.head, fun _ h => (nomatch h), fun _ => rfl, .inl rfl,
    fun _ h => (nomatch h), s.value_trimmed, s.value_plain, fun _ h => (nomatch h), fun h => (nomatch h)⟩

theorem render_setting (s : Setting) : s.line.render = s.name ++ '=' :: s.value := by
  simp [Setting.line, Line.render, Pair.render, Pair.right, noteText]

theorem render_header (g : Group) : (Line.header [] g.name []).render = '[' :: (g.name ++ [']']) := rfl

theorem valid_append {p : Place} {a b : List Line} :
    Valid p (a ++ b) ↔ Valid p a ∧ Valid (a.foldl (fun p l => l.place p) p) b := by
  induction a generalizing p with
  | nil => exact ⟨fun h => ⟨trivial, h⟩, And.right⟩
  | cons l a ih => rw [List.cons_append, Valid, Valid, ih, List.foldl_cons, and_assoc]

theorem valid_settings (p : Place) (settings : List Setting) : Valid p (settings.map Setting.line) := by
  induction settings generalizing p with
  | nil => trivial
  | cons s settings ih => exact ⟨fits_setting s _, ih _⟩

theorem valid_document (p : Place) (groups : List Group) : Valid p (document groups) := by
  induction groups generalizing p with
  | nil => trivial
  | cons g groups ih =>
      rw [document, List.flatMap_cons, valid_append]
      exact ⟨⟨⟨fun _ h => (nomatch h), fun _ => rfl, g.free⟩, valid_settings _ g.settings⟩, ih _⟩

theorem meaning_settings (p : Place) (settings : List Setting) (rest : List Line) :
    ∃ q : Place, q.sectionName = p.sectionName ∧ meaning p (settings.map Setting.line ++ rest) =
      (settings.map fun s => (p.sectionName, s.name, s.value)) ++ meaning q rest := by
  induction settings generalizing p with
  | nil => exact ⟨p, rfl, rfl⟩
  | cons s settings ih =>
      obtain ⟨q, hq, hmeaning⟩ := ih (s.line.place p)
      refine ⟨q, hq, ?_⟩
      rw [List.map_cons, List.cons_append, meaning, hmeaning]
      rfl

theorem meaning_document (p : Place) (groups : List Group) : meaning p (document groups) = entries groups := by
  induction groups generalizing p with
  | nil => rfl
  | cons g groups ih =>
      have htake : g.name.take 49 = g.name := List.take_of_length_le (Nat.le_of_lt_succ g.short)
      obtain ⟨q, -, hmeaning⟩ := meaning_settings ⟨g.name.take 49, []⟩ g.settings (document groups)
      have hdocument : document (g :: groups) =
          Line.header [] g.name [] :: (g.settings.map Setting.line ++ document groups) := rfl
      rw [hdocument, meaning, entries, List.flatMap_cons]
      refine Eq.trans hmeaning ?_
      rw [ih, htake]
      rfl

theorem render_document {groups : List Group} : ∀ t ∈ (document groups).map Line.render,
    '\n' ∉ t ∧ '\x00' ∉ t ∧ t.length < initMaxLine - 1 := by
  intro t ht
  obtain ⟨l, hl, rfl⟩ := List.mem_map.mp ht
  obtain ⟨g, -, hl⟩ := List.mem_flatMap.mp hl
  rcases List.mem_cons.mp hl with rfl | hl
  · have hshort : g.name.length < 50 := g.short
    have hlimit : initMaxLine - 1 = 199 := rfl
    rw [render_header]
    refine ⟨?_, ?_, ?_⟩
    · simpa using g.clean.1
    · simpa using g.clean.2
    · rw [List.length_cons, List.length_append, List.length_singleton]
      omega
  · obtain ⟨s, -, rfl⟩ := List.mem_map.mp hl
    have hroom := s.room
    rw [render_setting]
    refine ⟨?_, ?_, ?_⟩
    · simpa using ⟨s.clean.1, s.value_clean.1⟩
    · simpa using ⟨s.clean.2, s.value_clean.2⟩
    · rw [List.length_append, List.length_cons]
      omega

theorem lines_write (groups : List Group) : Lines.lines '\n' (write groups) = (document groups).map Line.render :=
  (Lines.lines_terminated_iff _).mpr fun t ht => (render_document t ht).1

theorem nul_not_mem_terminated {xs : List Str} (h : ∀ x ∈ xs, '\x00' ∉ x) : '\x00' ∉ Lines.terminated '\n' xs := by
  intro hmem
  obtain ⟨x, hx, hin⟩ := List.mem_flatMap.mp hmem
  rcases List.mem_append.mp hin with hin | hin
  · exact h x hx hin
  · exact absurd (List.mem_singleton.mp hin) (by decide)

theorem readable_write (groups : List Group) : Readable (write groups) := by
  refine ⟨nul_not_mem_terminated fun t ht => (render_document t ht).2.1, ?_⟩
  rw [lines_write]
  exact fun t ht => (render_document t ht).2.2

theorem texts_write (groups : List Group) : texts (write groups) = (document groups).map Line.render := by
  rw [texts, lines_write]
  cases groups with
  | nil => rfl
  | cons g groups =>
      have hbracket : (document (g :: groups)).map Line.render =
          ('[' :: (g.name ++ [']'])) :: (g.settings.map Setting.line ++ document groups).map Line.render := rfl
      have hmark : ¬ bom <+: '[' :: (g.name ++ [']']) := fun h => absurd (List.cons_prefix_cons.mp h).1 (by decide)
      rw [hbracket, List.modifyHead_cons, unmarked, if_neg hmark]

theorem reads_write (groups : List Group) : Reads start 0 (texts (write groups)) (document groups) [] :=
  reads_nil_iff.mpr ⟨valid_document _ _, texts_write groups⟩

/-- The key under which an entry is kept. -/
def entryKey (t : Str × Str × Str) : Str × Str := (IniReader.tolower t.1, IniReader.tolower t.2.1)

theorem filter_eq_singleton {α β : Type} [DecidableEq β] {f : α → β} {l : List α} (h : (l.map f).Nodup) {t : α}
    (ht : t ∈ l) : (l.filter fun u => decide (f u = f t)) = [t] := by
  induction l with
  | nil => cases ht
  | cons u l ih =>
      rw [List.map_cons, List.nodup_cons] at h
      rcases List.mem_cons.mp ht with rfl | ht
      · have hrest : (l.filter fun u => decide (f u = f t)) = [] := by
          rw [List.filter_eq_nil_iff]
          intro v hv heq
          exact h.1 (List.mem_map.mpr ⟨v, hv, of_decide_eq_true heq⟩)
        have hself : decide (f t = f t) = true := decide_eq_true rfl
        rw [List.filter_cons, if_pos hself, hrest]
      · have hne : ¬ decide (f u = f t) = true := fun heq => h.1 (List.mem_map.mpr ⟨t, ht, (of_decide_eq_true heq).symm⟩)
        rw [List.filter_cons, if_neg hne, ih h.2 ht]

theorem ownValues_of_nodup {calls : List (Str × Str × Str)} (h : (calls.map entryKey).Nodup) {t : Str × Str × Str}
    (ht : t ∈ calls) : ownValues calls t.1 t.2.1 = [t.2.2] := by
  have hfilter : (calls.filter fun u => decide (IniReader.tolower u.1 = IniReader.tolower t.1 ∧
      IniReader.tolower u.2.1 = IniReader.tolower t.2.1)) = [t] := by
    rw [← filter_eq_singleton h ht]
    exact List.filter_congr fun u _ => decide_eq_decide.mpr Prod.mk_inj.symm
  rw [ownValues, hfilter]
  rfl

theorem ownValues_of_none {calls : List (Str × Str × Str)} {s n : Str}
    (h : ∀ t ∈ calls, entryKey t ≠ (IniReader.tolower s, IniReader.tolower n)) : ownValues calls s n = [] := by
  rw [ownValues, List.map_eq_nil_iff, List.filter_eq_nil_iff]
  intro t ht hkey
  obtain ⟨hsection, hname⟩ := of_decide_eq_true hkey
  exact h t ht (Prod.ext hsection hname)

theorem read_of_reads {file : Str} (h : Readable file) {doc : List Line} {bad : List Nat}
    (hreads : Reads start 0 (texts file) doc bad) (s : Str) {n : Str} (hn : '=' ∉ n) (d : Str) :
    get (iniReader (some file)).2 s n d = lookup (ownValues (meaning start doc) s n) d := by
  have hparse := parse_of_reads accepts h .empty hreads
  rw [iniReader, hparse]
  exact get_deliver (wellFormed_of_reads hreads placeFormed_start (clean_texts h)) s hn d

theorem read_back {groups : List Group} (hkeys : ((entries groups).map entryKey).Nodup) {t : Str × Str × Str}
    (ht : t ∈ entries groups) (d : Str) : get (iniReader (some (write groups))).2 t.1 t.2.1 d = t.2.2 := by
  have hreads := reads_write groups
  have hread := readable_write groups
  have hmeaning := meaning_document start groups
  have hform := wellFormed_of_reads hreads placeFormed_start (clean_texts hread) t (hmeaning ▸ ht)
  rw [read_of_reads hread hreads t.1 hform.name.signs.1, hmeaning, ownValues_of_nodup hkeys ht]
  rfl

end Write

theorem getBoolean_of_mem {values : SortedMap Str Str} {s n : Str} {b : Bool}
    (h : IniReader.tolower (get values s n []) ∈ words b) (d : Bool) : getBoolean values s n d = b := by
  rw [getBoolean]
  cases b with
  | true => exact if_pos h
  | false =>
      have hnot : IniReader.tolower (get values s n []) ∉ words true := by
        have hdisjoint : ∀ w ∈ words false, w ∉ words true := by decide
        exact hdisjoint _ h
      exact (if_neg hnot).trans (if_pos h)

theorem getInteger_of_toString {values : SortedMap Str Str} {s n : Str} {z : Int} (hlow : -2 ^ 63 ≤ z) (hhigh : z < 2 ^ 63)
    (h : get values s n [] = (toString z).toList) (d : Int) : getInteger values s n d = z := by
  rw [getInteger, h, cstr_of_not_mem (Decimal.not_mem_toString rfl (by decide) z), strtolAny_toString hlow hhigh,
    Option.getD_some]

structure ReadBack (groups : List Group) (reader : Int × SortedMap Str Str) : Prop where
  error : reader.1 = 0
  value : ∀ t ∈ entries groups, ∀ d, get reader.2 t.1 t.2.1 d = t.2.2
  integer : ∀ t ∈ entries groups, ∀ z : Int, -2 ^ 63 ≤ z → z < 2 ^ 63 → t.2.2 = (toString z).toList →
    ∀ d, getInteger reader.2 t.1 t.2.1 d = z
  boolean : ∀ t ∈ entries groups, ∀ b, IniReader.tolower t.2.2 ∈ words b → ∀ d, getBoolean reader.2 t.1 t.2.1 d = b
  other : ∀ s n, '=' ∉ n → (∀ t ∈ entries groups, entryKey t ≠ (IniReader.tolower s, IniReader.tolower n)) →
    ∀ d, get reader.2 s n d = d

/-- Settings that are written under different names are read back without an
error, numbers and switches as what they are, and every other name has its default. -/
theorem readBack_write {groups : List Group} (hkeys : ((entries groups).map entryKey).Nodup) :
    ReadBack groups (iniReader (some (write groups))) where
  error := by
    rw [iniReader, parse_of_reads accepts (readable_write groups) .empty (reads_write groups)]
    rfl
  value t ht d := read_back hkeys ht d
  integer t ht z hlow hhigh htext d := getInteger_of_toString hlow hhigh ((read_back hkeys ht []).trans htext) d
  boolean t ht b hword d := getBoolean_of_mem (by rwa [read_back hkeys ht []]) d
  other s n hn hnone d := by
    rw [read_of_reads (readable_write groups) (reads_write groups) s hn, meaning_document, ownValues_of_none hnone]
    rfl

theorem free_of_find {chars : Option Str} {s : Str} (h : (findCharsOrComment chars false s).1 = s) : Free chars false s :=
  h ▸ findCharsOrComment_fst chars false s

theorem plain_of_find {s : Str} (h : (findCharsOrComment none false s).1 = s) : Plain s :=
  clear_false.mp (free_of_find h).1

theorem head_of_cons {c : Char} {s : Str} (h : c ∉ '[' :: comments) : ∀ d ∈ (c :: s).head?, d ∉ '[' :: comments := by
  rintro d ⟨⟩
  exact h

def sampleGroups : List Group :=
  [⟨"server".toList, free_of_find (by decide), by decide, by decide,
    [⟨"Port".toList, "-17".toList, by decide, free_of_find (by decide), @head_of_cons 'P' "ort".toList (by decide),
      by decide, by decide, plain_of_find (by decide), by decide, by decide⟩,
     ⟨"daemon".toList, "Yes".toList, by decide, free_of_find (by decide), @head_of_cons 'd' "aemon".toList (by decide),
      by decide, by decide, plain_of_find (by decide), by decide, by decide⟩]⟩]

theorem readBack_write_sample : ReadBack sampleGroups (iniReader (some (write sampleGroups))) ∧
    write sampleGroups = "[server]\nPort=-17\ndaemon=Yes\n".toList :=
  ⟨readBack_write (by decide), by decide⟩

end RadioServices.IniSettings

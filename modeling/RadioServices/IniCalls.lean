import RadioServices.IniGrammar
import RadioServices.IniReader

namespace RadioServices.IniCalls

open Lib Lib.C Lib.Fgets Lib.Strip IniParser IniGrammar

universe u

variable {σ : Type u} {handler : Handler σ}

/-- What the parser sees of a buffer: the text in front of a NUL, without the spaces at its end. -/
def seen (buffer : Str) : Str := rstrip (cstr buffer)

def seenLines (file : Str) : List Str :=
  match buffers '\n' (initMaxLine - 1) file with
  | [] => []
  | first :: rest => rstrip (unmarked (cstr first)) :: rest.map seen

theorem rstrip_rstrip (s : Str) : rstrip (rstrip s) = rstrip s := List.rdropWhile_idempotent _ _

theorem nextLine_cstr (handler : Handler σ) (s : State σ) (buffer : Str) :
    nextLine handler s (cstr buffer) = nextLine handler s buffer := by
  have hself : cstr (cstr buffer) = cstr buffer := cstr_of_not_mem (Cut.not_mem_takeWhile_ne _ _)
  rw [nextLine, nextLine, hself]

theorem plainLine_rstrip (handler : Handler σ) (s : State σ) (text : Str) :
    plainLine handler s (rstrip text) = plainLine handler s text := by
  rw [plainLine, plainLine, rstrip_rstrip]

theorem nul_not_mem_cstr (s : Str) : '\x00' ∉ cstr s := Cut.not_mem_takeWhile_ne _ _

theorem foldl_seen {s : State σ} (hline : s.lineno ≠ 0) (read : List Str) :
    read.foldl (nextLine handler) s = (read.map seen).foldl (plainLine handler) s := by
  induction read generalizing s with
  | nil => rfl
  | cons buffer read ih =>
      have hstep : nextLine handler s buffer = plainLine handler s (seen buffer) := by
        rw [← nextLine_cstr, nextLine_later (nul_not_mem_cstr buffer) (.inr rfl) hline, seen, plainLine_rstrip]
      have hnext : (plainLine handler s (seen buffer)).lineno ≠ 0 := by
        rw [plainLine_lineno]
        exact Nat.succ_ne_zero _
      rw [List.map_cons, List.foldl_cons, List.foldl_cons, hstep, ih hnext]

theorem iniParseFile_seen (handler : Handler σ) (file : Str) (user : σ) :
    iniParseFile handler file user = (seenLines file).foldl (plainLine handler) ⟨user, [], [], 0, 0⟩ := by
  rw [iniParseFile, iniParseStream, seenLines]
  cases buffers '\n' (initMaxLine - 1) file with
  | nil => rfl
  | cons buffer read =>
      have hstep : nextLine handler (⟨user, [], [], 0, 0⟩ : State σ) buffer =
          plainLine handler ⟨user, [], [], 0, 0⟩ (rstrip (unmarked (cstr buffer))) := by
        rw [← nextLine_cstr, nextLine_first (nul_not_mem_cstr buffer) (.inr rfl) rfl rfl, plainLine_rstrip]
      have hnext : (plainLine handler (⟨user, [], [], 0, 0⟩ : State σ) (rstrip (unmarked (cstr buffer)))).lineno ≠ 0 := by
        rw [plainLine_lineno]
        exact Nat.succ_ne_zero _
      dsimp only
      rw [List.foldl_cons, List.foldl_cons, hstep, foldl_seen hnext]

/-- A string without an end of line and without a NUL. -/
def Clean (s : Str) : Prop := '\n' ∉ s ∧ '\x00' ∉ s

instance (s : Str) : Decidable (Clean s) := inferInstanceAs (Decidable (_ ∧ _))

structure SectionFormed (s : Str) : Prop where
  clean : Clean s
  close : ']' ∉ s
  length : s.length < maxSection

structure NameFormed (s : Str) : Prop where
  clean : Clean s
  signs : '=' ∉ s ∧ ':' ∉ s
  begins : Begins isSpace s

/-- What the handler can rely on, whatever the file is. -/
structure WellFormed (t : Str × Str × Str) : Prop where
  sectionName : SectionFormed t.1
  name : NameFormed t.2.1
  value : Clean t.2.2 ∧ Trimmed t.2.2
  length : t.2.1.length < initMaxLine ∧ t.2.2.length < initMaxLine

structure PlaceFormed (p : Place) : Prop where
  sectionName : SectionFormed p.sectionName
  name : NameFormed p.name
  length : p.name.length < maxName

section Formed

variable {s t : Str}

theorem Clean.of_subset (ht : Clean t) (h : s ⊆ t) : Clean s := ⟨fun hs => ht.1 (h hs), fun hs => ht.2 (h hs)⟩

theorem clean_nil : Clean [] := ⟨List.not_mem_nil, List.not_mem_nil⟩

theorem placeFormed_start : PlaceFormed start :=
  ⟨⟨clean_nil, List.not_mem_nil, by decide⟩, ⟨clean_nil, ⟨List.not_mem_nil, List.not_mem_nil⟩, fun _ h => (nomatch h)⟩, by decide⟩

theorem begins_take (h : Begins isSpace s) {n : Nat} (hn : n ≠ 0) : Begins isSpace (s.take n) := by
  rw [Begins, List.head?_take, if_neg hn]
  exact h

theorem NameFormed.take (h : NameFormed s) {n : Nat} (hn : n ≠ 0) : NameFormed (s.take n) :=
  ⟨h.clean.of_subset (List.take_subset _ _),
    ⟨fun hmem => h.signs.1 (List.take_subset _ _ hmem), fun hmem => h.signs.2 (List.take_subset _ _ hmem)⟩,
    begins_take h.begins hn⟩

theorem Pair.name_infix (p : Pair) : p.name <:+: p.render := List.infix_append' _ _ _

theorem Pair.value_infix (p : Pair) : p.value <:+: p.render := by
  have hright : p.value <:+: p.right := List.infix_append' _ _ _
  refine hright.trans (List.IsSuffix.isInfix ⟨p.indent ++ (p.name ++ (p.before ++ [p.sign])), ?_⟩)
  simp [Pair.render]

theorem nameFormed_of_fits {p : Pair} {opened : Prop} (h : p.Fits opened) (hclean : Clean p.render) : NameFormed p.name := by
  have hsign : ∀ c ∈ p.name, ¬ (c = '=' ∨ c = ':') := fun c hc heq => by
    have hstops := h.free.2 c hc
    rw [stops_sign.mpr heq] at hstops
    cases hstops
  exact ⟨hclean.of_subset (Pair.name_infix p).subset, ⟨fun hmem => hsign _ hmem (.inl rfl), fun hmem => hsign _ hmem (.inr rfl)⟩,
    h.name.1⟩

theorem formed_of_fits {p : Place} (hp : PlaceFormed p) {l : Line} (h : l.Fits p.Opened) (hclean : Clean l.render)
    (hlength : l.render.length < initMaxLine) :
    PlaceFormed (l.place p) ∧ ∀ g, l.given p = some g → WellFormed (p.sectionName, g) := by
  cases l with
  | blank =>
      refine ⟨hp, fun g hg => ?_⟩
      cases hg
  | comment =>
      refine ⟨hp, fun g hg => ?_⟩
      cases hg
  | header indent name after =>
      have hname : name ⊆ (Line.header indent name after).render := by
        intro c hc
        simp [Line.render, hc]
      refine ⟨⟨⟨(hclean.of_subset hname).of_subset (List.take_subset _ _), fun hmem => ?_, ?_⟩, placeFormed_start.name,
        placeFormed_start.length⟩, fun g hg => ?_⟩
      · have hstops := h.2.2.2 ']' (List.take_subset _ _ hmem)
        cases hstops
      · exact Nat.lt_of_le_of_lt (List.length_take_le _ _) (by decide)
      · cases hg
  | pair q =>
      have hname := nameFormed_of_fits h hclean
      have hvalue : Clean q.value := hclean.of_subset (Pair.value_infix q).subset
      refine ⟨⟨hp.sectionName, hname.take (by decide), ?_⟩, ?_⟩
      · exact Nat.lt_of_le_of_lt (List.length_take_le _ _) (by decide)
      · intro g hg
        cases hg
        exact ⟨hp.sectionName, hname, ⟨hvalue, h.value⟩, Nat.lt_of_le_of_lt (Pair.name_infix q).length_le hlength,
          Nat.lt_of_le_of_lt (Pair.value_infix q).length_le hlength⟩
  | more indent value trail =>
      have hinfix : value <:+: (Line.more indent value trail).render := List.infix_append' _ _ _
      refine ⟨hp, fun g hg => ?_⟩
      cases hg
      exact ⟨hp.sectionName, hp.name, ⟨hclean.of_subset hinfix.subset, h.2.2.2.1⟩,
        Nat.lt_trans hp.length (by decide), Nat.lt_of_le_of_lt hinfix.length_le hlength⟩

theorem wellFormed_of_reads {p : Place} {n : Nat} {texts : List Str} {doc : List Line} {bad : List Nat}
    (h : Reads p n texts doc bad) (hp : PlaceFormed p) (htexts : ∀ t ∈ texts, Clean t ∧ t.length < initMaxLine) :
    ∀ t ∈ meaning p doc, WellFormed t := by
  induction h with
  | nil => exact fun t ht => (nomatch ht)
  | @line p n l texts doc bad hfits _ ih =>
      rw [List.forall_mem_cons] at htexts
      obtain ⟨hplace, hgiven⟩ := formed_of_fits hp hfits htexts.1.1 htexts.1.2
      rw [meaning]
      intro t ht
      rcases List.mem_append.mp ht with ht | ht
      · obtain ⟨g, hg, rfl⟩ := Option.map_eq_some_iff.mp (Option.mem_toList.mp ht)
        exact hgiven g hg
      · exact ih hplace htexts.2 t ht
  | skip _ _ ih => exact ih hp (List.forall_mem_cons.mp htexts).2

end Formed

section Seen

def EndsLine (s : Str) : Prop := ∀ a b, s = a ++ '\n' :: b → b = []

theorem EndsLine.of_prefix {s t : Str} (ht : EndsLine t) (h : s <+: t) : EndsLine s := by
  rintro a b rfl
  obtain ⟨u, rfl⟩ := h
  have hnil := ht a (b ++ u) (by simp)
  exact (List.append_eq_nil_iff.mp hnil).1

theorem EndsLine.of_suffix {s t : Str} (ht : EndsLine t) (h : s <:+ t) : EndsLine s := by
  rintro a b rfl
  obtain ⟨u, rfl⟩ := h
  exact ht (u ++ a) b (by simp)

theorem newline_not_mem_rstrip {s : Str} (h : EndsLine s) : '\n' ∉ rstrip s := by
  intro hmem
  obtain ⟨a, b, hab⟩ := List.append_of_mem hmem
  obtain rfl := h.of_prefix (List.rdropWhile_prefix _ _) a b hab
  have hends := ends_rdropWhile isSpace s
  rw [← rstrip, hab, ends_concat] at hends
  cases hends

theorem endsLine_fgets (room : Nat) (s : Str) : EndsLine (fgets '\n' room s).1 := by
  intro a b hab
  rcases @fgets_sep _ _ '\n' room s with hnot | ⟨line, hline, hnot⟩
  · rw [hab] at hnot
    exact absurd (List.mem_append_right a List.mem_cons_self) hnot
  · rw [hline] at hab
    by_contra hb
    obtain ⟨b, c, rfl⟩ := (List.eq_nil_or_concat' b).resolve_left hb
    have hassoc : a ++ '\n' :: (b ++ [c]) = (a ++ '\n' :: b) ++ [c] := by simp
    rw [hassoc] at hab
    rw [(List.append_inj' hab rfl).1] at hnot
    exact hnot (List.mem_append_right a List.mem_cons_self)

theorem unmarked_suffix (s : Str) : unmarked s <:+ s := by
  rw [unmarked]
  split
  · exact List.drop_suffix _ _
  · exact List.suffix_refl _

theorem clean_rstrip {s : Str} (hline : EndsLine s) (hnul : '\x00' ∉ s) : Clean (rstrip s) :=
  ⟨newline_not_mem_rstrip hline, fun hmem => hnul ((List.rdropWhile_prefix _ _).subset hmem)⟩

theorem length_rstrip_le (s : Str) : (rstrip s).length ≤ s.length := (List.rdropWhile_prefix _ _).length_le

theorem seenLines_clean (file : Str) : ∀ t ∈ seenLines file, Clean t ∧ t.length < initMaxLine := by
  have hread : ∀ b ∈ buffers '\n' (initMaxLine - 1) file, EndsLine b ∧ b.length < initMaxLine :=
    forall_mem_buffers (by decide) fun s _ =>
      ⟨endsLine_fgets _ s, Nat.lt_of_le_of_lt (length_fgets_le _ s) (by decide)⟩
  have hcstr : ∀ b, EndsLine b → EndsLine (cstr b) := fun b hb => hb.of_prefix (List.takeWhile_prefix _)
  have hle : ∀ b : Str, (cstr b).length ≤ b.length := fun b => (List.takeWhile_prefix _).length_le
  rw [seenLines]
  cases hbuffers : buffers '\n' (initMaxLine - 1) file with
  | nil => exact fun t ht => (nomatch ht)
  | cons first rest =>
      rw [hbuffers, List.forall_mem_cons] at hread
      dsimp only
      rw [List.forall_mem_cons]
      have hsuffix := unmarked_suffix (cstr first)
      refine ⟨⟨clean_rstrip ((hcstr _ hread.1.1).of_suffix hsuffix) fun hmem => ?_, ?_⟩, ?_⟩
      · exact nul_not_mem_cstr first (hsuffix.subset hmem)
      · exact Nat.lt_of_le_of_lt ((length_rstrip_le _).trans (hsuffix.length_le.trans (hle first))) hread.1.2
      · intro t ht
        obtain ⟨b, hb, rfl⟩ := List.mem_map.mp ht
        have hbuffer := hread.2 b hb
        exact ⟨clean_rstrip (hcstr b hbuffer.1) (nul_not_mem_cstr b),
          Nat.lt_of_le_of_lt ((length_rstrip_le _).trans (hle b)) hbuffer.2⟩

end Seen

/-- Whatever the file is, there are well-formed calls that every handler is given, one after the other. -/
theorem exists_calls (file : Str) : ∃ calls, (∀ t ∈ calls, WellFormed t) ∧
    ∀ (σ : Type u) (handler : Handler σ), (∀ u x n v, (handler u x n v).1 = true) →
      ∀ user, (iniParse handler (some file) user).2 = deliver handler user calls := by
  obtain ⟨doc, bad, hreads⟩ := exists_reads start 0 (seenLines file)
  refine ⟨meaning start doc, wellFormed_of_reads hreads placeFormed_start (seenLines_clean file), fun σ handler haccept user => ?_⟩
  have hparsed := parsed_of_reads haccept hreads (s := ⟨user, [], [], 0, 0⟩) rfl rfl
  have hresult : (iniParse handler (some file) user).2 = (iniParseFile handler file user).user := rfl
  rw [hresult, iniParseFile_seen, hparsed.user]
  rfl

end RadioServices.IniCalls

import RadioServices.IniReader

namespace RadioServices.IniSections

open Lib Lib.C IniReader

/-- The triple is one of the section, up to letter case. -/
def Own (sectionName : Str) (t : Triple) : Prop := tolower t.sectionName = tolower sectionName

instance (sectionName : Str) (t : Triple) : Decidable (Own sectionName t) := inferInstanceAs (Decidable (_ = _))

def SameName (t u : Triple) : Prop := tolower t.name = tolower u.name

def pairs (triples : List Triple) (sectionName n : Str) : Option Str :=
  readValue (triples.filter fun t => decide (Own sectionName t ∧ tolower t.name = n))

section Exists

variable {triples : List Triple} {s : Str}

theorem find_eq_zero_iff {s pattern : Str} : find s pattern = some 0 ↔ pattern <+: s := by
  rw [find, List.range_succ_eq_map, List.find?_cons, List.drop_zero]
  by_cases h : pattern <+: s
  · rw [decide_eq_true h]
    exact iff_of_true rfl h
  · rw [decide_eq_false h]
    refine iff_of_false (fun hzero => ?_) h
    obtain ⟨i, -, hi⟩ := List.mem_map.mp (List.mem_of_find?_eq_some hzero)
    exact Nat.succ_ne_zero i hi

theorem sectionExists_eq_true : sectionExists (iniParse triples) s = true ↔ ∃ t ∈ triples, tolower s <+: key t := by
  rw [sectionExists, List.any_eq_true]
  constructor
  · rintro ⟨k, hk, hfind⟩
    obtain ⟨t, ht, rfl⟩ := mem_keys_iniParse.mp hk
    exact ⟨t, ht, find_eq_zero_iff.mp (of_decide_eq_true hfind)⟩
  · rintro ⟨t, ht, hbegins⟩
    exact ⟨key t, mem_keys_iniParse.mpr ⟨t, ht, rfl⟩, decide_eq_true (find_eq_zero_iff.mpr hbegins)⟩

theorem prefix_of_own {t : Triple} (h : Own s t) : tolower s <+: key t := by
  rw [key, makeKey_eq, h]
  exact List.prefix_append _ _

def ExistsExactly (triples : List Triple) (s : Str) : Prop :=
  sectionExists (iniParse triples) s = true ↔ ∃ t ∈ triples, Own s t

/-- The section is there, or no key begins like it. -/
def Unconfused (triples : List Triple) (s : Str) : Prop :=
  (∃ t ∈ triples, Own s t) ∨ ∀ t ∈ triples, ¬ tolower s <+: key t

theorem existsExactly_iff : ExistsExactly triples s ↔ Unconfused triples s := by
  rw [ExistsExactly, sectionExists_eq_true]
  constructor
  · intro h
    by_cases hbegins : ∃ t ∈ triples, tolower s <+: key t
    · exact .inl (h.mp hbegins)
    · exact .inr fun t ht hkey => hbegins ⟨t, ht, hkey⟩
  · rintro (hown | hnone)
    · obtain ⟨t, ht, hsection⟩ := hown
      exact iff_of_true ⟨t, ht, prefix_of_own hsection⟩ ⟨t, ht, hsection⟩
    · apply iff_of_false
      · rintro ⟨t, ht, hkey⟩
        exact hnone t ht hkey
      · rintro ⟨t, ht, hsection⟩
        exact hnone t ht (prefix_of_own hsection)

end Exists

section Pairs

variable {triples : List Triple} {s n : Str}

/-- The key of the triple has the name of the section and the sign somewhere. -/
def Holds (s : Str) (t : Triple) : Prop := cstr (makeKey s []) <:+: key t

theorem strstr_key {t : Triple} : strstr (key t) (makeKey s []) = true ↔ Holds s t := by
  rw [strstr, cstr_of_not_mem (nul_not_mem_key t), decide_eq_true_iff]
  exact Iff.rfl

theorem holds_of_own {t : Triple} (h : Own s t) : Holds s t := by
  have hkey : makeKey s [] = tolower t.sectionName ++ ['='] := by
    rw [makeKey_eq, h]
    rfl
  have hbegins : makeKey s [] <+: key t := by
    rw [hkey, key, makeKey_eq]
    exact ⟨tolower t.name, (List.append_cons _ _ _).symm⟩
  have hnul : '\x00' ∉ makeKey s [] := fun hmem => nul_not_mem_key t (hbegins.subset hmem)
  rw [Holds, cstr_of_not_mem hnul]
  exact hbegins.isInfix

theorem key_eq_iff {t : Triple} (hn : '=' ∉ n) :
    key t = tolower s ++ '=' :: n ↔ Own s t ∧ tolower t.name = n := by
  rw [key, makeKey_eq]
  exact append_eq_iff (eq_not_mem_name t) hn

theorem pairs_eq (hn : '=' ∉ n) : pairs triples s n = (iniParse triples).find? (tolower s ++ '=' :: n) := by
  rw [pairs, find?_iniParse]
  congr 1
  apply List.filter_congr
  intro t _
  rw [decide_eq_decide]
  exact (key_eq_iff hn).symm

theorem exists_of_pairs {value : Str} (h : pairs triples s n = some value) :
    ∃ u ∈ triples, Own s u ∧ tolower u.name = n := by
  rw [pairs, readValue] at h
  split at h
  · cases h
  · rename_i hne
    obtain ⟨u, hu⟩ := List.exists_mem_of_ne_nil _ hne
    obtain ⟨hmem, hcond⟩ := List.mem_filter.mp hu
    exact ⟨u, hmem, of_decide_eq_true hcond⟩

def shown (values : SortedMap Str Str) (s n : Str) : SortedMap Str Str :=
  values.filter fun it => decide (afterSign it.1 = n) && strstr it.1 (makeKey s [])

/-- Of the keys that hold the section and have the same rest, the last one counts. -/
theorem find?_getSection (values : SortedMap Str Str) (s n : Str) :
    (getSection values s).find? n = (shown values s n).entries.getLast?.map Prod.snd := by
  have hfold : getSection values s =
      ((values.entries.filter fun it => strstr it.1 (makeKey s [])).map fun it => (afterSign it.1, it.2)).foldl
        (fun v it => v.insert it.1 it.2) .empty := by
    rw [List.foldl_map, List.foldl_filter]
    rfl
  have hnone : (SortedMap.empty : SortedMap Str Str).find? n = none := rfl
  rw [hfold, SortedMap.find?_foldl_insert, hnone, Option.or_none, List.filter_map, List.getLast?_map,
    Option.map_map, List.filter_filter]
  refine congrArg (fun entries : List (Str × Str) => entries.getLast?.map Prod.snd) (List.filter_congr fun it _ => ?_)
  exact congrArg (· && strstr it.1 (makeKey s [])) (decide_eq_decide.mpr Iff.rfl)

def valueOf (triples : List Triple) (t : Triple) : Str := joined (triples.filter fun u => decide (key u = key t))

theorem find?_key {t : Triple} (ht : t ∈ triples) : (iniParse triples).find? (key t) = some (valueOf triples t) := by
  have hne : triples.filter (fun u => decide (key u = key t)) ≠ [] :=
    List.ne_nil_of_mem (List.mem_filter.mpr ⟨ht, decide_eq_true rfl⟩)
  rw [find?_iniParse, readValue, if_neg hne]
  rfl

/-- What is shown of the triple's key is a pair of the section, or a later key with the same name hides it. -/
def Harmless (triples : List Triple) (s : Str) (t : Triple) : Prop :=
  '=' ∉ t.sectionName ∧ ∃ u ∈ triples, Own s u ∧ SameName u t ∧
    (valueOf triples u = valueOf triples t ∨ ∃ w ∈ triples, Holds s w ∧ SameName w t ∧ key t < key w)

def SectionExactly (triples : List Triple) (s : Str) : Prop :=
  ∀ n, (getSection (iniParse triples) s).find? n = pairs triples s n

theorem mem_shown {e : Str × Str} : e ∈ (shown (iniParse triples) s n).entries ↔
    ∃ t ∈ triples, e = (key t, valueOf triples t) ∧ Holds s t ∧ afterSign (key t) = n := by
  have hfilter : (shown (iniParse triples) s n).entries = (iniParse triples).entries.filter fun it =>
    decide (afterSign it.1 = n) && strstr it.1 (makeKey s []) := rfl
  rw [hfilter, List.mem_filter, Bool.and_eq_true, decide_eq_true_iff]
  constructor
  · rintro ⟨hmem, hafter, hstr⟩
    have hfind := SortedMap.find?_of_mem_entries hmem
    obtain ⟨t, ht, hkey⟩ := mem_keys_iniParse.mp (SortedMap.mem_keys_iff.mpr ⟨e.2, hfind⟩)
    rw [← hkey] at hfind hstr hafter
    rw [find?_key ht, Option.some.injEq] at hfind
    exact ⟨t, ht, Prod.ext hkey.symm hfind.symm, strstr_key.mp hstr, hafter⟩
  · rintro ⟨t, ht, rfl, hholds, hafter⟩
    exact ⟨SortedMap.mem_entries_of_find? (find?_key ht), hafter, strstr_key.mpr hholds⟩

theorem pairs_of_own {u : Triple} (hu : u ∈ triples) (hown : Own s u) (hname : tolower u.name = n) :
    pairs triples s n = some (valueOf triples u) := by
  have hn : '=' ∉ n := hname ▸ eq_not_mem_name u
  rw [pairs_eq hn, ← (key_eq_iff hn).mpr ⟨hown, hname⟩, find?_key hu]

theorem harmless_of_exactly (h : SectionExactly triples s) {t : Triple} (ht : t ∈ triples) (hholds : Holds s t) :
    Harmless triples s t := by
  have hmem : (key t, valueOf triples t) ∈ (shown (iniParse triples) s (afterSign (key t))).entries :=
    mem_shown.mpr ⟨t, ht, rfl, hholds, rfl⟩
  have hvalue := h (afterSign (key t))
  rw [find?_getSection] at hvalue
  cases hlast : (shown (iniParse triples) s (afterSign (key t))).entries.getLast? with
  | none =>
      rw [List.getLast?_eq_none_iff.mp hlast] at hmem
      cases hmem
  | some e =>
      rw [hlast, Option.map_some] at hvalue
      obtain ⟨u, hu, hown, hname⟩ := exists_of_pairs hvalue.symm
      have hsign : '=' ∉ afterSign (key t) := hname ▸ eq_not_mem_name u
      have hsection : '=' ∉ t.sectionName := fun hmem => hsign ((eq_mem_afterSign t).mpr hmem)
      have hsame : SameName u t := hname.trans (afterSign_key hsection)
      refine ⟨hsection, u, hu, hown, hsame, ?_⟩
      by_cases hkey : e.1 = key t
      · have heq := SortedMap.find?_of_mem_entries (List.mem_of_getLast? hlast)
        rw [hkey, SortedMap.find?_of_mem_entries hmem] at heq
        rw [pairs_of_own hu hown hname] at hvalue
        exact .inl ((Option.some.inj hvalue).symm.trans (Option.some.inj heq).symm)
      · obtain ⟨w, hw, rfl, hwholds, hafter⟩ := mem_shown.mp (List.mem_of_getLast? hlast)
        have hwsection : '=' ∉ w.sectionName := fun hmem => hsign (hafter ▸ (eq_mem_afterSign w).mpr hmem)
        have hwname : SameName w t := by
          rw [SameName, ← afterSign_key hwsection, hafter, afterSign_key hsection]
        exact .inr ⟨w, hw, hwholds, hwname, SortedMap.lt_of_getLast? hlast hmem (Ne.symm hkey)⟩

theorem exactly_of_harmless (h : ∀ t ∈ triples, Holds s t → Harmless triples s t) : SectionExactly triples s := by
  intro n
  rw [find?_getSection]
  cases hlast : (shown (iniParse triples) s n).entries.getLast? with
  | none =>
      have hnil := List.getLast?_eq_none_iff.mp hlast
      symm
      rw [Option.map_none, Option.eq_none_iff_forall_ne_some]
      intro value hvalue
      obtain ⟨u, hu, hown, hname⟩ := exists_of_pairs hvalue
      have hholds := holds_of_own hown
      have hafter := afterSign_key (h u hu hholds).1
      have hmem : (key u, valueOf triples u) ∈ (shown (iniParse triples) s n).entries :=
        mem_shown.mpr ⟨u, hu, rfl, hholds, hafter.trans hname⟩
      rw [hnil] at hmem
      cases hmem
  | some e =>
      obtain ⟨t, ht, rfl, hholds, hafter⟩ := mem_shown.mp (List.mem_of_getLast? hlast)
      obtain ⟨hsection, u, hu, hown, hname, hvalue⟩ := h t ht hholds
      have hn : tolower t.name = n := (afterSign_key hsection).symm.trans hafter
      rw [pairs_of_own hu hown (hname.trans hn)]
      rcases hvalue with hvalue | ⟨w, hw, hwholds, hwname, hlt⟩
      · rw [hvalue]
        rfl
      · have hwafter := afterSign_key (h w hw hwholds).1
        have hmem : (key w, valueOf triples w) ∈ (shown (iniParse triples) s n).entries :=
          mem_shown.mpr ⟨w, hw, rfl, hwholds, hwafter.trans (hwname.trans hn)⟩
        have hlater := SortedMap.lt_of_getLast? hlast hmem (ne_of_gt hlt)
        exact absurd hlater (lt_asymm hlt)

end Pairs

/-- A section is found exactly if it is there or no key begins like it, and its pairs are read exactly if every key that
holds it somewhere does no harm. -/
theorem lookups_iff (triples : List Triple) (s : Str) :
    (ExistsExactly triples s ↔ Unconfused triples s) ∧
      (SectionExactly triples s ↔ ∀ t ∈ triples, Holds s t → Harmless triples s t) :=
  ⟨existsExactly_iff, fun h _ ht hholds => harmless_of_exactly h ht hholds, exactly_of_harmless⟩

def others : List Triple :=
  [⟨"paths".toList, "a".toList, "1".toList, by decide, by decide, by decide⟩,
    ⟨"mypath".toList, "b".toList, "2".toList, by decide, by decide, by decide⟩]

theorem not_exactly : (¬ ∀ triples s, ExistsExactly triples s) ∧ ¬ ∀ triples s, SectionExactly triples s := by
  constructor
  · intro h
    have hexists : sectionExists (iniParse others) "path".toList = true := by decide
    have hnot : ¬ ∃ t ∈ others, Own "path".toList t := by decide
    exact hnot ((h others "path".toList).mp hexists)
  · intro h
    have hread : (getSection (iniParse others) "path".toList).find? ['b'] = some ['2'] := by decide
    have hnone : pairs others "path".toList ['b'] = none := by decide
    rw [h others "path".toList ['b'], hnone] at hread
    cases hread

end RadioServices.IniSections

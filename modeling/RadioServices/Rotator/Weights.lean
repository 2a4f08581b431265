import RadioServices.Rotator.Construction
import Mathlib.Data.List.Induction
import Mathlib.Data.List.TakeWhile

namespace RadioServices.Rotator.Weights

open Lib Lib.C TRotatorCtrl

def entryTrack (e : ZendKey × Zval) : Option (Str × Str) :=
  match e.2 with
  | .array data => recordTrack data
  | _ => none

def countTitles (p : Str → Bool) (history : HashTable) : Nat :=
  history.countP fun e => (entryTrack e).any fun t => p t.2

def WellFormed (history : HashTable) : Prop := ∀ e ∈ history, (entryTrack e).isSome

instance instDecidableWellFormed (history : HashTable) : Decidable (WellFormed history) :=
  inferInstanceAs (Decidable (∀ e ∈ history, (entryTrack e).isSome))

/-- The weight of each entry loaded is the number of entries with its title. -/
def CountsEqual (history : HashTable) (m : MHistory) : Prop :=
  ∀ k h, m.find? k = some h → h.statistics = countTitles (strcmpEq h.title) history

/-- The titles differ, and the first is empty or begins with the second. -/
def Overlaps (t t' : Str) : Prop := cstr t ≠ cstr t' ∧ (t = [] ∨ t' <+: cstr t)

def entryKey (env : Env) (e : ZendKey × Zval) : Int := i32 (numIndex env e.1)

def lastOf (env : Env) (history : HashTable) (k : Int) : Option (ZendKey × Zval) :=
  (history.filter fun e => entryKey env e = k).getLast?

/-- No title that is kept overlaps a title of the history. -/
def NoOverlap (env : Env) (history : HashTable) : Prop :=
  ∀ k e t, lastOf env history k = some e → entryTrack e = some t →
    ∀ f ∈ history, ∀ t', entryTrack f = some t' → ¬ Overlaps t.2 t'.2

section Equality

variable {t t' : Str}

theorem cstr_leading (s : Str) : cstr s <+: s := List.takeWhile_prefix _

theorem cstr_of_leading (h : t' <+: cstr t) : cstr t' = t' := by
  rw [cstr, List.takeWhile_eq_self_iff]
  intro c hc
  have hmem : c ∈ cstr t := h.subset hc
  exact List.mem_takeWhile_imp (p := fun c => decide (c ≠ '\x00')) hmem

/-- At the length of the second string, a comparison that ends there finds a prefix. -/
theorem strncmpEq_iff (hne : cstr t ≠ cstr t') : strncmpEq t t' t'.length = true ↔ t' <+: cstr t := by
  have htake : (cstr t').take t'.length = cstr t' := List.take_of_length_le (cstr_leading t').length_le
  rw [strncmpEq, beq_iff_eq, htake]
  constructor
  · intro h
    have hle : t'.length ≤ (cstr t).length := by
      by_contra hlt
      rw [List.take_of_length_le (by omega)] at h
      exact hne h
    have hlength := congrArg List.length h
    rw [List.length_take, Nat.min_eq_left hle] at hlength
    have hself : cstr t' = t' := (cstr_leading t').eq_of_length hlength.symm
    rw [hself] at h
    rw [← h]
    exact List.take_prefix _ _
  · intro h
    rw [cstr_of_leading h]
    exact (List.prefix_iff_eq_take.mp h).symm

/-- Beside the titles that compare equal, `is_equal` counts those that overlap. -/
theorem isEqual_iff : isEqual t t' = true ↔ strcmpEq t t' = true ∨ Overlaps t t' := by
  rw [strcmpEq, beq_iff_eq]
  by_cases heq : cstr t = cstr t'
  · simp [isEqual, strncmpEq, heq]
  · simp only [heq, false_or, Overlaps, ne_eq, not_false_eq_true, true_and]
    cases t with
    | nil => simp [isEqual]
    | cons c t =>
        cases t' with
        | nil => simp [isEqual]
        | cons c' t' =>
            rw [← strncmpEq_iff heq]
            simp [isEqual]

end Equality

section Load

variable {env : Env} {history : HashTable}

theorem entryTrack_some {singer title : Str} {e : ZendKey × Zval} (htrack : entryTrack e = some (singer, title)) :
    ∃ data, e.2 = .array data ∧ findDataInNode data DEFAULT_SINGER = some (.string singer) ∧
      findDataInNode data DEFAULT_TITLE = some (.string title) := by
  rw [entryTrack] at htrack
  split at htrack
  · rename_i data hdata
    rw [recordTrack] at htrack
    split at htrack
    · rename_i hsinger htitle
      cases htrack
      exact ⟨data, hdata, hsinger, htitle⟩
    · cases htrack
  · cases htrack

theorem calcStatisticsInHistory_eq (hall : WellFormed history) (title : Str) :
    calcStatisticsInHistory history title = countTitles (isEqual title) history := by
  rw [calcStatisticsInHistory, countTitles]
  refine congrArg Nat.cast (List.countP_congr fun e he => ?_)
  obtain ⟨⟨singer, other⟩, htrack⟩ := Option.isSome_iff_exists.mp (hall e he)
  obtain ⟨data, hdata, -, htitle⟩ := entryTrack_some htrack
  rw [htrack, hdata]
  simp only [htitle, Option.any_some]

theorem searchHistoryEntry_track {singer title : Str} {e : ZendKey × Zval}
    (htrack : entryTrack e = some (singer, title)) (m : MHistory) :
    searchHistoryEntry env history m e =
      some (m.insert (entryKey env e) ⟨singer, title, calcStatisticsInHistory history title⟩) := by
  obtain ⟨data, hdata, hsinger, htitle⟩ := entryTrack_some htrack
  rw [searchHistoryEntry, hdata]
  simp only [hsinger, htitle, entryKey]

def loadedEntry (history : HashTable) (e : ZendKey × Zval) : Option THistory :=
  (entryTrack e).map fun t => ⟨t.1, t.2, calcStatisticsInHistory history t.2⟩

theorem lastOf_concat (l : HashTable) (e : ZendKey × Zval) (k : Int) :
    lastOf env (l ++ [e]) k = if entryKey env e = k then some e else lastOf env l k := by
  rw [lastOf, lastOf, List.filter_append]
  by_cases hk : entryKey env e = k
  · simp [hk]
  · simp [hk]

/-- Under each key the load leaves the last entry of that key. -/
theorem foldlM_find? {l : HashTable} (hl : WellFormed l) {m : MHistory}
    (h : l.foldlM (searchHistoryEntry env history) .empty = some m) (k : Int) :
    m.find? k = (lastOf env l k).bind (loadedEntry history) := by
  induction l using List.reverseRecOn generalizing m with
  | nil =>
      simp only [List.foldlM_nil, Option.pure_def, Option.some.injEq] at h
      rw [← h]
      rfl
  | append_singleton l e ih =>
      simp only [List.foldlM_append, List.foldlM_cons, List.foldlM_nil, Option.bind_eq_bind,
        Option.bind_eq_some_iff, Option.pure_def, Option.some.injEq] at h
      obtain ⟨m', hm', m'', he, rfl⟩ := h
      obtain ⟨⟨singer, title⟩, htrack⟩ := Option.isSome_iff_exists.mp (hl e (by simp))
      rw [searchHistoryEntry_track htrack, Option.some.injEq] at he
      rw [← he, SortedMap.find?_insert, lastOf_concat]
      by_cases hk : entryKey env e = k
      · rw [if_pos hk.symm, if_pos hk]
        simp [loadedEntry, htrack]
      · rw [if_neg (Ne.symm hk), if_neg hk]
        exact ih (fun f hf => hl f (List.mem_append_left _ hf)) hm'

theorem countTitles_eq_iff {t : Str} :
    countTitles (isEqual t) history = countTitles (strcmpEq t) history ↔
      ∀ f ∈ history, ∀ t', entryTrack f = some t' → ¬ Overlaps t t'.2 := by
  have hmono : ∀ f ∈ history, ((entryTrack f).any fun u => strcmpEq t u.2) = true →
      ((entryTrack f).any fun u => isEqual t u.2) = true := by
    intro f _ h
    simp only [Option.any_eq_true] at h ⊢
    obtain ⟨u, hu, hequal⟩ := h
    exact ⟨u, hu, isEqual_iff.mpr (.inl hequal)⟩
  constructor
  · intro heq f hf t' ht' hoverlaps
    have hlt := SortedMap.countP_lt_countP hmono hf
      (by simpa [ht', strcmpEq] using hoverlaps.1)
      (by simpa [ht'] using isEqual_iff.mpr (.inr hoverlaps))
    exact absurd heq (Nat.ne_of_gt hlt)
  · intro hno
    refine List.countP_congr fun f hf => ⟨fun h => ?_, hmono f hf⟩
    simp only [Option.any_eq_true] at h ⊢
    obtain ⟨u, hu, hequal⟩ := h
    exact ⟨u, hu, (isEqual_iff.mp hequal).resolve_right (hno f hf u hu)⟩

end Load

/-- The weights loaded from a history count equal titles exactly when no title
kept overlaps another. -/
theorem weights_count_iff {env : Env} {c d : TRotatorCtrl} {arr history : HashTable}
    (hnode : getNodePtr arr DEFAULT_HISTORY = some history) (hall : WellFormed history)
    (hempty : c.mHistory = .empty) (h : c.searchHistory env arr = some d) :
    CountsEqual history d.mHistory ↔ NoOverlap env history := by
  simp only [searchHistory, hnode, hempty, Option.bind_eq_bind, Option.pure_def,
    Option.bind_eq_some_iff, Option.some.injEq] at h
  obtain ⟨m, hm, rfl⟩ := h
  have hfind := foldlM_find? hall hm
  have hweight : ∀ t : Str × Str,
      ((calcStatisticsInHistory history t.2 : Int) = countTitles (strcmpEq t.2) history ↔
        ∀ f ∈ history, ∀ t', entryTrack f = some t' → ¬ Overlaps t.2 t'.2) := by
    intro t
    rw [calcStatisticsInHistory_eq hall, Int.natCast_inj, countTitles_eq_iff]
  constructor
  · intro hcounts k e t he ht
    refine (hweight t).mp (hcounts k ⟨t.1, t.2, calcStatisticsInHistory history t.2⟩ ?_)
    rw [hfind, he, Option.bind_some, loadedEntry, ht, Option.map_some]
  · intro hno k h hk
    rw [hfind, Option.bind_eq_some_iff] at hk
    obtain ⟨e, he, hloaded⟩ := hk
    obtain ⟨t, ht, rfl⟩ := Option.map_eq_some_iff.mp hloaded
    exact (hweight t).mpr (hno k e t he ht)

section Demo

def demoHistory (titles : List String) : HashTable :=
  titles.zipIdx.map fun e => (.long e.2, .array (trackRecord "x" e.1 none))

def demoArray (titles : List String) : HashTable :=
  [(.str DEFAULT_HISTORY, .array (demoHistory titles))]

def fresh : TRotatorCtrl := init (Env.at 0) [] 0 none ⟨0, 0, 0, 0⟩

theorem weights_count_iff_demo :
    CountsEqual (demoHistory ["one", "two", "one"])
        ((fresh.searchHistory (Env.at 0) (demoArray ["one", "two", "one"])).get rfl).mHistory ↔
      NoOverlap (Env.at 0) (demoHistory ["one", "two", "one"]) :=
  @weights_count_iff _ _ _ (demoArray ["one", "two", "one"]) _ rfl (by decide) rfl (Option.some_get _).symm

/-- A title that begins with another one counts it too. -/
theorem prefix_is_counted : ¬ ∀ (env : Env) (c d : TRotatorCtrl) (arr history : HashTable),
    getNodePtr arr DEFAULT_HISTORY = some history → WellFormed history → c.mHistory = .empty →
    c.searchHistory env arr = some d → CountsEqual history d.mHistory := by
  intro h
  have hcounts := h (Env.at 0) fresh _ (demoArray ["Song", "Song 2"]) _ rfl (by decide) rfl rfl
  exact absurd (hcounts 1 ⟨"x".toList, "Song 2".toList, 2⟩ rfl) (by decide)

end Demo

end RadioServices.Rotator.Weights

import RadioServices.Rotator.Construction
import Mathlib.Data.List.Dedup

namespace RadioServices.Rotator.History

open Lib Lib.C TRotatorCtrl

/-- One more entry, the others as they were, and the new one met first by a
reverse iteration. -/
structure Appends (m m' : MHistory) (h : THistory) : Prop where
  larger : m'.size = m.size + 1
  unchanged : ∀ e ∈ m.entries, e ∈ m'.entries
  newest : ∃ k ∉ m.keys, m'.entries.reverse.head? = some (k, h)

/-- Each addition of a sequence of records with executor and title appends. -/
def AppendsAll : TRotatorCtrl → List (HashTable × Int) → Prop
  | _, [] => True
  | c, (data, statistics) :: l => ∀ d, c.addToPlaylist data statistics = some d →
      (∃ singer title, recordTrack data = some (singer, title) ∧
        Appends c.mHistory d.mHistory ⟨singer, title, statistics + 1⟩) ∧ AppendsAll d l

def Faithful (c : TRotatorCtrl) : Prop :=
  ∀ l : List (HashTable × Int), (∀ e ∈ l, (recordTrack e.1).isSome) → AppendsAll c l

/-- Every key is below the number of entries. -/
def Fresh (m : MHistory) : Prop := ∀ k ∈ m.keys, k < m.size

theorem appends_of_fresh {m : MHistory} (hm : Fresh m) (h : THistory) :
    Appends m (m.insert m.size h) h ∧ Fresh (m.insert m.size h) := by
  have hnew : (m.size : Int) ∉ m.keys := fun hmem => absurd (hm _ hmem) (by simp)
  have hentries := SortedMap.entries_insert_of_gt (v := h) hm
  have hsize : (m.insert m.size h).size = m.size + 1 := by rw [SortedMap.size_insert, if_neg hnew]
  refine ⟨⟨hsize, fun e he => ?_, m.size, hnew, ?_⟩, fun k hk => ?_⟩
  · rw [hentries]; exact List.mem_append_left _ he
  · rw [hentries]; simp
  · rw [hsize]
    rcases SortedMap.mem_keys_insert.mp hk with rfl | hk
    · omega
    · have hlt := hm k hk
      omega

/-- The new key is the size, so it is met first only if all others are below. -/
theorem fresh_of_appends {m : MHistory} {h : THistory} (ha : Appends m (m.insert m.size h) h) :
    Fresh m := by
  obtain ⟨k, hk, hlast⟩ := ha.newest
  rw [List.head?_reverse] at hlast
  have hmem : (k, h) ∈ (m.insert m.size h).entries := List.mem_of_getLast? hlast
  obtain rfl : k = m.size := by
    have hkeys : k ∈ (m.insert m.size h).keys := List.mem_map_of_mem hmem
    exact (SortedMap.mem_keys_insert.mp hkeys).resolve_right hk
  intro j hj
  obtain ⟨v, hv⟩ := SortedMap.mem_keys_iff.mp hj
  have hne : j ≠ m.size := fun heq => hk (heq ▸ hj)
  have hin : (j, v) ∈ (m.insert m.size h).entries :=
    SortedMap.mem_entries_of_find? (by rw [SortedMap.find?_insert_of_ne m hne]; exact hv)
  exact (m.insert m.size h).lt_of_getLast? hlast hin hne

theorem addToPlaylist_mHistory {c d : TRotatorCtrl} {data : HashTable} {singer title : Str}
    {statistics : Int} (htrack : recordTrack data = some (singer, title))
    (h : c.addToPlaylist data statistics = some d) :
    d.mHistory = c.mHistory.insert c.mHistory.size ⟨singer, title, statistics + 1⟩ :=
  congrArg Core.mHistory (core_addToPlaylist htrack h)

theorem appendsAll_of_fresh {c : TRotatorCtrl} (hc : Fresh c.mHistory) {l : List (HashTable × Int)}
    (hl : ∀ e ∈ l, (recordTrack e.1).isSome) : AppendsAll c l := by
  induction l generalizing c with
  | nil => trivial
  | cons e l ih =>
      obtain ⟨data, statistics⟩ := e
      intro d hd
      obtain ⟨⟨singer, title⟩, htrack⟩ := Option.isSome_iff_exists.mp (hl _ List.mem_cons_self)
      obtain ⟨happends, hfresh⟩ := appends_of_fresh hc ⟨singer, title, statistics + 1⟩
      rw [← addToPlaylist_mHistory htrack hd] at happends hfresh
      exact ⟨⟨singer, title, htrack, happends⟩, ih hfresh fun f hf => hl f (List.mem_cons_of_mem _ hf)⟩

theorem chargeInterval_isSome (c : TRotatorCtrl) : (c.chargeInterval none).isSome := by
  rw [chargeInterval, TTimer.remainedIntervalOf, TTimer.getSeconds]
  split
  · simp only [Option.pure_def, Option.bind_eq_bind, Option.bind_some]
    split <;> rfl
  · rfl

theorem addToPlaylist_isSome (c : TRotatorCtrl) {data : HashTable} {t : Str × Str} (statistics : Int)
    (htrack : recordTrack data = some t) (hduration : recordDuration data = none) :
    (c.addToPlaylist data statistics).isSome := by
  simp only [addToPlaylist, hduration, TTimer.appendPlaylistDuration, Option.bind_eq_bind]
  rw [recordHistory_of_track (show recordTrack data = some (t.1, t.2) from htrack)]
  exact chargeInterval_isSome _

theorem faithful_iff_fresh (c : TRotatorCtrl) : Faithful c ↔ Fresh c.mHistory := by
  refine ⟨fun h => ?_, fun h l hl => appendsAll_of_fresh h hl⟩
  have htrack : recordTrack (trackRecord "x" "t" none) = some ("x".toList, "t".toList) := rfl
  have hone := h [(trackRecord "x" "t" none, 1)] fun e he => by
    rw [List.mem_singleton.mp he, htrack]; rfl
  obtain ⟨d, hd⟩ := Option.isSome_iff_exists.mp (addToPlaylist_isSome c 1 htrack rfl)
  obtain ⟨⟨singer, title, htrack, happends⟩, -⟩ := hone d hd
  rw [addToPlaylist_mHistory htrack hd] at happends
  exact fresh_of_appends happends

section Load

def keptKey (env : Env) (e : ZendKey × Zval) : Option Int :=
  match e.2 with
  | .array data => (recordTrack data).map fun _ => i32 (numIndex env e.1)
  | _ => none

def loadedKeys (env : Env) (arr : HashTable) : List Int :=
  match getNodePtr arr DEFAULT_HISTORY with
  | none => []
  | some ht => ht.filterMap (keptKey env)

theorem searchHistoryEntry_keys {env : Env} {history : HashTable} {m m' : MHistory}
    {e : ZendKey × Zval} (h : searchHistoryEntry env history m e = some m') (j : Int) :
    j ∈ m'.keys ↔ j ∈ m.keys ∨ keptKey env e = some j := by
  rw [searchHistoryEntry] at h
  split at h
  · rename_i data hdata
    split at h
    · rename_i singer title hsinger htitle
      have hkept : keptKey env e = some (i32 (numIndex env e.1)) := by
        simp [keptKey, hdata, recordTrack, hsinger, htitle]
      cases h
      simp [hkept, SortedMap.mem_keys_insert, or_comm, eq_comm]
    · cases h
    · rename_i hno
      have hnone : recordTrack data = none := by
        rw [recordTrack]
        split
        · rename_i singer title hsinger htitle
          exact (hno _ _ hsinger htitle).elim
        · rfl
      cases h
      simp [keptKey, hdata, hnone]
  · rename_i hno
    have hkept : keptKey env e = none := by
      rw [keptKey]
      split
      · rename_i data hdata
        exact (hno data hdata).elim
      · rfl
    cases h
    simp [hkept]

theorem loadHistory_keys {env : Env} {arr : HashTable} {m : MHistory} (h : loadHistory env arr = some m)
    (j : Int) : j ∈ m.keys ↔ j ∈ loadedKeys env arr := by
  have hfold (history l : HashTable) : ∀ {m m' : MHistory},
      l.foldlM (searchHistoryEntry env history) m = some m' →
      (j ∈ m'.keys ↔ j ∈ m.keys ∨ j ∈ l.filterMap (keptKey env)) := by
    induction l with
    | nil => intro m m' h; simp only [List.foldlM_nil, Option.pure_def, Option.some.injEq] at h; simp [h]
    | cons e l ih =>
        intro m m' h
        simp only [List.foldlM_cons, Option.bind_eq_bind, Option.bind_eq_some_iff] at h
        obtain ⟨t, ht, h⟩ := h
        rw [ih h, searchHistoryEntry_keys ht, or_assoc]
        simp [List.mem_filterMap]
  rw [loadHistory] at h
  rw [loadedKeys]
  cases hnode : getNodePtr arr DEFAULT_HISTORY with
  | none =>
      rw [hnode] at h
      cases h
      simp [SortedMap.keys]
  | some ht =>
      rw [hnode] at h
      rw [hfold ht ht h]
      simp [SortedMap.keys]

theorem loadHistory_size {env : Env} {arr : HashTable} {m : MHistory} (h : loadHistory env arr = some m) :
    m.size = (loadedKeys env arr).dedup.length := by
  have hperm : m.keys.Perm (loadedKeys env arr).dedup :=
    (List.perm_ext_iff_of_nodup m.nodup_keys (List.nodup_dedup _)).mpr fun j => by
      rw [loadHistory_keys h, List.mem_dedup]
  rw [← hperm.length_eq, SortedMap.length_keys]

end Load

/-- The history of an object grows faithfully exactly when the constructor read
no history, or every key it kept is below the number of keys it kept. -/
theorem history_faithful_iff {env : Env} {arr : HashTable} {arg : Param} {c : TRotatorCtrl}
    (hnew : new env arr arg = some c) :
    Faithful c ↔
      (HasFolders arr → ∀ k ∈ loadedKeys env arr, k < (loadedKeys env arr).dedup.length) := by
  rw [faithful_iff_fresh]
  rcases new_cases hnew with ⟨hno, hc⟩ | ⟨hyes, e, m, -, hm, hcore⟩
  · have hempty : c.mHistory = .empty := hc.history
    simp [Fresh, hempty, SortedMap.keys, hno]
  · have hload : c.mHistory = m := congrArg Core.mHistory hcore
    simp only [Fresh, hload, loadHistory_keys hm, loadHistory_size hm, hyes, forall_true_left]

section Demo

def demoArray (keys : List Int) : HashTable :=
  [(.str DEFAULT_FOLDERS, .array [folderNode "A" [trackRecord "x" "t" none]]),
    (.str DEFAULT_HISTORY, .array (keys.map fun k => (.long k, .array (trackRecord "y" "u" none))))]

theorem history_faithful_iff_demo :
    Faithful ((new (Env.at 0) (demoArray [1, 0]) .none).get rfl) ↔
      (HasFolders (demoArray [1, 0]) → ∀ k ∈ loadedKeys (Env.at 0) (demoArray [1, 0]),
        k < (loadedKeys (Env.at 0) (demoArray [1, 0])).dedup.length) :=
  history_faithful_iff (Option.some_get _).symm

/-- Numbered from 1, the only entry is overwritten by the first addition. -/
theorem one_based_history_not_faithful :
    ¬ Faithful ((new (Env.at 0) (demoArray [1]) .none).get rfl) := by
  intro h
  have hadd := h [(trackRecord "x" "t" none, 1)] (by decide) _ rfl
  obtain ⟨singer, title, -, happends⟩ := hadd.1
  exact absurd happends.larger (by decide)

end Demo

end RadioServices.Rotator.History

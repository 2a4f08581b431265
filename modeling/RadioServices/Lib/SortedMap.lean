import Mathlib.Data.List.Sort

namespace RadioServices.Lib

universe u v

/-- A finite map iterated in ascending key order. The order is a field, so a
map with a repeated or misplaced key cannot be built. -/
structure SortedMap (κ : Type u) (ν : Type v) [LinearOrder κ] where
  entries : List (κ × ν)
  sorted : entries.Pairwise (fun a b => a.1 < b.1)

namespace SortedMap

variable {κ : Type u} {ν : Type v} [LinearOrder κ]

@[ext] theorem ext {m m' : SortedMap κ ν} (h : m.entries = m'.entries) : m = m' := by
  cases m; cases m'; simp_all

def empty : SortedMap κ ν := ⟨[], .nil⟩

instance : Inhabited (SortedMap κ ν) := ⟨empty⟩

@[simp] theorem entries_empty : (empty : SortedMap κ ν).entries = [] := rfl

def size (m : SortedMap κ ν) : Nat := m.entries.length

def keys (m : SortedMap κ ν) : List κ := m.entries.map Prod.fst

def values (m : SortedMap κ ν) : List ν := m.entries.map Prod.snd

def lookupEntries (k : κ) : List (κ × ν) → Option ν
  | [] => none
  | (a, w) :: l => if k = a then some w else lookupEntries k l

def find? (m : SortedMap κ ν) (k : κ) : Option ν := lookupEntries k m.entries

def begin? (m : SortedMap κ ν) : Option κ := m.keys.head?

theorem begin?_of_size {m : SortedMap κ ν} (h : 0 < m.size) : ∃ k, m.begin? = some k := by
  cases hbegin : m.begin? with
  | some k => exact ⟨k, rfl⟩
  | none =>
      rw [begin?, List.head?_eq_none_iff, keys, List.map_eq_nil_iff] at hbegin
      rw [size, hbegin] at h
      exact absurd h (lt_irrefl 0)

theorem length_keys (m : SortedMap κ ν) : m.keys.length = m.size := List.length_map _

theorem size_pos_of_mem_keys {m : SortedMap κ ν} {k : κ} (h : k ∈ m.keys) : 0 < m.size := by
  rw [← length_keys]
  exact List.length_pos_of_mem h

theorem size_pos_of_find? {m : SortedMap κ ν} {k : κ} {v : ν} (h : m.find? k = some v) : 0 < m.size := by
  rw [find?] at h
  rw [size]
  cases hentries : m.entries with
  | nil => simp [hentries, lookupEntries] at h
  | cons e l => exact Nat.succ_pos _

def upperBound (m : SortedMap κ ν) (k : κ) : Option κ := m.keys.find? (fun a => decide (k < a))

theorem upperBound_eq_some {m : SortedMap κ ν} {k j : κ} (h : m.upperBound k = some j) :
    j ∈ m.keys ∧ k < j :=
  ⟨List.mem_of_find?_eq_some h, by simpa using List.find?_some h⟩

def insertEntries (k : κ) (v : ν) : List (κ × ν) → List (κ × ν)
  | [] => [(k, v)]
  | (a, w) :: l =>
      if k < a then (k, v) :: (a, w) :: l
      else if k = a then (k, v) :: l
      else (a, w) :: insertEntries k v l

theorem mem_insertEntries {k : κ} {v : ν} {l : List (κ × ν)} {e : κ × ν}
    (h : e ∈ insertEntries k v l) : e = (k, v) ∨ e ∈ l := by
  induction l with
  | nil => exact .inl (by simpa [insertEntries] using h)
  | cons p l ih =>
      simp only [insertEntries] at h
      split at h
      · simpa using h
      · split at h
        · rcases List.mem_cons.mp h with h | h
          · exact .inl h
          · exact .inr (List.mem_cons_of_mem _ h)
        · rcases List.mem_cons.mp h with h | h
          · exact .inr (h ▸ List.mem_cons_self)
          · exact (ih h).imp id (List.mem_cons_of_mem _)

theorem insertEntries_sorted (k : κ) (v : ν) {l : List (κ × ν)}
    (hl : l.Pairwise (fun a b => a.1 < b.1)) :
    (insertEntries k v l).Pairwise (fun a b => a.1 < b.1) := by
  induction l with
  | nil => simp [insertEntries]
  | cons p l ih =>
      obtain ⟨hp, hl⟩ := List.pairwise_cons.mp hl
      simp only [insertEntries]
      split
      · rename_i hlt
        refine List.pairwise_cons.mpr ⟨?_, List.pairwise_cons.mpr ⟨hp, hl⟩⟩
        intro e he
        rcases List.mem_cons.mp he with rfl | he
        · exact hlt
        · exact hlt.trans (hp e he)
      · split
        · rename_i heq
          exact List.pairwise_cons.mpr ⟨fun e he => heq ▸ hp e he, hl⟩
        · rename_i hnlt hne
          refine List.pairwise_cons.mpr ⟨?_, ih hl⟩
          intro e he
          rcases mem_insertEntries he with rfl | he
          · exact lt_of_le_of_ne (not_lt.mp hnlt) (Ne.symm hne)
          · exact hp e he

def insert (m : SortedMap κ ν) (k : κ) (v : ν) : SortedMap κ ν :=
  ⟨insertEntries k v m.entries, insertEntries_sorted k v m.sorted⟩

theorem lookupEntries_insertEntries (k j : κ) (v : ν) (l : List (κ × ν)) :
    lookupEntries j (insertEntries k v l) = if j = k then some v else lookupEntries j l := by
  induction l with
  | nil => simp [insertEntries, lookupEntries]
  | cons p l ih =>
      obtain ⟨a, w⟩ := p
      simp only [insertEntries]
      split
      · simp [lookupEntries]
      · split
        · rename_i heq
          subst heq
          by_cases hj : j = k <;> simp [lookupEntries, hj]
        · rename_i hne
          by_cases hj : j = k
          · subst hj; simp [lookupEntries, hne, ih]
          · simp [lookupEntries, hj, ih]

@[simp] theorem find?_insert (m : SortedMap κ ν) (k j : κ) (v : ν) :
    (m.insert k v).find? j = if j = k then some v else m.find? j :=
  lookupEntries_insertEntries k j v m.entries

theorem find?_insert_cases {m : SortedMap κ ν} {k j : κ} {v w : ν} (h : (m.insert k v).find? j = some w) :
    j = k ∧ w = v ∨ j ≠ k ∧ m.find? j = some w := by
  rw [find?_insert] at h
  split at h
  · rename_i hsame
    exact .inl ⟨hsame, (Option.some.inj h).symm⟩
  · rename_i hne
    exact .inr ⟨hne, h⟩

theorem find?_insert_self (m : SortedMap κ ν) (k : κ) (v : ν) :
    (m.insert k v).find? k = some v := by simp

theorem find?_insert_of_ne (m : SortedMap κ ν) {k j : κ} (h : j ≠ k) (v : ν) :
    (m.insert k v).find? j = m.find? j := by simp [h]

theorem mem_keys_iff {m : SortedMap κ ν} {k : κ} : k ∈ m.keys ↔ ∃ v, m.find? k = some v := by
  rw [keys, find?]
  induction m.entries with
  | nil => simp [lookupEntries]
  | cons p l ih =>
      by_cases hk : k = p.1
      · simp [lookupEntries, hk]
      · simp [lookupEntries, hk, ih]

theorem find?_eq_none_iff {m : SortedMap κ ν} {k : κ} : m.find? k = none ↔ k ∉ m.keys := by
  rw [mem_keys_iff]
  cases m.find? k <;> simp

theorem mem_of_lookupEntries {k : κ} {v : ν} {l : List (κ × ν)} (h : lookupEntries k l = some v) :
    (k, v) ∈ l := by
  induction l with
  | nil => simp [lookupEntries] at h
  | cons p l ih =>
      obtain ⟨a, w⟩ := p
      by_cases hk : k = a
      · simp only [lookupEntries, hk, if_true, Option.some.injEq] at h
        simp [hk, h]
      · simp only [lookupEntries, hk, if_false] at h
        exact List.mem_cons_of_mem _ (ih h)

theorem mem_entries_of_find? {m : SortedMap κ ν} {k : κ} {v : ν} (h : m.find? k = some v) :
    (k, v) ∈ m.entries := mem_of_lookupEntries h

theorem lookupEntries_of_mem {k : κ} {v : ν} {l : List (κ × ν)}
    (hl : l.Pairwise (fun a b => a.1 < b.1)) (h : (k, v) ∈ l) : lookupEntries k l = some v := by
  induction l with
  | nil => simp at h
  | cons p l ih =>
      obtain ⟨hp, hl⟩ := List.pairwise_cons.mp hl
      rcases List.mem_cons.mp h with rfl | h
      · simp [lookupEntries]
      · have hne : k ≠ p.1 := ne_of_gt (hp _ h)
        simp [lookupEntries, hne, ih hl h]

theorem find?_of_mem_entries {m : SortedMap κ ν} {k : κ} {v : ν} (h : (k, v) ∈ m.entries) :
    m.find? k = some v := lookupEntries_of_mem m.sorted h

theorem nodup_entries (m : SortedMap κ ν) : m.entries.Nodup :=
  m.sorted.imp fun h heq => absurd (heq ▸ h) (lt_irrefl _)

theorem nodup_keys (m : SortedMap κ ν) : m.keys.Nodup :=
  List.pairwise_map.mpr (m.sorted.imp ne_of_lt)

theorem ext_find? {m m' : SortedMap κ ν} (h : ∀ k, m.find? k = m'.find? k) : m = m' := by
  have hperm : m.entries.Perm m'.entries := by
    refine (List.perm_ext_iff_of_nodup m.nodup_entries m'.nodup_entries).mpr fun e => ⟨fun he => ?_, fun he => ?_⟩
    · exact mem_entries_of_find? ((h e.1).symm.trans (find?_of_mem_entries he))
    · exact mem_entries_of_find? ((h e.1).trans (find?_of_mem_entries he))
  exact ext (hperm.eq_of_pairwise (fun a b _ _ hab hba => absurd hab hba.asymm) m.sorted m'.sorted)

theorem lt_of_getLast? {m : SortedMap κ ν} {e f : κ × ν} (he : m.entries.getLast? = some e)
    (hf : f ∈ m.entries) (hne : f.1 ≠ e.1) : f.1 < e.1 := by
  obtain ⟨l, hl⟩ := List.getLast?_eq_some_iff.mp he
  rw [hl] at hf
  rcases List.mem_append.mp hf with hf | hf
  · have hsorted := m.sorted
    rw [hl, List.pairwise_append] at hsorted
    exact hsorted.2.2 f hf e List.mem_cons_self
  · exact absurd (congrArg Prod.fst (List.mem_singleton.mp hf)) hne

theorem insert_insert (m : SortedMap κ ν) (k : κ) (v w : ν) : (m.insert k v).insert k w = m.insert k w := by
  refine ext_find? fun j => ?_
  by_cases hj : j = k <;> simp [hj]

theorem length_insertEntries (k : κ) (v : ν) {l : List (κ × ν)}
    (hl : l.Pairwise (fun a b => a.1 < b.1)) :
    (insertEntries k v l).length = if k ∈ l.map Prod.fst then l.length else l.length + 1 := by
  induction l with
  | nil => simp [insertEntries]
  | cons p l ih =>
      obtain ⟨hp, hl⟩ := List.pairwise_cons.mp hl
      simp only [insertEntries]
      split
      · rename_i hlt
        have hk : k ∉ (p :: l).map Prod.fst := by
          simp only [List.map_cons, List.mem_cons, List.mem_map, not_or, not_exists, not_and]
          exact ⟨ne_of_lt hlt, fun e he h => absurd (hlt.trans (hp e he)) (by simp [h])⟩
        rw [if_neg hk]; rfl
      · split
        · rename_i heq
          simp [heq]
        · rename_i hne
          rw [List.length_cons, ih hl]
          by_cases hk : k ∈ l.map Prod.fst <;> simp_all

theorem size_insert (m : SortedMap κ ν) (k : κ) (v : ν) :
    (m.insert k v).size = if k ∈ m.keys then m.size else m.size + 1 :=
  length_insertEntries k v m.sorted

theorem insertEntries_perm {k : κ} {v : ν} {l : List (κ × ν)} (h : k ∉ l.map Prod.fst) :
    (insertEntries k v l).Perm ((k, v) :: l) := by
  induction l with
  | nil => exact .refl _
  | cons p l ih =>
      simp only [List.map_cons, List.mem_cons, not_or] at h
      simp only [insertEntries]
      split
      · exact .refl _
      · rw [if_neg h.1]
        exact ((ih h.2).cons p).trans (.swap _ _ _)

theorem entries_insert_perm {m : SortedMap κ ν} {k : κ} (v : ν) (h : k ∉ m.keys) :
    (m.insert k v).entries.Perm ((k, v) :: m.entries) := insertEntries_perm h

theorem insertEntries_of_gt {k : κ} {v : ν} {l : List (κ × ν)} (h : ∀ e ∈ l, e.1 < k) :
    insertEntries k v l = l ++ [(k, v)] := by
  induction l with
  | nil => rfl
  | cons p l ih =>
      have hp := h p List.mem_cons_self
      simp [insertEntries, not_lt.mpr hp.le, ne_of_gt hp, ih fun e he => h e (List.mem_cons_of_mem _ he)]

theorem entries_insert_of_gt {m : SortedMap κ ν} {k : κ} {v : ν} (h : ∀ j ∈ m.keys, j < k) :
    (m.insert k v).entries = m.entries ++ [(k, v)] :=
  insertEntries_of_gt fun e he => h e.1 (List.mem_map_of_mem he)

theorem mem_keys_insert {m : SortedMap κ ν} {k j : κ} {v : ν} :
    j ∈ (m.insert k v).keys ↔ j = k ∨ j ∈ m.keys := by
  rw [mem_keys_iff, mem_keys_iff, find?_insert]
  by_cases hj : j = k <;> simp [hj]

theorem head?_entries {m : SortedMap κ ν} {e : κ × ν} :
    m.entries.head? = some e ↔ m.find? e.1 = some e.2 ∧ ∀ j ∈ m.keys, e.1 ≤ j := by
  constructor
  · intro h
    refine ⟨find?_of_mem_entries (List.mem_of_mem_head? h), fun j hj => ?_⟩
    obtain ⟨l, hl⟩ := List.head?_eq_some_iff.mp h
    obtain ⟨f, hf, rfl⟩ := List.mem_map.mp hj
    rw [hl] at hf
    rcases List.mem_cons.mp hf with rfl | hf
    · exact le_refl _
    · have hsorted := m.sorted
      rw [hl] at hsorted
      exact (List.rel_of_pairwise_cons hsorted hf).le
  · rintro ⟨hfind, hle⟩
    have hmem := mem_entries_of_find? hfind
    cases hentries : m.entries with
    | nil =>
        rw [hentries] at hmem
        cases hmem
    | cons f l =>
        rw [List.head?_cons]
        have hf : f ∈ m.entries := hentries ▸ List.mem_cons_self
        have hfirst := hle f.1 (List.mem_map_of_mem hf)
        rw [hentries] at hmem
        rcases List.mem_cons.mp hmem with rfl | hmem
        · rfl
        · have hsorted := m.sorted
          rw [hentries] at hsorted
          exact absurd (List.rel_of_pairwise_cons hsorted hmem) (not_lt.mpr hfirst)

/-- Of several values for a key the last one stays. -/
theorem find?_foldl_insert (l : List (κ × ν)) (m : SortedMap κ ν) (k : κ) :
    (l.foldl (fun m e => m.insert e.1 e.2) m).find? k =
      ((l.filter fun e => decide (e.1 = k)).getLast?.map Prod.snd).or (m.find? k) := by
  induction l generalizing m with
  | nil => rfl
  | cons e l ih =>
      rw [List.foldl_cons, ih, find?_insert]
      by_cases he : e.1 = k
      · have hkept : (e :: l).filter (fun e => decide (e.1 = k)) = e :: l.filter (fun e => decide (e.1 = k)) :=
          List.filter_cons_of_pos (decide_eq_true he)
        rw [hkept, if_pos he.symm, List.getLast?_cons]
        cases (l.filter fun e => decide (e.1 = k)).getLast? <;> rfl
      · have hdropped : (e :: l).filter (fun e => decide (e.1 = k)) = l.filter (fun e => decide (e.1 = k)) :=
          List.filter_cons_of_neg (by simpa using he)
        rw [hdropped, if_neg (Ne.symm he)]

theorem mem_keys_foldl_insert {l : List (κ × ν)} {m : SortedMap κ ν} {k : κ} :
    k ∈ (l.foldl (fun m e => m.insert e.1 e.2) m).keys ↔ k ∈ l.map Prod.fst ∨ k ∈ m.keys := by
  induction l generalizing m with
  | nil => simp
  | cons e l ih =>
      rw [List.foldl_cons, ih, mem_keys_insert, List.map_cons, List.mem_cons]
      exact or_left_comm.trans or_assoc.symm

/-- A value that is overwritten later does not show. -/
theorem foldl_insert_inj {l : List (κ × ν)} {m : SortedMap κ ν} {k : κ} {v w : ν} :
    l.foldl (fun m e => m.insert e.1 e.2) (m.insert k v) = l.foldl (fun m e => m.insert e.1 e.2) (m.insert k w) ↔
      v = w ∨ k ∈ l.map Prod.fst := by
  constructor
  · intro h
    rw [or_iff_not_imp_right]
    intro hk
    have hnone : (l.filter fun e => decide (e.1 = k)).getLast? = none := by
      rw [List.getLast?_eq_none_iff, List.filter_eq_nil_iff]
      exact fun e he hkey => hk (of_decide_eq_true hkey ▸ List.mem_map_of_mem he)
    have hfind := congrArg (fun m => m.find? k) h
    rw [find?_foldl_insert, find?_foldl_insert, hnone, Option.map_none, Option.none_or, Option.none_or,
      find?_insert_self, find?_insert_self] at hfind
    exact Option.some.inj hfind
  · rintro (rfl | hk)
    · rfl
    refine ext_find? fun j => ?_
    rw [find?_foldl_insert, find?_foldl_insert]
    by_cases hj : j = k
    · obtain ⟨e, he, hkey⟩ := List.mem_map.mp hk
      have hmem : e ∈ l.filter fun e => decide (e.1 = j) := List.mem_filter.mpr ⟨he, decide_eq_true (hkey.trans hj.symm)⟩
      obtain ⟨f, hf⟩ := Option.ne_none_iff_exists'.mp (mt List.getLast?_eq_none_iff.mp (List.ne_nil_of_mem hmem))
      rw [hf, Option.map_some, Option.some_or, Option.some_or]
    · rw [find?_insert_of_ne m hj, find?_insert_of_ne m hj]

def mapValues {ω : Type*} (m : SortedMap κ ν) (f : ν → ω) : SortedMap κ ω :=
  ⟨m.entries.map fun e => (e.1, f e.2), by
    rw [List.pairwise_map]; exact m.sorted⟩

theorem lookupEntries_map {ω : Type*} (f : ν → ω) (k : κ) (l : List (κ × ν)) :
    lookupEntries k (l.map fun e => (e.1, f e.2)) = (lookupEntries k l).map f := by
  induction l with
  | nil => rfl
  | cons p l ih => by_cases hk : k = p.1 <;> simp [lookupEntries, hk, ih]

@[simp] theorem find?_mapValues {ω : Type*} (m : SortedMap κ ν) (f : ν → ω) (k : κ) :
    (m.mapValues f).find? k = (m.find? k).map f := lookupEntries_map f k m.entries

theorem mapValues_mapValues {ω ξ : Type*} (m : SortedMap κ ν) (f : ν → ω) (g : ω → ξ) :
    (m.mapValues f).mapValues g = m.mapValues (fun v => g (f v)) := by
  ext; simp [mapValues]

theorem size_mapValues {ω : Type*} (m : SortedMap κ ν) (f : ν → ω) : (m.mapValues f).size = m.size :=
  List.length_map _

/-- Overwriting a value shows only in what the new value differs. -/
theorem mapValues_insert {ω : Type*} {m : SortedMap κ ν} {f : ν → ω} {k : κ} {v : ν}
    (h : (m.mapValues f).find? k = some (f v)) : (m.insert k v).mapValues f = m.mapValues f := by
  refine ext_find? fun j => ?_
  by_cases hj : j = k
  · subst hj; rw [h]; simp
  · simp [hj]

def filter (m : SortedMap κ ν) (p : κ × ν → Bool) : SortedMap κ ν := ⟨m.entries.filter p, m.sorted.filter p⟩

theorem find?_filter (m : SortedMap κ ν) (p : κ × ν → Bool) (k : κ) :
    (m.filter p).find? k = (m.find? k).filter fun v => p (k, v) := by
  apply Option.ext
  intro v
  rw [Option.filter_eq_some_iff]
  constructor
  · intro h
    obtain ⟨hmem, hp⟩ := List.mem_filter.mp (mem_entries_of_find? h)
    exact ⟨find?_of_mem_entries hmem, hp⟩
  · rintro ⟨h, hp⟩
    exact find?_of_mem_entries (List.mem_filter.mpr ⟨mem_entries_of_find? h, hp⟩)

end SortedMap

end RadioServices.Lib

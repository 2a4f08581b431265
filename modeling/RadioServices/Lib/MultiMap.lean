import RadioServices.Lib.SortedMap
import Mathlib.Data.List.Induction

namespace RadioServices.Lib.SortedMap

universe u v

variable {κ : Type u} {ν : Type v} [LinearOrder κ]

theorem mem_entries_iff {m : SortedMap κ ν} {e : κ × ν} : e ∈ m.entries ↔ m.find? e.1 = some e.2 :=
  ⟨fun h => find?_of_mem_entries h, fun h => mem_entries_of_find? h⟩

theorem entries_insert_perm_filter (m : SortedMap κ ν) (k : κ) (v : ν) :
    (m.insert k v).entries.Perm ((k, v) :: m.entries.filter fun e => decide (e.1 ≠ k)) := by
  have hnodup : ((k, v) :: m.entries.filter fun e => decide (e.1 ≠ k)).Nodup :=
    List.nodup_cons.mpr ⟨by simp, m.nodup_entries.filter _⟩
  apply (List.perm_ext_iff_of_nodup (nodup_entries _) hnodup).mpr
  intro e
  rw [mem_entries_iff, find?_insert, List.mem_cons, List.mem_filter, mem_entries_iff]
  by_cases he : e.1 = k
  · simp [he, Prod.ext_iff, eq_comm]
  · simp [he, Prod.ext_iff]

theorem entries_perm_filter {m : SortedMap κ ν} {k : κ} {v : ν} (h : m.find? k = some v) :
    m.entries.Perm ((k, v) :: m.entries.filter fun e => decide (e.1 ≠ k)) := by
  have hself : m.insert k v = m := by
    refine ext_find? fun j => ?_
    rw [find?_insert]
    split
    · rename_i hj
      rw [hj, h]
    · rfl
  have hperm := entries_insert_perm_filter m k v
  rwa [hself] at hperm

theorem flatMap_entries {γ : Type*} (m : SortedMap κ ν) (k : κ) (f : κ × ν → List γ)
    (hf : ∀ e, e.1 ≠ k → f e = []) :
    m.entries.flatMap f = (m.find? k).elim [] fun v => f (k, v) := by
  obtain ⟨l, hl⟩ := m
  simp only [find?]
  induction l with
  | nil => rfl
  | cons e l ih =>
      obtain ⟨hlt, htail⟩ := List.pairwise_cons.mp hl
      obtain ⟨a, v⟩ := e
      by_cases ha : k = a
      · have hrest : l.flatMap f = [] :=
          List.flatMap_eq_nil_iff.mpr fun b hb => hf b (ha ▸ (hlt b hb).ne')
        simp [lookupEntries, ha, hrest]
      · rw [List.flatMap_cons, hf (a, v) (Ne.symm ha), List.nil_append, ih htail]
        simp [lookupEntries, ha]

def pushBack (m : SortedMap κ (List ν)) (k : κ) (v : ν) : SortedMap κ (List ν) :=
  m.insert k ((m.find? k).getD [] ++ [v])

theorem getD_find?_pushBack (m : SortedMap κ (List ν)) (k j : κ) (v : ν) :
    ((m.pushBack k v).find? j).getD [] = (m.find? j).getD [] ++ if k = j then [v] else [] := by
  rw [pushBack, find?_insert]
  by_cases hj : j = k
  · simp [hj]
  · simp [hj, Ne.symm hj]

def items (m : SortedMap κ (List ν)) : List (κ × ν) :=
  m.entries.flatMap fun e => e.2.map (Prod.mk e.1)

theorem map_snd_items (m : SortedMap κ (List ν)) : m.items.map Prod.snd = m.values.flatten := by
  simp [items, values, List.flatMap_def, Function.comp_def]

theorem items_pushBack_perm (m : SortedMap κ (List ν)) (k : κ) (v : ν) :
    (m.pushBack k v).items.Perm ((k, v) :: m.items) := by
  have hnew := (entries_insert_perm_filter m k ((m.find? k).getD [] ++ [v])).flatMap_right
    fun e => e.2.map (Prod.mk e.1)
  apply hnew.trans
  cases h : m.find? k with
  | none =>
      have hall : (m.entries.filter fun e => decide (e.1 ≠ k)) = m.entries := by
        apply List.filter_eq_self.mpr
        intro e he
        have hne : e.1 ≠ k := fun hk => find?_eq_none_iff.mp h (hk ▸ List.mem_map_of_mem he)
        simpa using hne
      rw [hall]
      exact .refl _
  | some w =>
      have hold := (entries_perm_filter h).flatMap_right fun e => e.2.map (Prod.mk e.1)
      refine List.Perm.trans ?_ (hold.symm.cons (k, v))
      simp only [Option.getD_some, List.flatMap_cons, List.map_append, List.map_cons, List.map_nil,
        List.append_assoc, List.cons_append, List.nil_append]
      exact List.perm_middle

def collect (l : List (κ × ν)) : SortedMap κ (List ν) :=
  l.foldl (fun m e => m.pushBack e.1 e.2) empty

@[simp] theorem collect_nil : collect ([] : List (κ × ν)) = empty := rfl

theorem collect_concat (l : List (κ × ν)) (e : κ × ν) :
    collect (l ++ [e]) = (collect l).pushBack e.1 e.2 := by
  simp [collect]

theorem items_collect_perm (l : List (κ × ν)) : (collect l).items.Perm l := by
  induction l using List.reverseRecOn with
  | nil => exact .refl _
  | append_singleton l e ih =>
      rw [collect_concat]
      exact (items_pushBack_perm _ _ _).trans ((ih.cons e).trans (List.perm_append_singleton e l).symm)

theorem getD_find?_collect (l : List (κ × ν)) (k : κ) :
    ((collect l).find? k).getD [] = l.flatMap fun e => if e.1 = k then [e.2] else [] := by
  induction l using List.reverseRecOn with
  | nil => rfl
  | append_singleton l e ih =>
      rw [collect_concat, getD_find?_pushBack, ih, List.flatMap_append]
      simp

end RadioServices.Lib.SortedMap

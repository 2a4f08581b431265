import RadioServices.Lib.SortedMap

namespace RadioServices.Lib.SortedMap

universe u v

variable {κ : Type u} {ν : Type v} [LinearOrder κ]

def erase (m : SortedMap κ ν) (k : κ) : SortedMap κ ν := m.filter fun e => decide (e.1 ≠ k)

/-- Give an entry another key. An entry that has this key already is replaced. -/
def rename (m : SortedMap κ ν) (k k' : κ) : SortedMap κ ν :=
  match m.find? k with
  | none => m
  | some v => (m.erase k).insert k' v

variable {m : SortedMap κ ν} {p r : List (κ × ν)} {k k' : κ} {v : ν}

theorem lt_of_mem_left (h : m.entries = p ++ (k, v) :: r) : ∀ e ∈ p, e.1 < k := by
  intro e he
  have hs := m.sorted
  rw [h, List.pairwise_append] at hs
  exact hs.2.2 e he (k, v) List.mem_cons_self

theorem lt_of_mem_right (h : m.entries = p ++ (k, v) :: r) : ∀ e ∈ r, k < e.1 := by
  intro e he
  have hs := m.sorted
  rw [h, List.pairwise_append, List.pairwise_cons] at hs
  exact hs.2.1.1 e he

theorem find?_of_entries (h : m.entries = p ++ (k, v) :: r) : m.find? k = some v :=
  find?_of_mem_entries (h ▸ List.mem_append_right p List.mem_cons_self)

theorem insertEntries_append (h : ∀ e ∈ p, e.1 < k) :
    insertEntries k v (p ++ r) = p ++ insertEntries k v r := by
  induction p with
  | nil => rfl
  | cons q p ih =>
      have hq := h q List.mem_cons_self
      rw [List.cons_append, insertEntries, if_neg (not_lt.mpr hq.le), if_neg (ne_of_gt hq),
        ih fun e he => h e (List.mem_cons_of_mem _ he), List.cons_append]

theorem insertEntries_of_lt (h : ∀ e ∈ r, k < e.1) : insertEntries k v r = (k, v) :: r := by
  cases r with
  | nil => rfl
  | cons q r => rw [insertEntries, if_pos (h q List.mem_cons_self)]

theorem entries_insert_between (h : m.entries = p ++ r) (hp : ∀ e ∈ p, e.1 < k) (hr : ∀ e ∈ r, k < e.1) :
    (m.insert k v).entries = p ++ (k, v) :: r := by
  calc (m.insert k v).entries = insertEntries k v (p ++ r) := congrArg (insertEntries k v) h
    _ = p ++ (k, v) :: r := by rw [insertEntries_append hp, insertEntries_of_lt hr]

theorem entries_insert_of_mem {w : ν} (h : m.entries = p ++ (k, v) :: r) :
    (m.insert k w).entries = p ++ (k, w) :: r := by
  calc (m.insert k w).entries = insertEntries k w (p ++ (k, v) :: r) := congrArg (insertEntries k w) h
    _ = p ++ insertEntries k w ((k, v) :: r) := insertEntries_append (lt_of_mem_left h)
    _ = p ++ (k, w) :: r := by rw [insertEntries, if_neg (lt_irrefl k), if_pos rfl]

theorem entries_erase (h : m.entries = p ++ (k, v) :: r) : (m.erase k).entries = p ++ r := by
  have hp : ∀ e ∈ p, decide (e.1 ≠ k) = true := fun e he => decide_eq_true (ne_of_lt (lt_of_mem_left h e he))
  have hr : ∀ e ∈ r, decide (e.1 ≠ k) = true := fun e he => decide_eq_true (ne_of_gt (lt_of_mem_right h e he))
  change m.entries.filter (fun e => decide (e.1 ≠ k)) = p ++ r
  rw [h, List.filter_append, List.filter_cons_of_neg (by simp), List.filter_eq_self.mpr hp,
    List.filter_eq_self.mpr hr]

theorem entries_rename (h : m.entries = p ++ (k, v) :: r) (hp : ∀ e ∈ p, e.1 < k')
    (hr : ∀ e ∈ r, k' < e.1) : (m.rename k k').entries = p ++ (k', v) :: r := by
  rw [rename, find?_of_entries h]
  exact entries_insert_between (entries_erase h) hp hr

theorem find?_erase_of_ne {j : κ} (h : j ≠ k) : (m.erase k).find? j = m.find? j := by
  rw [erase, find?_filter]
  cases m.find? j with
  | none => rfl
  | some v => exact Option.filter_some_pos (decide_eq_true h)

theorem find?_rename_of_ne {j : κ} (h : j ≠ k) (h' : j ≠ k') : (m.rename k k').find? j = m.find? j := by
  rw [rename]
  cases m.find? k with
  | none => rfl
  | some v =>
      dsimp only
      rw [find?_insert_of_ne _ h', find?_erase_of_ne h]

theorem find?_rename_self (m : SortedMap κ ν) (k j : κ) : (m.rename k k).find? j = m.find? j := by
  by_cases h : j = k
  · subst h
    rw [rename]
    cases hfind : m.find? j with
    | none => exact hfind
    | some v => exact find?_insert_self _ _ _
  · exact find?_rename_of_ne h h

end RadioServices.Lib.SortedMap

import RadioServices.Rotator.Playlist

namespace RadioServices.Rotator.Traversal

open TRotatorCtrl

/-- The indexes at which a folder is tried from where it stands until it has to
be rewound. -/
def visited (hf : THFolders) : List Nat :=
  if hf.index < arraySize hf.ht then hf.index :: visited (advanceFolder hf) else []
termination_by arraySize hf.ht - hf.index
decreasing_by
  have hle := le_searchNextHashIndex hf.ht (hf.index + 1)
  simp only [advanceFolder]
  omega

def pass (hf : THFolders) : List Nat := visited (resetFolder hf)

/-- Every record is visited once, in ascending order of the keys, and nothing else. -/
structure Complete (hf : THFolders) : Prop where
  ascending : (pass hf).Pairwise (· < ·)
  records : ∀ k : Nat, k ∈ pass hf ↔ zendHashIndexExists hf.ht k = true

section Scan

variable {ht : HashTable}

def recordsFrom (ht : HashTable) (i : Nat) : List Nat :=
  (List.range' i (arraySize ht - i)).filter fun k => zendHashIndexExists ht k

theorem recordsFrom_of_le {i : Nat} (h : arraySize ht ≤ i) : recordsFrom ht i = [] := by
  rw [recordsFrom, Nat.sub_eq_zero_of_le h]
  rfl

theorem recordsFrom_of_lt {i : Nat} (h : i < arraySize ht) :
    recordsFrom ht i =
      if zendHashIndexExists ht i = true then i :: recordsFrom ht (i + 1) else recordsFrom ht (i + 1) := by
  obtain ⟨n, hn⟩ := Nat.exists_eq_succ_of_ne_zero (Nat.sub_ne_zero_of_lt h)
  have hrest : arraySize ht - (i + 1) = n := by omega
  rw [recordsFrom, recordsFrom, hrest, hn, List.range'_succ, List.filter_cons]

/-- The walk stops at the first record left, or at the number of records. -/
theorem nextHashIndex_cases (fuel i : Nat) (hfuel : i + fuel = arraySize ht) :
    recordsFrom ht (nextHashIndex ht fuel i) = recordsFrom ht i ∧
      (nextHashIndex ht fuel i < arraySize ht →
        zendHashIndexExists ht (nextHashIndex ht fuel i) = true) := by
  induction fuel generalizing i with
  | zero =>
      refine ⟨rfl, fun hlt => ?_⟩
      rw [nextHashIndex] at hlt
      omega
  | succ fuel ih =>
      rw [nextHashIndex]
      split
      · rename_i hexists
        exact ⟨rfl, fun _ => hexists⟩
      · rename_i hno
        obtain ⟨hrecords, hexists⟩ := ih (i + 1) (by omega)
        refine ⟨?_, hexists⟩
        rw [hrecords, recordsFrom_of_lt (show i < arraySize ht by omega), if_neg hno]

theorem searchNextHashIndex_cases (ht : HashTable) (i : Nat) :
    recordsFrom ht (searchNextHashIndex ht i) = recordsFrom ht i ∧
      (searchNextHashIndex ht i < arraySize ht →
        zendHashIndexExists ht (searchNextHashIndex ht i) = true) := by
  by_cases hle : i ≤ arraySize ht
  · exact nextHashIndex_cases _ i (by omega)
  · have hsame : searchNextHashIndex ht i = i := by
      rw [searchNextHashIndex, Nat.sub_eq_zero_of_le (by omega), nextHashIndex]
    rw [hsame]
    exact ⟨rfl, fun hlt => absurd hlt (by omega)⟩

theorem visited_eq (hf : THFolders)
    (h : hf.index < arraySize hf.ht → zendHashIndexExists hf.ht hf.index = true) :
    visited hf = recordsFrom hf.ht hf.index := by
  induction hf using visited.induct with
  | case1 hf hlt ih =>
      obtain ⟨hrecords, hexists⟩ := searchNextHashIndex_cases hf.ht (hf.index + 1)
      rw [visited, if_pos hlt, ih hexists, recordsFrom_of_lt hlt, if_pos (h hlt)]
      exact congrArg (hf.index :: ·) hrecords
  | case2 hf hge => rw [visited, if_neg hge, recordsFrom_of_le (not_lt.mp hge)]

theorem pass_eq (hf : THFolders) : pass hf = recordsFrom hf.ht 0 := by
  obtain ⟨hrecords, hexists⟩ := searchNextHashIndex_cases hf.ht START_INDEX
  rw [pass, visited_eq _ hexists]
  exact hrecords

theorem mem_pass {hf : THFolders} {k : Nat} :
    k ∈ pass hf ↔ k < arraySize hf.ht ∧ zendHashIndexExists hf.ht k = true := by
  simp [pass_eq, recordsFrom, List.mem_range'_1]

theorem pass_ascending (hf : THFolders) : (pass hf).Pairwise (· < ·) := by
  rw [pass_eq, recordsFrom]
  exact List.Pairwise.filter _ List.pairwise_lt_range'

end Scan

/-- A pass is complete exactly when every key is below the number of records. -/
theorem pass_complete_iff (hf : THFolders) :
    Complete hf ↔ ∀ k : Nat, zendHashIndexExists hf.ht k = true → k < arraySize hf.ht := by
  constructor
  · intro h k hk
    exact (mem_pass.mp ((h.records k).mpr hk)).1
  · intro h
    refine ⟨pass_ascending hf, fun k => ?_⟩
    rw [mem_pass]
    exact and_iff_right_of_imp (h k)

/-- Of two records with the keys 0 and 2 the second is out of reach. -/
theorem gap_not_complete : ¬ ∀ hf : THFolders, (∀ e ∈ hf.ht, ∃ k : Nat, e.1 = .long k) →
    (hf.ht.map Prod.fst).Nodup → Complete hf := by
  intro h
  let ht : HashTable := [(.long 0, .array (trackRecord "x" "one" none)), (.long 2, .array (trackRecord "y" "two" none))]
  have hkeys : ∀ e ∈ ht, ∃ k : Nat, e.1 = .long k := by
    intro e he
    rcases List.mem_pair.mp he with rfl | rfl
    · exact ⟨0, rfl⟩
    · exact ⟨2, rfl⟩
  have hcomplete := h ⟨ht, 0, false, 1⟩ hkeys (by decide)
  have hmem := mem_pass.mp ((hcomplete.records 2).mpr rfl)
  exact absurd hmem.1 (by decide)

end RadioServices.Rotator.Traversal

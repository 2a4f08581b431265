import RadioServices.Lib.SortedMap

namespace RadioServices.Lib.SortedMap

universe u v

variable {κ : Type u} {ν : Type v} [LinearOrder κ]

/-- The next key of an endless iteration: after the last one, the first. -/
def successor (m : SortedMap κ ν) (k : κ) : Option κ := (m.upperBound k).or m.begin?

/-- How many keys an endless iteration at `k` still has to pass to reach `target`. -/
def roundDistance (m : SortedMap κ ν) (target k : κ) : Nat :=
  if k ≤ target then m.keys.countP fun j => k < j ∧ j ≤ target
  else (m.keys.countP fun j => k < j) + m.keys.countP fun j => j ≤ target

theorem countP_lt_countP {α : Type*} {p q : α → Bool} {l : List α} {x : α}
    (hpq : ∀ y ∈ l, p y = true → q y = true) (hx : x ∈ l) (hp : p x = false) (hq : q x = true) :
    l.countP p < l.countP q := by
  induction l with
  | nil => simp at hx
  | cons y l ih =>
      have hle : l.countP p ≤ l.countP q :=
        List.countP_mono_left fun z hz => hpq z (List.mem_cons_of_mem _ hz)
      rcases List.mem_cons.mp hx with rfl | hx
      · simp only [List.countP_cons, hp, hq, Bool.false_eq_true, if_false, if_true]
        omega
      · have hlt := ih (fun z hz => hpq z (List.mem_cons_of_mem _ hz)) hx
        have hy := hpq y List.mem_cons_self
        simp only [List.countP_cons]
        by_cases hpy : p y = true
        · simp only [hpy, hy hpy, if_true]
          omega
        · simp only [hpy, Bool.false_eq_true, if_false]
          omega

theorem upperBound_eq_none {m : SortedMap κ ν} {k : κ} (h : m.upperBound k = none) :
    ∀ j ∈ m.keys, j ≤ k := by
  intro j hj
  simpa using List.find?_eq_none.mp h j hj

theorem upperBound_le {m : SortedMap κ ν} {k j t : κ} (h : m.upperBound k = some j) (ht : t ∈ m.keys)
    (hlt : k < t) : j ≤ t := by
  obtain ⟨-, before, after, hkeys, hbefore⟩ := List.find?_eq_some_iff_append.mp h
  have hsorted : (before ++ j :: after).Pairwise (· < ·) := hkeys ▸ List.pairwise_map.mpr m.sorted
  rw [hkeys] at ht
  rcases List.mem_append.mp ht with ht | ht
  · have hno := hbefore t ht
    simp only [Bool.not_eq_true', decide_eq_false_iff_not] at hno
    exact absurd hlt hno
  · rcases List.mem_cons.mp ht with rfl | ht
    · exact le_rfl
    · exact (List.rel_of_pairwise_cons (List.pairwise_append.mp hsorted).2.1 ht).le

theorem begin?_le {m : SortedMap κ ν} {b t : κ} (h : m.begin? = some b) (ht : t ∈ m.keys) : b ≤ t := by
  obtain ⟨rest, hkeys⟩ := List.head?_eq_some_iff.mp h
  have hsorted : (b :: rest).Pairwise (· < ·) := hkeys ▸ List.pairwise_map.mpr m.sorted
  rw [hkeys] at ht
  rcases List.mem_cons.mp ht with rfl | ht
  · exact le_rfl
  · exact (List.rel_of_pairwise_cons hsorted ht).le

theorem roundDistance_successor {m : SortedMap κ ν} {target k j : κ} (ht : target ∈ m.keys)
    (hk : k ≠ target) (hj : m.successor k = some j) :
    m.roundDistance target j < m.roundDistance target k := by
  rw [successor] at hj
  cases hub : m.upperBound k with
  | some i =>
      rw [hub, Option.some_or, Option.some.injEq] at hj
      subst hj
      obtain ⟨hmem, hlt⟩ := upperBound_eq_some hub
      simp only [roundDistance]
      rcases lt_or_gt_of_ne hk with hbelow | habove
      · have hle := upperBound_le hub ht hbelow
        rw [if_pos hle, if_pos hbelow.le]
        refine countP_lt_countP (fun y _ hy => ?_) hmem (by simp) (by simp [hlt, hle])
        simp only [decide_eq_true_eq] at hy ⊢
        exact ⟨hlt.trans hy.1, hy.2⟩
      · rw [if_neg (not_le.mpr (habove.trans hlt)), if_neg (not_le.mpr habove)]
        refine Nat.add_lt_add_right (countP_lt_countP (fun y _ hy => ?_) hmem (by simp) (by simp [hlt])) _
        simp only [decide_eq_true_eq] at hy ⊢
        exact hlt.trans hy
  | none =>
      rw [hub, Option.none_or] at hj
      have habove : ¬ k ≤ target := not_le.mpr (lt_of_le_of_ne (upperBound_eq_none hub target ht) (Ne.symm hk))
      have hle := begin?_le hj ht
      have hmem : j ∈ m.keys := List.mem_of_mem_head? hj
      simp only [roundDistance]
      rw [if_pos hle, if_neg habove]
      refine Nat.lt_of_lt_of_le ?_ (Nat.le_add_left _ _)
      refine countP_lt_countP (fun y _ hy => ?_) hmem (by simp) (by simpa using hle)
      simp only [decide_eq_true_eq] at hy ⊢
      exact hy.2

theorem exists_successor {m : SortedMap κ ν} {k : κ} (hk : k ∈ m.keys) : ∃ j, m.successor k = some j := by
  rw [successor]
  cases m.upperBound k with
  | some j => exact ⟨j, rfl⟩
  | none =>
      obtain ⟨v, hv⟩ := mem_keys_iff.mp hk
      exact begin?_of_size (size_pos_of_find? hv)

end RadioServices.Lib.SortedMap

namespace RadioServices.Lib.RoundRobin

/-- How many turns there were since the latest one that was followed by a
restart, given for each turn so far whether it was. -/
def sinceRestart (turns : List Bool) : Nat :=
  turns.foldl (fun n restarted => if restarted then 0 else n + 1) 0

end RadioServices.Lib.RoundRobin

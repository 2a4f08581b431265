import Mathlib.Data.List.TakeWhile

namespace RadioServices.Lib.Cut

universe u

variable {α : Type u}

theorem drop_length_takeWhile (p : α → Bool) (s : List α) : s.drop (s.takeWhile p).length = s.dropWhile p := by
  calc s.drop (s.takeWhile p).length
      = (s.takeWhile p ++ s.dropWhile p).drop (s.takeWhile p).length := by rw [List.takeWhile_append_dropWhile]
    _ = s.dropWhile p := List.drop_left

theorem getD_length_append (a b : List α) (c d : α) : (a ++ c :: b).getD a.length d = c := by
  rw [List.getD_eq_getElem?_getD, List.getElem?_append_right (Nat.le_refl _), Nat.sub_self,
    List.getElem?_cons_zero, Option.getD_some]

theorem exists_cut (p : α → Prop) (s : List α) :
    ∃ a b, s = a ++ b ∧ (∀ x ∈ a, ¬ p x) ∧ (b = [] ∨ ∃ c t, b = c :: t ∧ p c) := by
  induction s with
  | nil => exact ⟨[], [], rfl, fun _ h => (nomatch h), .inl rfl⟩
  | cons c s ih =>
      by_cases hc : p c
      · exact ⟨[], c :: s, rfl, fun _ h => (nomatch h), .inr ⟨c, s, rfl, hc⟩⟩
      · obtain ⟨a, b, rfl, ha, hb⟩ := ih
        refine ⟨c :: a, b, rfl, fun x hx => ?_, hb⟩
        rcases List.mem_cons.mp hx with rfl | hx
        · exact hc
        · exact ha x hx

variable [DecidableEq α] {c : α} {s a : List α}

theorem ne_of_not_mem (h : c ∉ s) : ∀ x ∈ s, decide (x ≠ c) = true := by
  intro x hx
  have hne : x ≠ c := fun heq => h (heq ▸ hx)
  exact decide_eq_true hne

theorem takeWhile_ne_append (h : c ∉ a) (b : List α) : (a ++ c :: b).takeWhile (· ≠ c) = a := by
  rw [List.takeWhile_append_of_pos (ne_of_not_mem h), List.takeWhile_cons_of_neg (by simp), List.append_nil]

theorem dropWhile_ne_append (h : c ∉ a) (b : List α) : (a ++ c :: b).dropWhile (· ≠ c) = c :: b := by
  rw [List.dropWhile_append_of_pos (ne_of_not_mem h), List.dropWhile_cons_of_neg (by simp)]

theorem takeWhile_ne_of_not_mem (h : c ∉ s) : s.takeWhile (· ≠ c) = s :=
  List.takeWhile_eq_self_iff.mpr (ne_of_not_mem h)

theorem dropWhile_ne_of_not_mem (h : c ∉ s) : s.dropWhile (· ≠ c) = [] :=
  List.dropWhile_eq_nil_iff.mpr (ne_of_not_mem h)

theorem not_mem_takeWhile_ne (c : α) (s : List α) : c ∉ s.takeWhile (· ≠ c) := by
  intro hmem
  have hne := List.mem_takeWhile_imp hmem
  exact absurd rfl (of_decide_eq_true hne)

theorem le_length_takeWhile_ne {n : Nat} (h : n ≤ s.length) :
    n ≤ (s.takeWhile (· ≠ c)).length ↔ c ∉ s.take n := by
  constructor
  · intro hn hmem
    have hleading : s.take n <+: s.takeWhile (· ≠ c) := by
      refine List.prefix_of_prefix_length_le (List.take_prefix _ _) (List.takeWhile_prefix _) ?_
      rwa [List.length_take_of_le h]
    exact not_mem_takeWhile_ne c s (hleading.subset hmem)
  · intro hmem
    rw [← List.take_append_drop n s, List.takeWhile_append_of_pos (ne_of_not_mem hmem), List.length_append,
      List.length_take_of_le h]
    exact Nat.le_add_right _ _

theorem length_takeWhile_ne_eq : (s.takeWhile (· ≠ c)).length = s.length ↔ c ∉ s := by
  constructor
  · intro h
    rw [← (List.takeWhile_prefix _).eq_of_length h]
    exact not_mem_takeWhile_ne c s
  · intro h
    rw [takeWhile_ne_of_not_mem h]

theorem length_takeWhile_ne_lt : (s.takeWhile (· ≠ c)).length < s.length ↔ c ∈ s := by
  have hle := (List.takeWhile_sublist (fun x => decide (x ≠ c)) (l := s)).length_le
  rw [Nat.lt_iff_le_and_ne, ne_eq, length_takeWhile_ne_eq, not_not]
  exact and_iff_right hle

end RadioServices.Lib.Cut

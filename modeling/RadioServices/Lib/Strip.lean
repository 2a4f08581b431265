import Mathlib.Data.List.DropRight

namespace RadioServices.Lib.Strip

universe u

variable {α : Type u} {p : α → Bool} {s t : List α}

theorem dropWhile_append_of_all (h : ∀ c ∈ s, p c = true) (t : List α) : (s ++ t).dropWhile p = t.dropWhile p :=
  List.dropWhile_append_of_pos h

theorem rdropWhile_append_of_all (s : List α) (h : ∀ c ∈ t, p c = true) : (s ++ t).rdropWhile p = s.rdropWhile p := by
  rw [List.rdropWhile, List.rdropWhile, List.reverse_append, dropWhile_append_of_all]
  exact fun c hc => h c (List.mem_reverse.mp hc)

/-- Nothing is to be stripped off in front. -/
def Begins (p : α → Bool) (s : List α) : Prop := ∀ c ∈ s.head?, p c = false

/-- Nothing is to be stripped off at the end. -/
def Ends (p : α → Bool) (s : List α) : Prop := ∀ c ∈ s.getLast?, p c = false

instance (p : α → Bool) (s : List α) : Decidable (Begins p s) := inferInstanceAs (Decidable (∀ c ∈ s.head?, _))

instance (p : α → Bool) (s : List α) : Decidable (Ends p s) := inferInstanceAs (Decidable (∀ c ∈ s.getLast?, _))

theorem begins_cons {c : α} : Begins p (c :: s) ↔ p c = false := by simp [Begins]

theorem ends_concat {c : α} : Ends p (s ++ [c]) ↔ p c = false := by simp [Ends]

theorem ends_append (ht : t ≠ []) : Ends p (s ++ t) ↔ Ends p t := by
  rw [Ends, Ends, List.getLast?_append_of_ne_nil _ ht]

theorem begins_append (hs : s ≠ []) : Begins p (s ++ t) ↔ Begins p s := by
  rw [Begins, Begins, List.head?_append_of_ne_nil _ hs]

theorem dropWhile_eq_self (h : Begins p s) : s.dropWhile p = s := by
  cases s with
  | nil => rfl
  | cons c s => rw [List.dropWhile_cons_of_neg (by simpa using begins_cons.mp h)]

theorem rdropWhile_eq_self (h : Ends p s) : s.rdropWhile p = s := by
  induction s using List.reverseRecOn with
  | nil => rfl
  | append_singleton s c _ => exact List.rdropWhile_concat_neg p s c (by simpa using ends_concat.mp h)

theorem begins_dropWhile (p : α → Bool) (s : List α) : Begins p (s.dropWhile p) := by
  induction s with
  | nil => exact fun c hc => (nomatch hc)
  | cons c s ih =>
      by_cases hc : p c = true
      · rwa [List.dropWhile_cons_of_pos hc]
      · rw [List.dropWhile_cons_of_neg hc, begins_cons]
        exact Bool.eq_false_iff.mpr hc

theorem ends_rdropWhile (p : α → Bool) (s : List α) : Ends p (s.rdropWhile p) := by
  induction s using List.reverseRecOn with
  | nil => exact fun c hc => (nomatch hc)
  | append_singleton s c ih =>
      by_cases hc : p c = true
      · rwa [List.rdropWhile_concat_pos p s c hc]
      · rw [List.rdropWhile_concat_neg p s c hc, ends_concat]
        exact Bool.eq_false_iff.mpr hc

theorem rdropWhile_append_cons (s : List α) {c : α} (hc : p c = false) (t : List α) :
    (s ++ c :: t).rdropWhile p = s ++ c :: t.rdropWhile p := by
  induction t using List.reverseRecOn with
  | nil => exact List.rdropWhile_concat_neg p s c (Bool.eq_false_iff.mp hc)
  | append_singleton t d ih =>
      have hassoc : s ++ c :: (t ++ [d]) = (s ++ c :: t) ++ [d] := by simp
      rw [hassoc]
      by_cases hd : p d = true
      · rw [List.rdropWhile_concat_pos p _ d hd, List.rdropWhile_concat_pos p _ d hd, ih]
      · rw [List.rdropWhile_concat_neg p _ d hd, List.rdropWhile_concat_neg p _ d hd, hassoc]

theorem rdropWhile_append_of_ends {s : List α} (hs : s ≠ []) (h : Ends p s) (t : List α) :
    (s ++ t).rdropWhile p = s ++ t.rdropWhile p := by
  obtain ⟨s, c, rfl⟩ := (List.eq_nil_or_concat' s).resolve_left hs
  rw [List.append_assoc, List.singleton_append, rdropWhile_append_cons s (ends_concat.mp h), List.append_assoc,
    List.singleton_append]

theorem exists_rdropWhile_append (p : α → Bool) (s : List α) :
    ∃ t, s = s.rdropWhile p ++ t ∧ ∀ c ∈ t, p c = true :=
  ⟨s.rtakeWhile p, List.rdropWhile_append_rtakeWhile.symm, fun _ hc => List.mem_rtakeWhile_imp hc⟩

theorem exists_append_dropWhile (p : α → Bool) (s : List α) :
    ∃ t, s = t ++ s.dropWhile p ∧ ∀ c ∈ t, p c = true :=
  ⟨s.takeWhile p, List.takeWhile_append_dropWhile.symm, fun _ hc => List.mem_takeWhile_imp hc⟩

end RadioServices.Lib.Strip

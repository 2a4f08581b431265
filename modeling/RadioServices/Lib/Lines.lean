import Mathlib.Data.List.Basic

namespace RadioServices.Lib.Lines

universe u

variable {α : Type u} [DecidableEq α]

theorem not_mem_of_mem_splitOn {sep : α} {s piece : List α} (h : piece ∈ s.splitOn sep) : sep ∉ piece := by
  induction s generalizing piece with
  | nil =>
      rw [List.splitOn_nil, List.mem_singleton] at h
      rw [h]
      exact List.not_mem_nil
  | cons a s ih =>
      rw [List.splitOn_cons_eq_if_modifyHead] at h
      split at h
      · rcases List.mem_cons.mp h with rfl | h
        · exact List.not_mem_nil
        · exact ih h
      · rename_i ha
        cases hsplit : s.splitOn sep with
        | nil => exact absurd hsplit (List.splitOn_ne_nil sep s)
        | cons first rest =>
            rw [hsplit] at h ih
            rcases List.mem_cons.mp h with rfl | h
            · rw [List.mem_cons, not_or]
              exact ⟨fun heq => ha (by simp [heq]), ih List.mem_cons_self⟩
            · exact ih (List.mem_cons_of_mem _ h)

/-- What a loop over `getline` reads: the pieces, without an empty last one. -/
def lines (sep : α) (s : List α) : List (List α) :=
  let pieces := s.splitOn sep
  if pieces.getLast? = some [] then pieces.dropLast else pieces

def terminated (sep : α) (xs : List (List α)) : List α := xs.flatMap fun x => x ++ [sep]

variable {sep : α}

omit [DecidableEq α] in
theorem terminated_cons (x : List α) (xs : List (List α)) :
    terminated sep (x :: xs) = x ++ sep :: terminated sep xs := by
  simp [terminated]

@[simp] theorem lines_nil : lines sep [] = [] := by
  simp [lines, List.splitOn_nil]

theorem not_mem_of_mem_lines {s line : List α} (h : line ∈ lines sep s) : sep ∉ line := by
  simp only [lines] at h
  split at h
  · exact not_mem_of_mem_splitOn (List.dropLast_subset _ h)
  · exact not_mem_of_mem_splitOn h

theorem lines_append_cons {line : List α} (h : sep ∉ line) (s : List α) :
    lines sep (line ++ sep :: s) = line :: lines sep s := by
  have hne := List.splitOn_ne_nil sep s
  simp only [lines, List.splitOn_append_cons_self_of_not_mem h]
  rw [List.getLast?_cons_of_ne_nil hne, List.dropLast_cons_of_ne_nil hne]
  split <;> rfl

theorem lines_terminated_append {xs : List (List α)} (h : ∀ x ∈ xs, sep ∉ x) (s : List α) :
    lines sep (terminated sep xs ++ s) = xs ++ lines sep s := by
  induction xs with
  | nil => rfl
  | cons x xs ih =>
      have htail := ih fun y hy => h y (List.mem_cons_of_mem _ hy)
      rw [terminated_cons, List.append_assoc, List.cons_append, lines_append_cons (h x List.mem_cons_self),
        htail, List.cons_append]

/-- Terminated lines are read back if and only if none holds the terminator. -/
theorem lines_terminated_iff (xs : List (List α)) :
    lines sep (terminated sep xs) = xs ↔ ∀ x ∈ xs, sep ∉ x := by
  constructor
  · intro h x hx
    exact not_mem_of_mem_lines (h.symm ▸ hx)
  · intro h
    have hlines := lines_terminated_append h []
    rwa [List.append_nil, lines_nil, List.append_nil] at hlines

theorem count_terminated {xs : List (List α)} (h : ∀ x ∈ xs, sep ∉ x) :
    (terminated sep xs).count sep = xs.length := by
  induction xs with
  | nil => rfl
  | cons x xs ih =>
      rw [terminated_cons, List.count_append, List.count_eq_zero.mpr (h x List.mem_cons_self),
        List.count_cons_self, ih fun y hy => h y (List.mem_cons_of_mem _ hy), List.length_cons, Nat.zero_add]

theorem lines_of_not_mem {s : List α} (h : sep ∉ s) : lines sep s = if s = [] then [] else [s] := by
  simp only [lines, List.splitOn_eq_singleton h, List.getLast?_singleton, Option.some.injEq]
  split <;> rfl

theorem terminated_lines {s : List α} (h : s.count sep = (lines sep s).length) :
    terminated sep (lines sep s) = s := by
  induction hn : s.length using Nat.strongRecOn generalizing s with
  | ind n ih =>
      by_cases hs : sep ∈ s
      · obtain ⟨line, rest, rfl, hline⟩ := List.eq_append_cons_of_mem hs
        rw [lines_append_cons hline, List.count_append, List.count_eq_zero.mpr hline, List.count_cons_self,
          List.length_cons] at h
        have hlt : rest.length < n := by rw [← hn, List.length_append, List.length_cons]; omega
        have hrest := ih rest.length hlt (by omega) rfl
        rw [lines_append_cons hline, terminated_cons, hrest]
      · rw [lines_of_not_mem hs, List.count_eq_zero.mpr hs] at h
        have hnil : s = [] := by
          by_contra hne
          rw [if_neg hne] at h
          cases h
        rw [hnil, lines_nil]
        rfl

theorem count_le_length_lines (sep : α) (s : List α) : s.count sep ≤ (lines sep s).length := by
  induction hn : s.length using Nat.strongRecOn generalizing s with
  | ind n ih =>
      by_cases hs : sep ∈ s
      · obtain ⟨line, rest, rfl, hline⟩ := List.eq_append_cons_of_mem hs
        have hlt : rest.length < n := by rw [← hn, List.length_append, List.length_cons]; omega
        have hrest := ih rest.length hlt rest rfl
        rw [lines_append_cons hline, List.count_append, List.count_eq_zero.mpr hline, List.count_cons_self,
          List.length_cons]
        omega
      · rw [List.count_eq_zero.mpr hs]
        exact Nat.zero_le _

theorem subset_of_mem_lines {s line : List α} (h : line ∈ lines sep s) : line ⊆ s := by
  induction hn : s.length using Nat.strongRecOn generalizing s with
  | ind n ih =>
      by_cases hs : sep ∈ s
      · obtain ⟨first, rest, rfl, hfirst⟩ := List.eq_append_cons_of_mem hs
        rw [lines_append_cons hfirst] at h
        rcases List.mem_cons.mp h with rfl | h
        · exact List.subset_append_left _ _
        · have hlt : rest.length < n := by rw [← hn, List.length_append, List.length_cons]; omega
          have hrest := ih rest.length hlt h rfl
          exact fun c hc => List.mem_append_right _ (List.mem_cons_of_mem _ (hrest hc))
      · rw [lines_of_not_mem hs] at h
        split at h
        · cases h
        · rw [List.mem_singleton.mp h]
          exact List.Subset.refl s

section Segments

/-- The lines of a text, each with the separator that ends it. -/
def segments (sep : α) : List α → List (List α)
  | [] => []
  | a :: s =>
      if a = sep then [a] :: segments sep s
      else match segments sep s with
        | [] => [[a]]
        | line :: rest => (a :: line) :: rest

theorem segments_sep (s : List α) : segments sep (sep :: s) = [sep] :: segments sep s := if_pos rfl

theorem segments_cons {a : α} {s line : List α} {rest : List (List α)} (ha : a ≠ sep)
    (h : segments sep s = line :: rest) : segments sep (a :: s) = (a :: line) :: rest := by
  rw [segments, if_neg ha, h]

theorem segments_ne_nil {s : List α} (h : s ≠ []) : ∃ line rest, segments sep s = line :: rest := by
  cases s with
  | nil => exact absurd rfl h
  | cons a s =>
      rw [segments]
      split
      · exact ⟨[a], segments sep s, rfl⟩
      · cases segments sep s with
        | nil => exact ⟨[a], [], rfl⟩
        | cons line rest => exact ⟨a :: line, rest, rfl⟩

theorem flatten_segments (s : List α) : (segments sep s).flatten = s := by
  induction s with
  | nil => rfl
  | cons a s ih =>
      rw [segments]
      split
      · rw [List.flatten_cons, ih, List.singleton_append]
      · cases hs : segments sep s with
        | nil =>
            rw [hs] at ih
            rw [← ih]
            rfl
        | cons line rest =>
            rw [hs, List.flatten_cons] at ih
            rw [List.flatten_cons, List.cons_append, ih]

theorem segments_append {p s line : List α} {rest : List (List α)} (hp : sep ∉ p)
    (h : segments sep s = line :: rest) : segments sep (p ++ s) = (p ++ line) :: rest := by
  induction p with
  | nil => exact h
  | cons a p ih =>
      rw [List.mem_cons, not_or] at hp
      exact segments_cons (Ne.symm hp.1) (ih hp.2)

end Segments

end RadioServices.Lib.Lines

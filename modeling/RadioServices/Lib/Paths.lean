import Mathlib.Data.List.Induction

namespace RadioServices.Lib.Paths

universe u

variable {α : Type u} [DecidableEq α]

def collapse (sep : α) : List α → List α
  | [] => []
  | [a] => [a]
  | a :: b :: s => if a = sep ∧ b = sep then collapse sep (b :: s) else a :: collapse sep (b :: s)

variable {sep : α}

theorem count_collapse {a : α} (ha : a ≠ sep) (s : List α) : (collapse sep s).count a = s.count a := by
  induction s with
  | nil => rfl
  | cons b s ih =>
      cases s with
      | nil => rfl
      | cons c s =>
          rw [collapse]
          split
          · rename_i hsep
            have hne : b ≠ a := fun heq => ha (heq ▸ hsep.1)
            rw [ih, List.count_cons_of_ne hne (l := c :: s)]
          · rw [List.count_cons, ih, ← List.count_cons]

theorem collapse_append_cons_cons (s t : List α) :
    collapse sep (s ++ sep :: sep :: t) = collapse sep (s ++ sep :: t) := by
  induction s with
  | nil => rw [List.nil_append, List.nil_append, collapse, if_pos ⟨rfl, rfl⟩]
  | cons a s ih =>
      cases s with
      | nil =>
          simp only [List.cons_append, List.nil_append] at ih ⊢
          rw [collapse, ih]
          conv_rhs => rw [collapse]
      | cons b s =>
          simp only [List.cons_append] at ih ⊢
          rw [collapse, ih]
          conv_rhs => rw [collapse]

theorem collapse_append_of_all {d : List α} (hd : ∀ c ∈ d, c = sep) (s t : List α) :
    collapse sep (s ++ sep :: (d ++ t)) = collapse sep (s ++ sep :: t) := by
  induction d with
  | nil => rfl
  | cons c d ih =>
      obtain rfl := hd c List.mem_cons_self
      rw [List.cons_append, collapse_append_cons_cons]
      exact ih fun e he => hd e (List.mem_cons_of_mem _ he)

section Below

variable {up dir path ext : List α}

def asDir (sep : α) (dir : List α) : List α := if dir.getLast? = some sep then dir else dir ++ [sep]

/-- The path leads from the directory on without the component `up`. -/
def Below (sep : α) (up dir path : List α) : Prop := ∃ rest, path = asDir sep dir ++ rest ∧ up ∉ rest.splitOn sep

/-- The path leads from the directory on, and only its last component may be `up`. -/
def LeadsBelow (sep : α) (up dir path : List α) : Prop :=
  ∃ rest, path = asDir sep dir ++ rest ∧ up ∉ (rest.splitOn sep).dropLast

theorem asDir_eq (dir : List α) : ∃ d, asDir sep dir = d ++ [sep] := by
  rw [asDir]
  split
  · rename_i hlast
    exact List.getLast?_eq_some_iff.mp hlast
  · exact ⟨dir, rfl⟩

theorem asDir_of_append (d : List α) : asDir sep (d ++ [sep]) = d ++ [sep] := by
  rw [asDir, if_pos List.getLast?_concat]

theorem splitOn_append (s : List α) : ∃ front last, s.splitOn sep = front ++ [last] ∧
    ∀ ext, sep ∉ ext → (s ++ ext).splitOn sep = front ++ [last ++ ext] := by
  induction s using List.reverseRecOn with
  | nil => exact ⟨[], [], List.splitOn_nil sep, fun ext hext => List.splitOn_eq_singleton hext⟩
  | append_singleton s a ih =>
      obtain ⟨front, last, hsplit, happend⟩ := ih
      by_cases ha : a = sep
      · subst ha
        refine ⟨front ++ [last], [], ?_, fun ext hext => ?_⟩
        · rw [List.splitOn_append_cons_self, hsplit, List.splitOn_nil]
        · rw [List.append_assoc, List.singleton_append, List.splitOn_append_cons_self, hsplit,
            List.splitOn_eq_singleton hext, List.nil_append]
      · refine ⟨front, last ++ [a], happend [a] (by simpa using Ne.symm ha), fun ext hext => ?_⟩
        have hcons : sep ∉ a :: ext := by
          rw [List.mem_cons, not_or]
          exact ⟨Ne.symm ha, hext⟩
        rw [List.append_assoc, List.singleton_append, happend _ hcons, List.append_assoc, List.singleton_append]

/-- A name that is not `up`, whatever stands in front of it, leads where its directory does. -/
theorem below_append (hext : sep ∉ ext) (hname : ∀ last, last ++ ext ≠ up) :
    Below sep up dir (path ++ ext) ↔ LeadsBelow sep up dir path := by
  obtain ⟨d, hd⟩ := @asDir_eq α _ sep dir
  constructor
  · rintro ⟨rest, hpath, hup⟩
    obtain ⟨m, hm, hrest⟩ : ∃ m, path = asDir sep dir ++ m ∧ rest = m ++ ext := by
      rcases List.append_eq_append_iff.mp hpath with ⟨m, hm, hrest⟩ | ⟨m, hm, hrest⟩
      · cases m using List.reverseRecOn with
        | nil => exact ⟨[], by rw [hm, List.append_nil, List.append_nil], hrest.symm⟩
        | append_singleton m a =>
            rw [hd, ← List.append_assoc] at hm
            have ha : sep = a := List.singleton_inj.mp (List.append_inj_right' hm rfl)
            refine absurd ?_ hext
            rw [hrest, ha]
            simp
      · exact ⟨m, hm, hrest⟩
    obtain ⟨front, last, hsplit, happend⟩ := @splitOn_append α _ sep m
    rw [hrest, happend ext hext] at hup
    refine ⟨m, hm, ?_⟩
    rw [hsplit, List.dropLast_concat]
    exact fun h => hup (List.mem_append_left _ h)
  · rintro ⟨m, rfl, hup⟩
    obtain ⟨front, last, hsplit, happend⟩ := @splitOn_append α _ sep m
    refine ⟨m ++ ext, List.append_assoc _ _ _, ?_⟩
    rw [hsplit, List.dropLast_concat] at hup
    rw [happend ext hext, List.mem_append, List.mem_singleton, not_or]
    exact ⟨hup, fun h => hname last h.symm⟩

theorem dropLast_splitOn_append (d s : List α) :
    ((d ++ [sep] ++ s).splitOn sep).dropLast = d.splitOn sep ++ (s.splitOn sep).dropLast := by
  rw [List.append_assoc, List.singleton_append, List.splitOn_append_cons_self,
    List.dropLast_append_of_ne_nil (List.splitOn_ne_nil sep s)]

theorem leadsBelow_iff {d : List α} :
    LeadsBelow sep up (d ++ [sep]) path ↔ ∃ rest, path = d ++ [sep] ++ rest ∧ up ∉ (rest.splitOn sep).dropLast := by
  rw [LeadsBelow, asDir_of_append]

theorem LeadsBelow.not_mem {d : List α} (h : LeadsBelow sep up (d ++ [sep]) path) (hup : up ∉ d.splitOn sep) :
    up ∉ (path.splitOn sep).dropLast := by
  obtain ⟨rest, rfl, hrest⟩ := leadsBelow_iff.mp h
  rw [dropLast_splitOn_append, List.mem_append, not_or]
  exact ⟨hup, hrest⟩

end Below

end RadioServices.Lib.Paths

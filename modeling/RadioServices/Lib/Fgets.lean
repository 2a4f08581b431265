import Mathlib.Data.List.Basic

namespace RadioServices.Lib.Fgets

universe u

variable {α : Type u} [DecidableEq α]

/-- What a call that stops behind a separator puts into a buffer with that
much room, and what it leaves of the stream. -/
def fgets (sep : α) : Nat → List α → List α × List α
  | 0, s => ([], s)
  | _ + 1, [] => ([], [])
  | room + 1, c :: s => if c = sep then ([c], s) else (c :: (fgets sep room s).1, (fgets sep room s).2)

def calls (sep : α) (room : Nat) : Nat → List α → List (List α)
  | 0, _ => []
  | n + 1, s => if s = [] then [] else (fgets sep room s).1 :: calls sep room n (fgets sep room s).2

/-- The buffers until the stream is over. Every call takes something. -/
def buffers (sep : α) (room : Nat) (s : List α) : List (List α) := calls sep room s.length s

variable {sep : α}

theorem fgets_append (room : Nat) (s : List α) : (fgets sep room s).1 ++ (fgets sep room s).2 = s := by
  induction room generalizing s with
  | zero => rfl
  | succ room ih =>
      cases s with
      | nil => rfl
      | cons c s =>
          rw [fgets]
          split
          · rfl
          · exact congrArg (c :: ·) (ih s)

theorem length_fgets_le (room : Nat) (s : List α) : (fgets sep room s).1.length ≤ room := by
  induction room generalizing s with
  | zero => exact Nat.le_refl 0
  | succ room ih =>
      cases s with
      | nil => exact Nat.zero_le _
      | cons c s =>
          rw [fgets]
          split
          · exact Nat.succ_le_succ (Nat.zero_le _)
          · exact Nat.succ_le_succ (ih s)

theorem fgets_sep (room : Nat) (s : List α) :
    sep ∉ (fgets sep room s).1 ∨ ∃ line, (fgets sep room s).1 = line ++ [sep] ∧ sep ∉ line := by
  induction room generalizing s with
  | zero => exact .inl List.not_mem_nil
  | succ room ih =>
      cases s with
      | nil => exact .inl List.not_mem_nil
      | cons c s =>
          rw [fgets]
          split
          · rename_i hc
            exact .inr ⟨[], congrArg (fun d => [d]) hc, List.not_mem_nil⟩
          · rename_i hc
            rcases ih s with hnot | ⟨line, hline, hnot⟩
            · exact .inl fun h => (List.mem_cons.mp h).elim (fun heq => hc heq.symm) hnot
            · refine .inr ⟨c :: line, congrArg (c :: ·) hline, ?_⟩
              exact fun h => (List.mem_cons.mp h).elim (fun heq => hc heq.symm) hnot

theorem length_rest_lt {room : Nat} {s : List α} (hroom : 0 < room) (hs : s ≠ []) :
    (fgets sep room s).2.length < s.length := by
  obtain ⟨room, rfl⟩ := Nat.exists_eq_add_one_of_ne_zero (Nat.ne_of_gt hroom)
  obtain ⟨c, s, rfl⟩ := List.exists_cons_of_ne_nil hs
  have happend := congrArg List.length (@fgets_append _ _ sep room s)
  rw [List.length_append] at happend
  have hle : (fgets sep room s).2.length ≤ s.length := by omega
  rw [fgets, List.length_cons]
  split
  · exact Nat.lt_succ_self _
  · exact Nat.lt_succ_of_le hle

theorem fgets_line {line : List α} (h : sep ∉ line) {room : Nat} (hroom : line.length < room) (s : List α) :
    fgets sep room (line ++ sep :: s) = (line ++ [sep], s) := by
  induction line generalizing room with
  | nil =>
      obtain ⟨room, rfl⟩ := Nat.exists_eq_add_one_of_ne_zero (Nat.ne_of_gt hroom)
      rw [List.nil_append, fgets, if_pos rfl, List.nil_append]
  | cons c line ih =>
      obtain ⟨room, rfl⟩ := Nat.exists_eq_add_one_of_ne_zero (Nat.ne_of_gt (Nat.zero_lt_of_lt hroom))
      rw [List.mem_cons, not_or] at h
      have hline := ih h.2 (Nat.lt_of_succ_lt_succ hroom)
      rw [List.cons_append, fgets, if_neg (Ne.symm h.1), hline, List.cons_append]

theorem fgets_of_not_mem {s : List α} (h : sep ∉ s) {room : Nat} (hroom : s.length ≤ room) :
    fgets sep room s = (s, []) := by
  induction s generalizing room with
  | nil => cases room <;> rfl
  | cons c s ih =>
      obtain ⟨room, rfl⟩ := Nat.exists_eq_add_one_of_ne_zero (Nat.ne_of_gt (Nat.lt_of_lt_of_le (Nat.succ_pos _) hroom))
      rw [List.mem_cons, not_or] at h
      rw [fgets, if_neg (Ne.symm h.1), ih h.2 (Nat.le_of_succ_le_succ hroom)]

theorem calls_eq {room : Nat} (hroom : 0 < room) {n m : Nat} {s : List α} (hn : s.length ≤ n) (hm : s.length ≤ m) :
    calls sep room n s = calls sep room m s := by
  induction n generalizing m s with
  | zero =>
      rw [List.length_eq_zero_iff.mp (Nat.le_zero.mp hn)]
      cases m <;> rfl
  | succ n ih =>
      by_cases hs : s = []
      · rw [hs]
        cases m <;> rfl
      · have hlt := @length_rest_lt _ _ sep room s hroom hs
        obtain ⟨m, rfl⟩ := Nat.exists_eq_add_one_of_ne_zero (n := m) (by omega)
        have hrest := @ih m (fgets sep room s).2 (by omega) (by omega)
        rw [calls, calls, if_neg hs, if_neg hs, hrest]

theorem buffers_of_ne_nil {room : Nat} (hroom : 0 < room) {s : List α} (hs : s ≠ []) :
    buffers sep room s = (fgets sep room s).1 :: buffers sep room (fgets sep room s).2 := by
  have hlt := @length_rest_lt _ _ sep room s hroom hs
  obtain ⟨n, hn⟩ := Nat.exists_eq_add_one_of_ne_zero (n := s.length) (by omega)
  have hrest := @calls_eq _ _ sep room hroom n _ (fgets sep room s).2 (by omega) (Nat.le_refl _)
  rw [buffers, hn, calls, if_neg hs, hrest, buffers]

theorem buffers_line {line : List α} (h : sep ∉ line) {room : Nat} (hroom : line.length < room) (s : List α) :
    buffers sep room (line ++ sep :: s) = (line ++ [sep]) :: buffers sep room s := by
  rw [buffers_of_ne_nil (Nat.zero_lt_of_lt hroom) (by simp), fgets_line h hroom]

theorem buffers_of_not_mem {s : List α} (h : sep ∉ s) (hs : s ≠ []) {room : Nat} (hroom : s.length ≤ room) :
    buffers sep room s = [s] := by
  have hpos : 0 < room := Nat.lt_of_lt_of_le (List.length_pos_iff.mpr hs) hroom
  rw [buffers_of_ne_nil hpos hs, fgets_of_not_mem h hroom]
  rfl

theorem flatten_buffers {room : Nat} (hroom : 0 < room) (s : List α) : (buffers sep room s).flatten = s := by
  induction hn : s.length using Nat.strongRecOn generalizing s with
  | ind n ih =>
      by_cases hs : s = []
      · rw [hs]
        rfl
      · rw [buffers_of_ne_nil hroom hs, List.flatten_cons, ih _ (hn ▸ length_rest_lt hroom hs) _ rfl, fgets_append]

theorem forall_mem_buffers {P : List α → Prop} {room : Nat} (hroom : 0 < room)
    (hcall : ∀ s, s ≠ [] → P (fgets sep room s).1) {s : List α} : ∀ b ∈ buffers sep room s, P b := by
  induction hn : s.length using Nat.strongRecOn generalizing s with
  | ind n ih =>
      by_cases hs : s = []
      · rw [hs]
        exact fun b hb => (nomatch hb)
      · rw [buffers_of_ne_nil hroom hs, List.forall_mem_cons]
        exact ⟨hcall s hs, ih _ (hn ▸ length_rest_lt hroom hs) rfl⟩

end RadioServices.Lib.Fgets

import RadioServices.Lib.CString
import RadioServices.Lib.Lines

namespace RadioServices.Accordion.Comment

open Lib Lib.C Lib.Lines

def COMMENT_MARKER : Str := ['#', '\t']

structure Ctime where
  text : Str
  line : '\n' ∉ text

def stime (rawtime : Ctime) : Str := (rawtime.text ++ ['\n']).replace '\n' ':'

/-- `find` from a position on, where `none` is `npos`. -/
def find (s : Str) (c : Char) (pos : Nat) : Option Nat :=
  if c ∈ s.drop pos then some (pos + (s.drop pos).idxOf c) else none

def insert (s : Str) (pos : Nat) (t : Str) : Str := s.take pos ++ (t ++ s.drop pos)

/-- The loop over the newlines. It is not over yet where the passes run out. -/
def markLines : Nat → Str → Option Nat → Option Str
  | 0, _, _ => none
  | _ + 1, ss, none => some ss
  | passes + 1, ss, some pos =>
      if pos < ss.length - 1 then
        let ss := insert ss (pos + 1) COMMENT_MARKER
        markLines passes ss (find ss '\n' (pos + COMMENT_MARKER.length))
      else some ss

def writeComment (passes : Nat) (rawtime : Ctime) (msg : Str) : Option Str :=
  let ss := COMMENT_MARKER ++ (stime rawtime ++ ([' ', ' '] ++ msg))
  markLines passes ss (find ss '\n' 0)

def marked : Str → Str
  | [] => []
  | c :: s => if c = '\n' ∧ s ≠ [] then c :: (COMMENT_MARKER ++ marked s) else c :: marked s

section Loop

variable {a s : Str} {c : Char}

theorem find_of_ne (h : c ≠ '\n') : find (a ++ c :: s) '\n' a.length = find (a ++ c :: s) '\n' (a.length + 1) := by
  have hdrop : (a ++ c :: s).drop (a.length + 1) = s := by
    rw [List.append_cons, List.drop_left' (by simp)]
  rw [find, find, List.drop_left, hdrop, List.idxOf_cons_ne s h]
  by_cases hs : '\n' ∈ s
  · rw [if_pos (List.mem_cons_of_mem c hs), if_pos hs, Nat.add_succ, Nat.succ_add]
  · rw [if_neg (List.not_mem_cons_of_ne_of_not_mem (Ne.symm h) hs), if_neg hs]

theorem find_newline (a s : Str) : find (a ++ '\n' :: s) '\n' a.length = some a.length := by
  rw [find, List.drop_left, if_pos List.mem_cons_self, List.idxOf_cons_self, Nat.add_zero]

theorem find_nil (a : Str) : find (a ++ []) '\n' a.length = none := by
  rw [find, List.drop_left, if_neg List.not_mem_nil]

theorem find_behind_marker (a s : Str) :
    find (insert (a ++ '\n' :: s) (a.length + 1) COMMENT_MARKER) '\n' (a.length + COMMENT_MARKER.length) =
      find ((a ++ '\n' :: COMMENT_MARKER) ++ s) '\n' (a ++ '\n' :: COMMENT_MARKER).length := by
  have hinsert : insert (a ++ '\n' :: s) (a.length + 1) COMMENT_MARKER = (a ++ ['\n', '#']) ++ '\t' :: s := by
    rw [insert, List.append_cons, List.take_left' (by simp), List.drop_left' (by simp)]
    simp [COMMENT_MARKER]
  have hlength : a.length + COMMENT_MARKER.length = (a ++ ['\n', '#']).length := by
    simp [COMMENT_MARKER]
  rw [hinsert, hlength, find_of_ne (by decide)]
  simp [COMMENT_MARKER]

theorem markLines_insert {passes : Nat} (hs : s ≠ []) :
    markLines (passes + 1) (a ++ '\n' :: s) (some a.length) =
      markLines passes ((a ++ '\n' :: COMMENT_MARKER) ++ s)
        (find ((a ++ '\n' :: COMMENT_MARKER) ++ s) '\n' (a ++ '\n' :: COMMENT_MARKER).length) := by
  have hpos := List.length_pos_iff.mpr hs
  have hlt : a.length < (a ++ '\n' :: s).length - 1 := by
    rw [List.length_append, List.length_cons]
    omega
  have hinsert : insert (a ++ '\n' :: s) (a.length + 1) COMMENT_MARKER = (a ++ '\n' :: COMMENT_MARKER) ++ s := by
    rw [insert, List.append_cons, List.take_left' (by simp), List.drop_left' (by simp)]
    simp [COMMENT_MARKER]
  rw [markLines, if_pos hlt]
  dsimp only
  rw [find_behind_marker, hinsert]

/-- As many passes as there are newlines, and one more, mark the rest of the text. -/
theorem markLines_eq (s : Str) {passes : Nat} (a : Str) (h : s.count '\n' < passes) :
    markLines passes (a ++ s) (find (a ++ s) '\n' a.length) = some (a ++ marked s) := by
  obtain ⟨passes, rfl⟩ := Nat.exists_eq_succ_of_ne_zero (Nat.ne_of_gt (Nat.zero_lt_of_lt h))
  induction s generalizing a passes with
  | nil =>
      rw [find_nil]
      rfl
  | cons c s ih =>
      by_cases hc : c = '\n'
      · subst hc
        rw [find_newline]
        rw [List.count_cons_self] at h
        by_cases hs : s = []
        · subst hs
          have hlast : ¬ a.length < (a ++ ['\n']).length - 1 := by simp
          rw [markLines, if_neg hlast]
          rfl
        · obtain ⟨passes, rfl⟩ := Nat.exists_eq_succ_of_ne_zero (n := passes) (by omega)
          have hrest := ih (a ++ '\n' :: COMMENT_MARKER) passes (by omega)
          rw [markLines_insert hs, hrest, marked, if_pos ⟨rfl, hs⟩, List.append_assoc, List.cons_append]
      · have hnext := ih (a ++ [c]) passes (by rwa [List.count_cons_of_ne hc] at h)
        have hfind := @find_of_ne a s c hc
        rw [List.length_append, List.length_singleton, ← List.append_cons, ← hfind] at hnext
        rw [hnext, marked, if_neg fun hcond => hc hcond.1, ← List.append_cons]

end Loop

section Lines

theorem segments_marked {s line : Str} {rest : List Str} (h : segments '\n' s = line :: rest) :
    segments '\n' (marked s) = line :: rest.map (COMMENT_MARKER ++ ·) := by
  induction s generalizing line rest with
  | nil => cases h
  | cons c s ih =>
      by_cases hs : s = []
      · subst hs
        have hmarked : marked [c] = [c] := if_neg fun hcond => hcond.2 rfl
        rw [hmarked, h]
        have hrest : rest = [] := by
          rw [segments] at h
          split at h <;> exact (List.cons.inj h).2.symm
        rw [hrest]
        rfl
      · obtain ⟨first, others, hseg⟩ := @segments_ne_nil _ _ '\n' s hs
        have hnext := ih hseg
        by_cases hc : c = '\n'
        · subst hc
          rw [segments_sep, hseg] at h
          obtain ⟨rfl, rfl⟩ := List.cons.inj h
          rw [marked, if_pos ⟨rfl, hs⟩, segments_sep, segments_append (by decide) hnext]
          rfl
        · rw [segments_cons hc hseg] at h
          obtain ⟨rfl, rfl⟩ := List.cons.inj h
          rw [marked, if_neg fun hcond => hc hcond.1, segments_cons hc hnext]

/-- Every line begins with a marker, and without the markers the lines are the text. -/
structure LinesMarked (block text : Str) : Prop where
  marker : ∀ line ∈ segments '\n' block, COMMENT_MARKER <+: line
  unmarked : ((segments '\n' block).map fun line => line.drop COMMENT_MARKER.length).flatten = text

theorem segments_block {text : Str} (h : text ≠ []) :
    segments '\n' (COMMENT_MARKER ++ marked text) = (segments '\n' text).map (COMMENT_MARKER ++ ·) := by
  obtain ⟨line, rest, hseg⟩ := @segments_ne_nil _ _ '\n' text h
  rw [segments_append (by decide) (segments_marked hseg), hseg, List.map_cons]

theorem linesMarked {text : Str} (h : text ≠ []) : LinesMarked (COMMENT_MARKER ++ marked text) text := by
  constructor
  · intro line hline
    rw [segments_block h] at hline
    obtain ⟨rest, -, rfl⟩ := List.mem_map.mp hline
    exact List.prefix_append _ _
  · rw [segments_block h, List.map_map]
    have hdrop : ((fun line : Str => line.drop COMMENT_MARKER.length) ∘ (COMMENT_MARKER ++ ·)) = id := by
      funext line
      exact List.drop_left
    rw [hdrop, List.map_id, flatten_segments]

end Lines

theorem stime_eq (rawtime : Ctime) : stime rawtime = rawtime.text ++ [':'] := by
  rw [stime, List.replace_append_right rawtime.line]
  rfl

theorem marked_marker (text : Str) : marked (COMMENT_MARKER ++ text) = COMMENT_MARKER ++ marked text := by
  have hhash : ¬ ('#' = '\n' ∧ '\t' :: text ≠ []) := fun h => absurd h.1 (by decide)
  have htab : ¬ ('\t' = '\n' ∧ text ≠ []) := fun h => absurd h.1 (by decide)
  rw [COMMENT_MARKER, List.cons_append, List.singleton_append, marked, if_neg hhash, marked, if_neg htab]
  rfl

def logged (rawtime : Ctime) (msg : Str) : Str := stime rawtime ++ ([' ', ' '] ++ msg)

theorem logged_ne_nil (rawtime : Ctime) (msg : Str) : logged rawtime msg ≠ [] := by
  rw [logged, stime_eq]
  simp

theorem count_logged (rawtime : Ctime) (msg : Str) :
    (COMMENT_MARKER ++ logged rawtime msg).count '\n' = msg.count '\n' := by
  have hmarker : COMMENT_MARKER.count '\n' = 0 := rfl
  have hcolon : [':'].count '\n' = 0 := rfl
  have hspaces : [' ', ' '].count '\n' = 0 := rfl
  rw [logged, stime_eq, List.count_append, List.count_append, List.count_append, List.count_append,
    List.count_eq_zero.mpr rawtime.line, hmarker, hcolon, hspaces]
  omega

/-- The loop ends, and the block has a marker in front of every line of what is logged. -/
theorem writeComment_linesMarked (rawtime : Ctime) (msg : Str) :
    ∃ block, (∀ passes, msg.count '\n' < passes → writeComment passes rawtime msg = some block) ∧
      LinesMarked block (logged rawtime msg) := by
  refine ⟨COMMENT_MARKER ++ marked (logged rawtime msg), ?_, linesMarked (logged_ne_nil rawtime msg)⟩
  intro passes hpasses
  rw [← count_logged rawtime msg] at hpasses
  have hloop := markLines_eq (COMMENT_MARKER ++ logged rawtime msg) [] hpasses
  rw [marked_marker] at hloop
  exact hloop

example : writeComment 4 ⟨"Thu Jan  1 00:00:00 1970".toList, by decide⟩ "a\n\nb\n".toList =
    some "#\tThu Jan  1 00:00:00 1970:  a\n#\t\n#\tb\n".toList := by decide

end RadioServices.Accordion.Comment

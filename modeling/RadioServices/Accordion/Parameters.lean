import RadioServices.Lib.CString
import Mathlib.Data.List.Infix
import Mathlib.Data.String.Basic

namespace RadioServices.Accordion

open Lib.C

abbrev Lplaylist := List Str

structure Tparameters where
  aacStreamtype : Bool
  playlistPath : Str
  newPlaylist : Bool
  playfileExists : Bool
  playlist : Lplaylist

def find (pat : Str) : Str → Option Str
  | [] => if pat = [] then some [] else none
  | c :: s => if pat.isPrefixOf (c :: s) then some (c :: s) else find pat s

/-- `none` where the code makes a string of a null pointer. -/
def getMetadataBegin (str : Str) : Option Str :=
  if str = [] then none else some ((find "finish".toList str).getD [])

def lineStarts : Str → List Str
  | [] => []
  | c :: s => if c = '\n' then s :: lineStarts s else lineStarts s

def getSubPath (mId : Int) : Str := (toString (mId.tdiv 10000)).toList

/-- `sscanf(s, "%[^|]%*c%[^|]", id, path)`: the identifier and the buffer of the
path, which keeps its content if nothing is read into it. -/
def sscanfTrack (s path : Str) : Option (Str × Str) :=
  let id := s.takeWhile (· ≠ '|')
  if id = [] then none
  else
    let rest := (s.dropWhile (· ≠ '|')).tail.takeWhile (· ≠ '|')
    some (id, if rest = [] then path else rest)

namespace Tparameters

def ext (p : Tparameters) : Str := if p.aacStreamtype then "aac".toList else "mp3".toList

def trackFile (p : Tparameters) (path id : Str) : Str :=
  p.playlistPath ++ '/' :: path ++ '/' :: getSubPath (atoi id) ++ '/' :: id ++ '.' :: p.ext

def readTrack (p : Tparameters) (fileExists : Str → Bool) (acc : Str × Lplaylist) (s : Str) :
    Str × Lplaylist :=
  match sscanfTrack s acc.1 with
  | none => acc
  | some (id, path) =>
      if atoi id ≠ 0 ∧ path ≠ [] ∧ fileExists (p.trackFile path id) then
        (path, acc.2 ++ [p.trackFile path id])
      else (path, acc.2)

def receive (p : Tparameters) (fileExists : Str → Bool) (mPlaylist : Str) : Option Lplaylist := do
  let s ← getMetadataBegin mPlaylist
  return (((lineStarts s).takeWhile (· ≠ [])).foldl (p.readTrack fileExists) ([], [])).2

/-- `none` where the code throws. -/
def setChangePlaylist (p : Tparameters) (fileExists : Str → Bool) (mPlaylist : Str) :
    Option Tparameters := do
  let pl ← p.receive fileExists mPlaylist
  if pl = [] then return { p with newPlaylist := false }
  else return { p with playlist := pl, newPlaylist := true, playfileExists := false }

def setNewPlaylist (p : Tparameters) (value : Bool) : Tparameters := { p with newPlaylist := value }

def getNewPlaylist (p : Tparameters) : Bool := p.newPlaylist && decide (p.playlist.length ≠ 0)

def updatePlaylist (p : Tparameters) (pl : Lplaylist) : Lplaylist × Tparameters :=
  (pl ++ p.playlist, p.setNewPlaylist false)

theorem setChangePlaylist_cases {p p' : Tparameters} {fileExists : Str → Bool} {mPlaylist : Str}
    (h : p.setChangePlaylist fileExists mPlaylist = some p') :
    (p.receive fileExists mPlaylist = some [] ∧ p' = { p with newPlaylist := false }) ∨
      ∃ pl, pl ≠ [] ∧ p.receive fileExists mPlaylist = some pl ∧
        p' = { p with playlist := pl, newPlaylist := true, playfileExists := false } := by
  simp only [setChangePlaylist, Option.bind_eq_bind, Option.bind_eq_some_iff] at h
  obtain ⟨pl, hpl, h⟩ := h
  split at h
  · rename_i hnil
    exact .inl ⟨hnil ▸ hpl, (Option.some.inj h).symm⟩
  · rename_i hne
    exact .inr ⟨pl, hne, hpl, (Option.some.inj h).symm⟩

end Tparameters

section Find

variable {pat a b : Str} {c : Char}

theorem isPrefixOf_append_cons (h : c ∉ pat) (a b : Str) : pat.isPrefixOf (a ++ c :: b) = pat.isPrefixOf a := by
  rw [Bool.eq_iff_iff, List.isPrefixOf_iff_prefix, List.isPrefixOf_iff_prefix]
  refine ⟨fun hpat => ?_, fun hpat => hpat.trans (List.prefix_append _ _)⟩
  by_cases hlength : pat.length ≤ a.length
  · exact List.prefix_of_prefix_length_le hpat (List.prefix_append _ _) hlength
  · have hlonger : a ++ [c] <+: a ++ c :: b := ⟨b, by rw [List.append_assoc, List.singleton_append]⟩
    have hmem : a ++ [c] <+: pat :=
      List.prefix_of_prefix_length_le hlonger hpat (by rw [List.length_append, List.length_singleton]; omega)
    exact absurd (hmem.subset (List.mem_append_right _ List.mem_cons_self)) h

theorem find_append_cons (h : c ∉ pat) (hne : pat ≠ []) (a b : Str) :
    find pat (a ++ c :: b) = match find pat a with
      | some t => some (t ++ c :: b)
      | none => find pat b := by
  induction a with
  | nil =>
      have hnot : pat.isPrefixOf (c :: b) = false := by
        rw [← List.nil_append (c :: b), isPrefixOf_append_cons h]
        cases pat with
        | nil => exact absurd rfl hne
        | cons d pat => rfl
      have hfirst : find pat (c :: b) = find pat b := by rw [find, hnot, if_neg Bool.false_ne_true]
      have hnone : find pat [] = none := by rw [find, if_neg hne]
      rw [List.nil_append, hfirst, hnone]
  | cons x a ih =>
      rw [List.cons_append, find, find, ← List.cons_append, isPrefixOf_append_cons h]
      by_cases hx : pat.isPrefixOf (x :: a) = true
      · rw [if_pos hx, if_pos hx]
      · rw [if_neg hx, if_neg hx, ih]

theorem find_suffix {t : Str} (h : find pat a = some t) : t <:+ a := by
  induction a with
  | nil =>
      rw [find] at h
      split at h
      · rw [← Option.some.inj h]
      · cases h
  | cons x a ih =>
      rw [find] at h
      split at h
      · rw [← Option.some.inj h]
      · exact (ih h).trans (List.suffix_cons _ _)

theorem prefix_of_find {t : Str} (h : find pat a = some t) : pat <+: t := by
  induction a with
  | nil =>
      rw [find] at h
      split at h
      · rename_i hnil
        rw [hnil]
        exact List.nil_prefix
      · cases h
  | cons x a ih =>
      rw [find] at h
      split at h
      · rename_i hx
        rw [← Option.some.inj h]
        exact List.isPrefixOf_iff_prefix.mp hx
      · exact ih h

theorem find_eq_none (hne : pat ≠ []) : find pat a = none ↔ ¬ pat <:+: a := by
  induction a with
  | nil =>
      rw [find, if_neg hne, List.infix_nil]
      exact iff_of_true rfl hne
  | cons x a ih =>
      rw [find, List.infix_cons_iff, ← List.isPrefixOf_iff_prefix]
      split
      · rename_i hx
        exact iff_of_false (fun h => nomatch h) fun h => h (.inl hx)
      · rename_i hx
        rw [ih, not_or]
        exact ⟨fun h => ⟨hx, h⟩, fun h => h.2⟩

end Find

end RadioServices.Accordion

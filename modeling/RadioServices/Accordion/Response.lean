import RadioServices.Lib.Lines
import RadioServices.Accordion.Parameters
import Mathlib.Data.List.Infix

namespace RadioServices.Accordion.Response

open Lib Lib.C

def PATH_MAX : Nat := 4096

def fieldSize : Nat := 100

def finish : Str := "finish".toList

def starts (mPlaylist : Str) : List Str := (lineStarts ((find finish mPlaylist).getD [])).takeWhile (· ≠ [])

def line (s : Str) : Str := s.takeWhile (· ≠ '\n')

def linesBehind (mPlaylist : Str) : List Str :=
  ((Lines.lines '\n' mPlaylist).dropWhile fun l => decide (¬ finish <:+: l)).tail

def ownFields (l : Str) : Option (Str × Str) :=
  match l.splitOn '|' with
  | id :: path :: _ => some (id, path)
  | _ => none

section Turns

variable (p : Tparameters) (fileExists : Str → Bool)

def Names (fields : Option (Str × Str)) : Prop :=
  ∃ id path, fields = some (id, path) ∧ atoi id ≠ 0 ∧ path ≠ [] ∧ fileExists (p.trackFile path id) = true

def entry (fields : Option (Str × Str)) : Option Str :=
  fields.bind fun (id, path) =>
    if atoi id ≠ 0 ∧ path ≠ [] ∧ fileExists (p.trackFile path id) = true then some (p.trackFile path id) else none

def Fits (fields : Option (Str × Str)) : Prop :=
  ∀ id path, fields = some (id, path) → id.length < fieldSize ∧ path.length < fieldSize ∧
    (atoi id ≠ 0 → path ≠ [] → (p.trackFile path id).length < PATH_MAX)

instance (fields : Option (Str × Str)) : Decidable (Fits p fields) :=
  match fields with
  | none => .isTrue fun _ _ h => nomatch h
  | some (id, path) => decidable_of_iff (id.length < fieldSize ∧ path.length < fieldSize ∧
      (atoi id ≠ 0 → path ≠ [] → (p.trackFile path id).length < PATH_MAX))
      ⟨fun h _ _ heq => by cases heq; exact h, fun h => h _ _ rfl⟩

/-- A turn of the loop: the buffer of the path, and what is added to the list. `none` where a write goes past its
buffer. -/
def turn (path s : Str) : Option (Str × Option Str) :=
  let fields := sscanfTrack s path
  if Fits p fields then some ((fields.map Prod.snd).getD path, entry p fileExists fields) else none

def turns : Str → List Str → Option (List (Option Str))
  | _, [] => some []
  | path, s :: ss => do
      let (path, e) ← turn p fileExists path s
      let es ← turns path ss
      return e :: es

end Turns

section Lines

variable {pat a b : Str} {c : Char}

theorem lineStarts_append (h : '\n' ∉ a) (b : Str) : lineStarts (a ++ '\n' :: b) = b :: lineStarts b := by
  induction a with
  | nil => rw [List.nil_append, lineStarts, if_pos rfl]
  | cons x a ih =>
      rw [List.mem_cons, not_or] at h
      rw [List.cons_append, lineStarts, if_neg (Ne.symm h.1), ih h.2]

theorem lineStarts_of_not_mem (h : '\n' ∉ a) : lineStarts a = [] := by
  induction a with
  | nil => rfl
  | cons x a ih =>
      rw [List.mem_cons, not_or] at h
      rw [lineStarts, if_neg (Ne.symm h.1), ih h.2]

theorem line_append (h : '\n' ∉ a) (b : Str) : line (a ++ '\n' :: b) = a := Cut.takeWhile_ne_append h b

theorem map_line (s : Str) : ((s :: lineStarts s).takeWhile (· ≠ [])).map line = Lines.lines '\n' s := by
  induction hn : s.length using Nat.strongRecOn generalizing s with
  | ind n ih =>
      by_cases hs : '\n' ∈ s
      · obtain ⟨a, b, rfl, ha⟩ := List.eq_append_cons_of_mem hs
        have hlt : b.length < n := by rw [← hn, List.length_append, List.length_cons]; omega
        rw [lineStarts_append ha, List.takeWhile_cons_of_pos (by simp), List.map_cons, line_append ha,
          Lines.lines_append_cons ha, ih b.length hlt b rfl]
      · rw [lineStarts_of_not_mem hs, Lines.lines_of_not_mem hs]
        by_cases hnil : s = []
        · rw [hnil, List.takeWhile_cons_of_neg (by simp), if_pos rfl, List.map_nil]
        · rw [List.takeWhile_cons_of_pos (by simpa using hnil), if_neg hnil, List.takeWhile_nil, List.map_singleton,
            line, Cut.takeWhile_ne_of_not_mem hs]

/-- The scans begin at the lines behind the one that contains `finish`. -/
theorem map_line_starts (mPlaylist : Str) : (starts mPlaylist).map line = linesBehind mPlaylist := by
  have hfinish : '\n' ∉ finish ∧ finish ≠ [] := by decide
  induction hn : mPlaylist.length using Nat.strongRecOn generalizing mPlaylist with
  | ind n ih =>
      by_cases hs : '\n' ∈ mPlaylist
      · obtain ⟨a, b, rfl, ha⟩ := List.eq_append_cons_of_mem hs
        have hlt : b.length < n := by rw [← hn, List.length_append, List.length_cons]; omega
        have hrest := ih b.length hlt b rfl
        rw [starts, linesBehind] at hrest ⊢
        rw [find_append_cons hfinish.1 hfinish.2, Lines.lines_append_cons ha]
        cases hfind : find finish a with
        | some t =>
            have ht : '\n' ∉ t := fun hmem => ha ((find_suffix hfind).subset hmem)
            have hmem : finish <:+: a := by
              by_contra hnot
              rw [(find_eq_none hfinish.2).mpr hnot] at hfind
              cases hfind
            rw [List.dropWhile_cons_of_neg (by simpa using hmem), List.tail_cons]
            dsimp only
            rw [Option.getD_some, lineStarts_append ht, map_line]
        | none =>
            have hmem := (find_eq_none hfinish.2).mp hfind
            rw [List.dropWhile_cons_of_pos (by simpa using hmem)]
            exact hrest
      · have hstarts : lineStarts ((find finish mPlaylist).getD []) = [] := by
          cases hfind : find finish mPlaylist with
          | none => rfl
          | some t => exact lineStarts_of_not_mem fun hmem => hs ((find_suffix hfind).subset hmem)
        rw [starts, hstarts, linesBehind, Lines.lines_of_not_mem hs]
        split
        · rfl
        · rw [List.dropWhile_cons]
          split <;> rfl

end Lines

section Scans

/-- What a scan reads behind the first separator, up to the second one. Neither ends at a line end. -/
def scannedPath (s : Str) : Str := (s.dropWhile (· ≠ '|')).tail.takeWhile (· ≠ '|')

/-- The path that is left in the buffer by scans from these positions. -/
def leftover : Str → List Str → Str
  | path, [] => path
  | path, s :: ss =>
      leftover (if s.takeWhile (· ≠ '|') = [] ∨ scannedPath s = [] then path else scannedPath s) ss

/-- A scan that ends inside its line: at its second separator, or at the end of the response. -/
def Contained (s : Str) : Prop :=
  ∃ id path rest, path ≠ [] ∧ '|' ∉ id ++ path ∧ '\n' ∉ id ++ path ∧
    (s = id ++ '|' :: (path ++ '|' :: rest) ∨ s = id ++ '|' :: path)

variable {p : Tparameters} {fileExists : Str → Bool} {path s : Str}

theorem sscanfTrack_eq (s path : Str) : sscanfTrack s path =
    if s.takeWhile (· ≠ '|') = [] then none
    else some (s.takeWhile (· ≠ '|'), if scannedPath s = [] then path else scannedPath s) := rfl

theorem buffer_eq (s path : Str) : ((sscanfTrack s path).map Prod.snd).getD path =
    if s.takeWhile (· ≠ '|') = [] ∨ scannedPath s = [] then path else scannedPath s := by
  rw [sscanfTrack_eq]
  by_cases hid : s.takeWhile (· ≠ '|') = []
  · rw [if_pos hid, if_pos (.inl hid)]
    rfl
  · rw [if_neg hid, Option.map_some, Option.getD_some]
    simp only [hid, false_or]

theorem isSome_entry (fields : Option (Str × Str)) :
    (entry p fileExists fields).isSome = true ↔ Names p fileExists fields := by
  cases fields with
  | none => exact ⟨fun h => (nomatch h), fun ⟨_, _, h, _⟩ => (nomatch h)⟩
  | some f =>
      obtain ⟨id, path⟩ := f
      rw [entry, Option.bind_some]
      dsimp only
      split
      · rename_i h
        exact iff_of_true rfl ⟨id, path, rfl, h⟩
      · rename_i h
        refine iff_of_false (fun h => nomatch h) ?_
        rintro ⟨_, _, heq, hnames⟩
        cases heq
        exact h hnames

theorem entry_eq_some {fields : Option (Str × Str)} {f : Str} (h : entry p fileExists fields = some f) :
    ∃ id path, fields = some (id, path) ∧ atoi id ≠ 0 ∧ path ≠ [] ∧ f = p.trackFile path id := by
  obtain ⟨⟨id, path⟩, rfl, hadded⟩ := Option.bind_eq_some_iff.mp h
  dsimp only at hadded
  split at hadded
  · rename_i hnames
    exact ⟨id, path, rfl, hnames.1, hnames.2.1, (Option.some.inj hadded).symm⟩
  · cases hadded

theorem ownFields_append {id : Str} (h : '|' ∉ id) (r : Str) :
    ownFields (id ++ '|' :: r) = some (id, r.takeWhile (· ≠ '|')) := by
  rw [ownFields, List.splitOn_append_cons_self_of_not_mem h]
  by_cases hr : '|' ∈ r
  · obtain ⟨path, rest, rfl, hpath⟩ := List.eq_append_cons_of_mem hr
    rw [List.splitOn_append_cons_self_of_not_mem hpath, Cut.takeWhile_ne_append hpath]
  · rw [List.splitOn_eq_singleton hr, Cut.takeWhile_ne_of_not_mem hr]

theorem ownFields_of_not_mem {l : Str} (h : '|' ∉ l) : ownFields l = none := by
  rw [ownFields, List.splitOn_eq_singleton h]

theorem sscanfTrack_append {id : Str} (h : '|' ∉ id) (hne : id ≠ []) {r : Str} (hr : r.takeWhile (· ≠ '|') ≠ [])
    (path : Str) : sscanfTrack (id ++ '|' :: r) path = some (id, r.takeWhile (· ≠ '|')) := by
  have hscanned : scannedPath (id ++ '|' :: r) = r.takeWhile (· ≠ '|') := by
    rw [scannedPath, Cut.dropWhile_ne_append h, List.tail_cons]
  rw [sscanfTrack_eq, hscanned, Cut.takeWhile_ne_append h, if_neg hne, if_neg hr]

/-- A track of the same identifier is named by one path alone. -/
theorem trackFile_injective {id path path' : Str} (h : p.trackFile path id = p.trackFile path' id) : path = path' := by
  simp only [Tparameters.trackFile, List.append_assoc, List.cons_append] at h
  have hrest := (List.cons.inj (List.append_cancel_left h)).2
  exact List.append_cancel_right hrest

theorem atoi_nil : atoi [] = 0 := rfl

theorem entry_of_contained (h : Contained s) :
    entry p fileExists (sscanfTrack s path) = entry p fileExists (ownFields (line s)) := by
  obtain ⟨id, field, rest, hfield, hbar, hline, hs⟩ := h
  rw [List.mem_append, not_or] at hbar hline
  have htake : ∀ r, (field ++ '|' :: r).takeWhile (· ≠ '|') = field := Cut.takeWhile_ne_append hbar.2
  have hown : ownFields (line s) = some (id, field) := by
    rcases hs with rfl | rfl
    · have hcut : line (id ++ '|' :: (field ++ '|' :: rest)) = id ++ '|' :: (field ++ '|' :: line rest) := by
        rw [line, List.takeWhile_append_of_pos (Cut.ne_of_not_mem hline.1), List.takeWhile_cons_of_pos (by decide),
          List.takeWhile_append_of_pos (Cut.ne_of_not_mem hline.2), List.takeWhile_cons_of_pos (by decide), line]
      rw [hcut, ownFields_append hbar.1, htake]
    · have hcut : line (id ++ '|' :: field) = id ++ '|' :: field := by
        rw [line, List.takeWhile_append_of_pos (Cut.ne_of_not_mem hline.1), List.takeWhile_cons_of_pos (by decide),
          Cut.takeWhile_ne_of_not_mem hline.2]
      rw [hcut, ownFields_append hbar.1, Cut.takeWhile_ne_of_not_mem hbar.2]
  by_cases hid : id = []
  · have hnone : entry p fileExists (ownFields (line s)) = none := by
      rw [hown, hid, entry, Option.bind_some]
      exact if_neg fun h => h.1 atoi_nil
    have hscan : sscanfTrack s path = none := by
      rw [sscanfTrack_eq, if_pos]
      rcases hs with rfl | rfl
      · rw [Cut.takeWhile_ne_append hbar.1, hid]
      · rw [Cut.takeWhile_ne_append hbar.1, hid]
    rw [hnone, hscan]
    rfl
  · have hscan : sscanfTrack s path = some (id, field) := by
      rcases hs with rfl | rfl
      · rw [sscanfTrack_append hbar.1 hid (by rwa [htake]), htake]
      · rw [sscanfTrack_append hbar.1 hid (by rwa [Cut.takeWhile_ne_of_not_mem hbar.2]),
          Cut.takeWhile_ne_of_not_mem hbar.2]
    rw [hown, hscan]

theorem contained_of_entry {f : Str} (hscan : entry p fileExists (sscanfTrack s path) = some f)
    (hown : entry p fileExists (ownFields (line s)) = some f) : Contained s := by
  obtain ⟨id, field, hfields, hatoi, hfield, rfl⟩ := entry_eq_some hown
  have hbar : '|' ∈ line s := by
    by_contra hnot
    rw [ownFields_of_not_mem hnot] at hfields
    cases hfields
  obtain ⟨id', r, hline, hid⟩ := List.eq_append_cons_of_mem hbar
  rw [hline, ownFields_append hid, Option.some.injEq, Prod.mk.injEq] at hfields
  obtain ⟨rfl, hfirst⟩ := hfields
  have hs : s = line s ++ s.dropWhile (· ≠ '\n') := List.takeWhile_append_dropWhile.symm
  have hnl : '\n' ∉ line s := Cut.not_mem_takeWhile_ne _ _
  rw [hline, List.mem_append, List.mem_cons, not_or, not_or] at hnl
  by_cases hsecond : '|' ∈ r
  · obtain ⟨field', rest, rfl, hfield'⟩ := List.eq_append_cons_of_mem hsecond
    rw [Cut.takeWhile_ne_append hfield'] at hfirst
    subst hfirst
    have hnl' : '\n' ∉ field' := fun hmem => hnl.2.2 (List.mem_append_left _ hmem)
    refine ⟨id', field', rest ++ s.dropWhile (· ≠ '\n'), hfield, ?_, ?_, .inl ?_⟩
    · rw [List.mem_append, not_or]
      exact ⟨hid, hfield'⟩
    · rw [List.mem_append, not_or]
      exact ⟨hnl.1, hnl'⟩
    · rw [hline] at hs
      simpa only [List.append_assoc, List.cons_append] using hs
  · rw [Cut.takeWhile_ne_of_not_mem hsecond] at hfirst
    subst hfirst
    cases hrest : s.dropWhile (· ≠ '\n') with
    | nil =>
        rw [hrest, List.append_nil, hline] at hs
        refine ⟨id', r, [], hfield, ?_, ?_, .inr hs⟩
        · rw [List.mem_append, not_or]
          exact ⟨hid, hsecond⟩
        · rw [List.mem_append, not_or]
          exact ⟨hnl.1, hnl.2.2⟩
    | cons c t =>
        -- the scan goes on into the next line, and names another track
        have hne : id' ≠ [] := fun hnil => hatoi (hnil ▸ atoi_nil)
        have hc : '|' ≠ c := by
          intro heq
          have hhead := List.head?_dropWhile_not (fun x => decide (x ≠ '\n')) s
          rw [hrest, ← heq, List.head?_cons] at hhead
          exact absurd hhead (by decide)
        have htake : (r ++ c :: t).takeWhile (· ≠ '|') = r ++ c :: t.takeWhile (· ≠ '|') := by
          rw [List.takeWhile_append_of_pos (Cut.ne_of_not_mem hsecond), List.takeWhile_cons_of_pos (by simpa using hc.symm)]
        rw [hrest, hline, List.append_assoc, List.cons_append] at hs
        rw [hs, sscanfTrack_append hid hne (by rw [htake]; simp), htake] at hscan
        obtain ⟨_, _, hfields, -, -, hfile⟩ := entry_eq_some hscan
        rw [Option.some.injEq, Prod.mk.injEq] at hfields
        obtain ⟨rfl, rfl⟩ := hfields
        have hlength := congrArg List.length (trackFile_injective hfile)
        rw [List.length_append, List.length_cons] at hlength
        omega

theorem entry_eq_iff : entry p fileExists (sscanfTrack s path) = entry p fileExists (ownFields (line s)) ↔
    Contained s ∨
      ¬ Names p fileExists (sscanfTrack s path) ∧ ¬ Names p fileExists (ownFields (line s)) := by
  rw [← isSome_entry, ← isSome_entry]
  constructor
  · intro h
    cases hown : entry p fileExists (ownFields (line s)) with
    | none =>
        rw [h, hown]
        exact .inr ⟨nofun, nofun⟩
    | some f => exact .inl (contained_of_entry (h.trans hown) hown)
  · rintro (h | ⟨hscan, hown⟩)
    · exact entry_of_contained h
    · rw [Option.not_isSome_iff_eq_none.mp hscan, Option.not_isSome_iff_eq_none.mp hown]

end Scans

section Response

variable (p : Tparameters) (fileExists : Str → Bool)

/-- The list is the one that the lines make, each adds what its own fields say, and no write goes past its buffer. -/
structure ByLine (mPlaylist : Str) : Prop where
  list : p.receive fileExists mPlaylist =
    some ((linesBehind mPlaylist).filterMap fun l => entry p fileExists (ownFields l))
  turns : turns p fileExists [] (starts mPlaylist) =
    some ((linesBehind mPlaylist).map fun l => entry p fileExists (ownFields l))

/-- The scan finds room for what it reads, and it ends inside its line, or neither its fields nor those of the line
name a file that exists. -/
def ScanRight (path s : Str) : Prop :=
  Fits p (sscanfTrack s path) ∧
    (Contained s ∨ ¬ Names p fileExists (sscanfTrack s path) ∧ ¬ Names p fileExists (ownFields (line s)))

variable {p fileExists} {path s : Str} {ss : List Str}

theorem turn_eq_some {r : Str × Option Str} : turn p fileExists path s = some r ↔
    Fits p (sscanfTrack s path) ∧ r.1 = leftover path [s] ∧ r.2 = entry p fileExists (sscanfTrack s path) := by
  rw [turn, leftover, leftover, ← buffer_eq]
  split
  · rename_i hfits
    rw [Option.some.injEq, Prod.ext_iff]
    exact ⟨fun h => ⟨hfits, h.1.symm, h.2.symm⟩, fun h => ⟨h.2.1.symm, h.2.2.symm⟩⟩
  · rename_i hfits
    exact ⟨fun h => (nomatch h), fun h => absurd h.1 hfits⟩

theorem turns_cons_eq_some {e : Option Str} {es : List (Option Str)} :
    turns p fileExists path (s :: ss) = some (e :: es) ↔ Fits p (sscanfTrack s path) ∧
      entry p fileExists (sscanfTrack s path) = e ∧ turns p fileExists (leftover path [s]) ss = some es := by
  simp only [turns, Option.bind_eq_bind, Option.bind_eq_some_iff, turn_eq_some, Option.pure_def, Option.some.injEq,
    List.cons.injEq]
  constructor
  · rintro ⟨r, ⟨hfits, hpath, hentry⟩, es', hes, rfl, rfl⟩
    exact ⟨hfits, hentry.symm, hpath ▸ hes⟩
  · rintro ⟨hfits, rfl, hes⟩
    exact ⟨(_, _), ⟨hfits, rfl, rfl⟩, es, hes, rfl, rfl⟩

theorem readTrack_eq (list : Lplaylist) : p.readTrack fileExists (path, list) s =
    (leftover path [s], list ++ (entry p fileExists (sscanfTrack s path)).toList) := by
  rw [leftover, leftover, ← buffer_eq, Tparameters.readTrack]
  dsimp only
  split
  · rename_i hscan
    rw [hscan, entry, Option.bind_none, Option.toList_none, List.append_nil]
    rfl
  · rename_i id field hscan
    rw [hscan, entry, Option.bind_some]
    dsimp only
    split
    · rfl
    · rw [Option.toList_none, List.append_nil]
      rfl

theorem foldl_readTrack {es : List (Option Str)} (h : turns p fileExists path ss = some es) (list : Lplaylist) :
    (ss.foldl (p.readTrack fileExists) (path, list)).2 = list ++ es.filterMap id := by
  induction ss generalizing path list es with
  | nil =>
      rw [turns, Option.some.injEq] at h
      rw [← h, List.foldl_nil, List.filterMap_nil, List.append_nil]
  | cons s ss ih =>
      cases es with
      | nil =>
          obtain ⟨_, -, h⟩ := Option.bind_eq_some_iff.mp h
          obtain ⟨_, -, h⟩ := Option.bind_eq_some_iff.mp h
          cases Option.some.inj h
      | cons e es =>
          obtain ⟨-, rfl, hes⟩ := turns_cons_eq_some.mp h
          rw [List.foldl_cons, readTrack_eq, ih hes, List.append_assoc]
          cases entry p fileExists (sscanfTrack s path) with
          | none => rfl
          | some f => rfl

theorem turns_eq_iff : turns p fileExists path ss = some (ss.map fun s => entry p fileExists (ownFields (line s))) ↔
    ∀ before s after, ss = before ++ s :: after → ScanRight p fileExists (leftover path before) s := by
  induction ss generalizing path with
  | nil => exact iff_of_true rfl fun before s after h => absurd h.symm (List.append_ne_nil_of_right_ne_nil _ (by simp))
  | cons s ss ih =>
      rw [List.map_cons, turns_cons_eq_some, ih]
      constructor
      · rintro ⟨hfits, hentry, hrest⟩ before s' after h
        cases before with
        | nil =>
            obtain ⟨rfl, rfl⟩ := List.cons.inj h
            exact ⟨hfits, entry_eq_iff.mp hentry⟩
        | cons b before =>
            obtain ⟨rfl, hss⟩ := List.cons.inj h
            exact hrest before s' after hss
      · intro h
        obtain ⟨hfits, hright⟩ := h [] s ss rfl
        exact ⟨hfits, entry_eq_iff.mpr hright, fun before s' after hss => h (s :: before) s' after (hss ▸ rfl)⟩

/-- A response is read by line if and only if every scan is right, with the path that the scans before left in the
buffer. -/
theorem byLine_iff {mPlaylist : Str} (hne : mPlaylist ≠ []) : ByLine p fileExists mPlaylist ↔
    ∀ before s after, starts mPlaylist = before ++ s :: after → ScanRight p fileExists (leftover [] before) s := by
  rw [← turns_eq_iff]
  have hmap : (starts mPlaylist).map (fun s => entry p fileExists (ownFields (line s))) =
      (linesBehind mPlaylist).map fun l => entry p fileExists (ownFields l) := by
    rw [← map_line_starts, List.map_map]
    rfl
  rw [hmap]
  refine ⟨fun h => h.turns, fun h => ⟨?_, h⟩⟩
  have hbegin : getMetadataBegin mPlaylist = some ((find finish mPlaylist).getD []) := by
    rw [getMetadataBegin, if_neg hne]
    rfl
  have hlist := foldl_readTrack h []
  rw [List.nil_append, List.filterMap_map] at hlist
  rw [Tparameters.receive, hbegin, Option.bind_eq_bind, Option.bind_some, ← starts, hlist]
  rfl

end Response

section Demo

def demoParameters : Tparameters := ⟨true, "/m".toList, false, false, []⟩

/-- Every file exists whose name has no line end. -/
def demoFiles (f : Str) : Bool := decide ('\n' ∉ f)

theorem byLine_iff_demo : ByLine demoParameters demoFiles "finish\n17|rock|a\n18|pop|b\n".toList ↔
    ∀ before s after, starts "finish\n17|rock|a\n18|pop|b\n".toList = before ++ s :: after →
      ScanRight demoParameters demoFiles (leftover [] before) s :=
  byLine_iff (by decide)

/-- The path of the first line goes on into the second one. -/
theorem path_over_line_end :
    ¬ ∀ (p : Tparameters) (fileExists : Str → Bool) (mPlaylist : Str), mPlaylist ≠ [] → ByLine p fileExists mPlaylist := by
  intro hall
  have hlist := (hall demoParameters demoFiles "finish\n17|rock\n18|pop|b\n".toList (by decide)).list
  have hread : demoParameters.receive demoFiles "finish\n17|rock\n18|pop|b\n".toList =
      some ["/m/pop/0/18.aac".toList] := by decide +kernel
  have hlines : (linesBehind "finish\n17|rock\n18|pop|b\n".toList).filterMap
      (fun l => entry demoParameters demoFiles (ownFields l)) =
        ["/m/rock/0/17.aac".toList, "/m/pop/0/18.aac".toList] := by decide +kernel
  rw [hread, hlines, Option.some.injEq] at hlist
  exact absurd (congrArg List.length hlist) (by decide)

end Demo

end RadioServices.Accordion.Response

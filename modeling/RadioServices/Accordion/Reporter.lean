import RadioServices.Lib.Decimal
import RadioServices.Accordion.Parameters

namespace RadioServices.Accordion.Reporter

open Lib Lib.C

def basename (mFile : Str) : Str := (mFile.reverse.takeWhile (· ≠ '/')).reverse

/-- The loop over the slashes in front of the one at `f`. The pointers are what they point to. `none` where the loop
does not end. -/
def skipPath (f : Str) : Nat → Str → Option Str
  | 0, _ => none
  | fuel + 1, aC =>
      if aC = [] then some aC
      else match strchr aC '/' with
        | some c => if c.length ≠ f.length then skipPath f fuel c.tail else some aC
        | none => some aC

/-- The track and the part of its path behind the root. `none` where the thread ends without a report. -/
def findTrack (playlist mFile : Str) : Option (Int × Str) := do
  let a0 := mFile.drop playlist.length
  let name := basename mFile
  let trackId := atoi name
  if trackId = 0 then none
  else
    let aC ← skipPath ('/' :: name) (mFile.length + 1) mFile
    let pos0 : Int := mFile.length - aC.length - playlist.length
    if pos0 ≤ 0 then none else some (trackId, a0.take pos0.toNat)

structure Report where
  urlSendTrackData : Str
  time : Nat
  playTime : Int
  channelId : Int

def printInt (n : Int) : Str := (toString n).toList

def bufferSize : Nat := 1000

def queryUrl (r : Report) (trackId : Int) (ss : Str) : Str :=
  r.urlSendTrackData ++ '/' :: printInt trackId ++ ss ++ printInt r.playTime ++ "/".toList

def reportLine (r : Report) (trackId : Int) (sss : Str) : Str :=
  printInt r.time ++ '\t' :: sss ++ '\t' :: printInt trackId ++ '\t' :: printInt r.playTime ++
    '\t' :: printInt r.channelId ++ "\n".toList

/-- The URL that is queried, and the line for the report. Both are written into one buffer: `none` where they find no
room, or where what is between the slashes has a length below 0. -/
def report (r : Report) (trackId : Int) (ss : Str) : Option (Str × Str) :=
  if bufferSize ≤ (queryUrl r trackId ss).length then none
  else if ss.length < 2 then none
  else
    let sss := (ss.drop 1).take (ss.length - 2)
    if bufferSize ≤ (reportLine r trackId sss).length then none
    else some (queryUrl r trackId ss, reportLine r trackId sss)

def handlerMetadataThread (playlist mFile : Str) (r : Report) : Option (Str × Str) := do
  let (trackId, ss) ← findTrack playlist mFile
  report r trackId ss

section Pointers

theorem basename_append (d : Str) {name : Str} (h : '/' ∉ name) : basename (d ++ '/' :: name) = name := by
  have hreverse : '/' ∉ name.reverse := fun hmem => h (List.mem_reverse.mp hmem)
  rw [basename, List.reverse_append, List.reverse_cons, List.append_assoc, List.singleton_append,
    Cut.takeWhile_ne_append hreverse, List.reverse_reverse]

/-- The loop stops behind the last slash but one. -/
theorem skipPath_eq {last : Str} (name : Str) (hlast : '/' ∉ last) (fuel : Nat) (path : Str)
    (hpath : path = [] ∨ ∃ q, path = q ++ ['/']) (hfuel : path.length < fuel) :
    skipPath ('/' :: name) fuel (path ++ (last ++ '/' :: name)) = some (last ++ '/' :: name) := by
  induction fuel generalizing path with
  | zero => exact absurd hfuel (Nat.not_lt_zero _)
  | succ fuel ih =>
      have hne : path ++ (last ++ '/' :: name) ≠ [] := by simp
      rw [skipPath, if_neg hne]
      by_cases hslash : '/' ∈ path
      · obtain ⟨a, b, rfl, ha⟩ := List.eq_append_cons_of_mem hslash
        rw [List.append_assoc, List.cons_append, strchr_append ha]
        have hlonger : ('/' :: (b ++ (last ++ '/' :: name))).length ≠ ('/' :: name).length := by
          simp only [List.length_cons, List.length_append]
          omega
        have hrest : b = [] ∨ ∃ q, b = q ++ ['/'] := by
          rcases List.eq_nil_or_concat b with hnil | ⟨q, c, hb⟩
          · exact .inl hnil
          · obtain ⟨r, hr⟩ := hpath.resolve_left (List.append_ne_nil_of_right_ne_nil _ (List.cons_ne_nil _ _))
            rw [hb, List.concat_eq_append, ← List.cons_append, ← List.append_assoc] at hr
            have hc := (List.cons.inj (List.append_inj_right' hr rfl)).1
            rw [hc, List.concat_eq_append] at hb
            exact .inr ⟨q, hb⟩
        have hless : b.length < fuel := by
          rw [List.length_append, List.length_cons] at hfuel
          omega
        dsimp only
        rw [if_pos hlonger, List.tail_cons]
        exact ih b hrest hless
      · have hnil : path = [] := by
          refine hpath.resolve_right fun ⟨q, hq⟩ => hslash ?_
          rw [hq]
          exact List.mem_append_right _ List.mem_cons_self
        rw [hnil, List.nil_append, strchr_append hlast]
        dsimp only
        rw [if_neg (not_not.mpr rfl)]

end Pointers

section Track

variable (p : Tparameters) (path : Str) (n : Nat)

theorem trackFile_eq (id : Str) : p.trackFile path id =
    p.playlistPath ++ ('/' :: path ++ ['/']) ++ (getSubPath (atoi id) ++ '/' :: (id ++ '.' :: p.ext)) := by
  simp [Tparameters.trackFile, List.append_assoc]

theorem slash_not_mem_name {id : Str} (h : '/' ∉ id) : '/' ∉ id ++ '.' :: p.ext := by
  rw [List.mem_append, not_or, List.mem_cons, not_or, Tparameters.ext]
  refine ⟨h, by decide, ?_⟩
  split <;> decide

theorem slash_not_mem_getSubPath (m : Int) : '/' ∉ getSubPath m :=
  Decimal.not_mem_toString (by decide) (by decide) _

/-- The decoder finds the number that the name of the track begins with, and what the builder was given as path. -/
theorem findTrack_trackFile (id : Str) (hid : '/' ∉ id) (hne : atoi (id ++ '.' :: p.ext) ≠ 0) :
    findTrack p.playlistPath (p.trackFile path id) =
      some (atoi (id ++ '.' :: p.ext), '/' :: path ++ ['/']) := by
  have hname := slash_not_mem_name p hid
  have hfile := trackFile_eq p path id
  have hbase : basename (p.trackFile path id) = id ++ '.' :: p.ext := by
    rw [hfile, ← List.append_assoc]
    exact basename_append _ hname
  have hlength := congrArg List.length hfile
  rw [List.length_append] at hlength
  have hskip := skipPath_eq (id ++ '.' :: p.ext) (slash_not_mem_getSubPath (atoi id))
    ((p.trackFile path id).length + 1) (p.playlistPath ++ ('/' :: path ++ ['/']))
    (.inr ⟨p.playlistPath ++ '/' :: path, (List.append_assoc _ _ _).symm⟩) (by omega)
  rw [← hfile] at hskip
  rw [List.length_append] at hlength
  have hpos : ((p.trackFile path id).length : Int) -
      (getSubPath (atoi id) ++ '/' :: (id ++ '.' :: p.ext)).length - p.playlistPath.length =
        ('/' :: path ++ ['/']).length := by
    omega
  have hlong : ¬ (('/' :: path ++ ['/']).length : Int) ≤ 0 := by
    rw [List.length_append]
    simp only [List.length_singleton]
    omega
  have htake : ((p.trackFile path id).drop p.playlistPath.length).take ('/' :: path ++ ['/']).length =
      '/' :: path ++ ['/'] := by
    rw [hfile, List.append_assoc, List.drop_left, List.take_left]
  simp only [findTrack, hbase, if_neg hne, hskip, Option.bind_eq_bind, Option.bind_some, hpos, if_neg hlong,
    Int.toNat_natCast, htake]

/-- A track of a number that an `int` can hold is reported under this number and the path it was built of. -/
theorem reported_as_built (r : Report) (hpos : 1 ≤ n) (hsmall : n < 2 ^ 31) :
    findTrack p.playlistPath (p.trackFile path (Nat.toDigits 10 n)) = some ((n : Int), '/' :: path ++ ['/']) ∧
      ((queryUrl r n ('/' :: path ++ ['/'])).length < bufferSize → (reportLine r n path).length < bufferSize →
        handlerMetadataThread p.playlistPath (p.trackFile path (Nat.toDigits 10 n)) r =
          some (queryUrl r n ('/' :: path ++ ['/']), reportLine r n path)) := by
  have hatoi : atoi (Nat.toDigits 10 n ++ '.' :: p.ext) = n := by
    rw [atoi_toDigits, i32_saturate hsmall]
    rintro c t heq
    rw [← (List.cons.inj heq).1]
    rfl
  have hfind := findTrack_trackFile p path (Nat.toDigits 10 n) (Decimal.not_mem_toDigits (by decide) n)
    (by rw [hatoi]; omega)
  rw [hatoi] at hfind
  refine ⟨hfind, fun hquery hline => ?_⟩
  have hlength : ('/' :: path ++ ['/']).length = path.length + 2 := by
    rw [List.length_append]
    rfl
  have hfield : (('/' :: path ++ ['/']).drop 1).take (('/' :: path ++ ['/']).length - 2) = path := by
    rw [hlength, Nat.add_sub_cancel, List.cons_append, List.drop_one, List.tail_cons, List.take_left]
  rw [handlerMetadataThread, hfind, Option.bind_eq_bind, Option.bind_some]
  dsimp only
  rw [report, if_neg (Nat.not_le.mpr hquery), if_neg (by omega), hfield]
  dsimp only
  rw [if_neg (Nat.not_le.mpr hline)]

end Track

section Demo

def demoParameters : Tparameters := ⟨true, "/m".toList, false, false, []⟩

def demoReport : Report := ⟨"http://x/track".toList, 1500000000, 240, 7⟩

theorem reported_as_built_demo :
    findTrack demoParameters.playlistPath (demoParameters.trackFile "a/b".toList (Nat.toDigits 10 23456)) =
        some (((23456 : Nat) : Int), '/' :: "a/b".toList ++ ['/']) ∧
      handlerMetadataThread demoParameters.playlistPath
          (demoParameters.trackFile "a/b".toList (Nat.toDigits 10 23456)) demoReport =
        some (queryUrl demoReport (23456 : Nat) ('/' :: "a/b".toList ++ ['/']),
          reportLine demoReport (23456 : Nat) "a/b".toList) := by
  obtain ⟨hfind, hreport⟩ := reported_as_built demoParameters "a/b".toList 23456 demoReport (by decide) (by decide)
  exact ⟨hfind, hreport (by decide +kernel) (by decide +kernel)⟩

/-- The number 2147483648 does not fit an `int`. -/
theorem large_number_reported_negative :
    ¬ ∀ (p : Tparameters) (path : Str) (n : Nat), path ≠ [] → path.head? ≠ some '/' → path.getLast? ≠ some '/' →
      1 ≤ n → findTrack p.playlistPath (p.trackFile path (Nat.toDigits 10 n)) =
        some ((n : Int), '/' :: path ++ ['/']) := by
  intro hall
  have hfind := hall demoParameters "x".toList 2147483648 (by decide) (by decide) (by decide) (by decide)
  have hnegative : findTrack demoParameters.playlistPath
      (demoParameters.trackFile "x".toList (Nat.toDigits 10 2147483648)) =
        some (-2147483648, '/' :: "x".toList ++ ['/']) := by decide +kernel
  rw [hnegative] at hfind
  exact absurd (congrArg Prod.fst (Option.some.inj hfind)) (by decide)

end Demo

end RadioServices.Accordion.Reporter

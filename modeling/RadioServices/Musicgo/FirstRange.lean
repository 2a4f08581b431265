import RadioServices.Musicgo.Markers

namespace RadioServices.Musicgo.FirstRange

open Lib Lib.C Scanner Request
open Accordion (find)

section Header

def requestLines (request : Str) : List Str := request.splitOnP fun c => decide (c ∈ "\r\n".toList)

/-- The numbers of a Range header. An open end is 0. -/
def headerRange (line : Str) : Option (Int × Int) :=
  (value "bytes=" line).map fun text => ((strtol text).1, (strtol ((strtol text).2.drop 1)).1.natAbs)

/-- The range of the request's Range header, or the open one from 0 on. -/
def requestRange (request : Str) : Int × Int :=
  (((requestLines request).find? fun line => "Range:".toList.isPrefixOf line).bind headerRange).getD (0, 0)

end Header

section First

variable {want : Int × Int} {read : List (Int × Int)}

/-- No range that is read begins earlier, and the last one that begins there is the range. -/
def First (want : Int × Int) (read : List (Int × Int)) : Prop :=
  (∀ e ∈ read, want.1 ≤ e.1) ∧ (read.filter fun e => decide (e.1 = want.1)).getLast? = some want

theorem head?_foldl_insert : (read.foldl (fun m e => m.insert e.1 e.2) SortedMap.empty).entries.head? = some want ↔
    First want read := by
  have hkeys : ∀ j, j ∈ (read.foldl (fun m e => m.insert e.1 e.2) SortedMap.empty).keys ↔ j ∈ read.map Prod.fst := by
    intro j
    rw [SortedMap.mem_keys_foldl_insert]
    exact or_iff_left fun h => nomatch h
  have hlast : ∀ e, (read.filter fun e => decide (e.1 = want.1)).getLast? = some e → e.1 = want.1 := fun e he =>
    of_decide_eq_true (List.mem_filter.mp (List.mem_of_getLast? he)).2
  rw [SortedMap.head?_entries, SortedMap.find?_foldl_insert, First, and_comm]
  refine and_congr ?_ ?_
  · simp only [hkeys, List.forall_mem_map]
  · have hnone : (SortedMap.empty : SortedMap Int Int).find? want.1 = none := rfl
    rw [hnone, Option.or_none]
    constructor
    · intro h
      obtain ⟨e, he, hvalue⟩ := Option.map_eq_some_iff.mp h
      rw [he, ← Prod.ext (hlast e he) hvalue]
    · intro h
      rw [h]
      rfl

end First

section Served

variable {aliases : SortedMap Str Str} {r : Request} {path : Str} {r' : Request}

/-- Without a range among the tokens one is a track's, and the open range is wanted; else the first one is wanted. -/
def Served (want : Int × Int) (tokens : List Token) : Prop :=
  if ranges tokens = [] then (∃ t ∈ tokens, Marker.taken t.text = some .id) ∧ want = (0, 0)
  else First want (ranges tokens)

theorem withRange_mRange (r : Request) : r.withRange.parameters.mRange =
    if r.parameters.mData.isAac = true ∧ r.parameters.mRange.size = 0 then r.parameters.mRange.insert 0 0
    else r.parameters.mRange := by
  rw [withRange]
  split <;> rfl

theorem mRange_of_path (h : filePath aliases r = (path, r')) (hpath : path ≠ []) :
    r'.parameters.mRange = r.withRange.parameters.mRange := by
  have hwhole : ∀ p, (p, r.withHttp.withRange.withAlias) = (path, r') →
      r'.parameters.mRange = r.withRange.parameters.mRange := by
    intro p hp
    have hsame : r'.parameters.mRange = r.withHttp.withRange.parameters.mRange := by
      rw [← (Prod.mk.inj hp).2]
      rfl
    rw [hsame, withRange_mRange, withRange_mRange]
    rfl
  have hnil : ∀ s : Request, (([], s) : Str × Request) = (path, r') → r'.parameters.mRange = r.withRange.parameters.mRange :=
    fun s hs => absurd (Prod.mk.inj hs).1.symm hpath
  rw [filePath] at h
  split at h
  · exact hnil _ h
  split at h
  · exact hnil _ h
  split at h
  · exact hnil _ h
  split at h <;> exact hwhole _ h

theorem head?_readTokens (startPosition duration : Int) (tokens : List Token) (want : Int × Int) :
    (readTokens (.new startPosition duration) tokens).withRange.parameters.mRange.entries.head? = some want ↔
      Served want tokens := by
  have hranges := readTokens_mRange (.new startPosition duration) tokens
  have haac := readTokens_isAac (.new startPosition duration) tokens
  generalize readTokens (.new startPosition duration) tokens = r at hranges haac
  have hempty : (new startPosition duration).parameters.mRange = .empty := rfl
  have hnot : (new startPosition duration).parameters.mData.isAac = false := rfl
  rw [hempty] at hranges
  have hany : r.parameters.mData.isAac = true ↔ ∃ t ∈ tokens, Marker.taken t.text = some .id := by
    rw [haac, hnot, Bool.false_or, List.any_eq_true]
    simp only [decide_eq_true_eq]
  rw [withRange_mRange, Served, hranges]
  by_cases hnone : ranges tokens = []
  · rw [if_pos hnone, hnone, List.foldl_nil]
    by_cases hid : ∃ t ∈ tokens, Marker.taken t.text = some .id
    · rw [if_pos ⟨hany.mpr hid, rfl⟩]
      have hentries : ((SortedMap.empty : SortedMap Int Int).insert 0 0).entries.head? = some (0, 0) := rfl
      rw [hentries, Option.some.injEq, and_iff_right hid]
      exact eq_comm
    · rw [if_neg fun h => hid (hany.mp h.1)]
      exact iff_of_false (fun h => nomatch h) fun h => hid h.1
  · have hsize : ((ranges tokens).foldl (fun m e => m.insert e.1 e.2) SortedMap.empty).size ≠ 0 := by
      obtain ⟨e, l, hl⟩ := List.exists_cons_of_ne_nil hnone
      have hkey : e.1 ∈ ((ranges tokens).foldl (fun m e => m.insert e.1 e.2) SortedMap.empty).keys :=
        SortedMap.mem_keys_foldl_insert.mpr (.inl (hl ▸ List.mem_cons_self))
      exact Nat.ne_of_gt (SortedMap.size_pos_of_mem_keys hkey)
    rw [if_neg fun h => hsize h.2, if_neg hnone, head?_foldl_insert]

/-- Whether what a path is given to serves first is the range of the request. -/
theorem firstRange_iff {startPosition duration : Int} {recvStr behind : Str}
    (h : sparse aliases startPosition duration recvStr behind = some (path, r')) (hpath : path ≠ []) :
    r'.parameters.mRange.entries.head? = some (requestRange (cstr recvStr)) ↔
      Served (requestRange (cstr recvStr)) (tokensRead recvStr behind) := by
  rw [sparse_eq] at h
  rw [mRange_of_path (Option.some.inj h) hpath, head?_readTokens]

def trackRequest : Str := "GET /?id=1&module=m HTTP/1.1\r\nRange: bytes=5-9\r\n\r\n".toList

theorem firstRange_iff_track : ∃ path r, sparse MediaPath.demoAliases 10 40 trackRequest [] = some (path, r) ∧ path ≠ [] ∧
    (r.parameters.mRange.entries.head? = some (5, 9) ↔ Served (5, 9) (tokensRead trackRequest [])) := by
  have hpath : (sparse MediaPath.demoAliases 10 40 trackRequest []).map Prod.fst = some "/media/m/0/1.aac".toList := by
    decide +kernel
  have hrange : requestRange (cstr trackRequest) = (5, 9) := by decide +kernel
  obtain ⟨⟨path, r⟩, hsparse, hpath⟩ := Option.map_eq_some_iff.mp hpath
  obtain rfl : path = "/media/m/0/1.aac".toList := hpath
  refine ⟨_, r, hsparse, by decide, ?_⟩
  rw [← hrange]
  exact firstRange_iff hsparse (by decide)

/-- A file for a date without a range: the map stays empty, only a track has a default. -/
theorem not_served_date : ¬ ∀ (aliases : SortedMap Str Str) (startPosition duration : Int) (recvStr behind path : Str)
    (r : Request), sparse aliases startPosition duration recvStr behind = some (path, r) → path ≠ [] →
      r.parameters.pidStatus = 0 → r.parameters.mRange.entries.head? = some (requestRange (cstr recvStr)) := by
  intro hevery
  have hrun : (sparse MediaPath.demoAliases 10 40 "GET /?date=2018&hash=7 HTTP/1.1\r\n\r\n".toList []).map
      (fun found => (found.1, found.2.parameters.pidStatus, found.2.parameters.mRange.entries)) =
        some ("/media/2018/7.mp3".toList, 0, []) := by decide +kernel
  obtain ⟨⟨path, r⟩, hsparse, hfound⟩ := Option.map_eq_some_iff.mp hrun
  obtain ⟨hpath, hstatus, hentries⟩ : path = "/media/2018/7.mp3".toList ∧ r.parameters.pidStatus = 0 ∧
      r.parameters.mRange.entries = [] := by
    simpa only [Prod.mk.injEq] using hfound
  have hfirst := hevery _ _ _ _ _ _ _ hsparse (hpath ▸ by decide) hstatus
  rw [hentries] at hfirst
  cases hfirst

end Served

end RadioServices.Musicgo.FirstRange

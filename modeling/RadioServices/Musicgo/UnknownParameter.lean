import RadioServices.Musicgo.FirstRange
import RadioServices.Musicgo.ScanBound

namespace RadioServices.Musicgo.UnknownParameter

open Lib Lib.C Lib.Loop Scanner
open Accordion (find)

section SameFile

def core (r : Request) : Request := { r with http := none }

def view (found : Str × Request) : Str × SortedMap Int Int × Option Str :=
  (found.1, found.2.parameters.mRange, found.2.parameters.mData.token)

variable {r s : Request} {pch behind behind' : Str}

theorem core_readToken (r : Request) (pch behind : Str) : core (r.readToken pch behind) = core ((core r).readToken pch behind) := by
  rw [Marker.readToken_eq, Marker.readToken_eq]
  cases Marker.taken pch with
  | none => rfl
  | some m => cases m <;> rfl

theorem core_readToken_congr (h : core r = core s) (pch behind : Str) :
    core (r.readToken pch behind) = core (s.readToken pch behind) := by
  rw [core_readToken, h, ← core_readToken]

theorem core_readTokens_congr (h : core r = core s) (tokens : List Token) :
    core (readTokens r tokens) = core (readTokens s tokens) := by
  induction tokens generalizing r s with
  | nil => exact h
  | cons t tokens ih => exact ih (core_readToken_congr h t.text t.behind)

def served (path : Str) (r : Request) : Str × SortedMap Int Int × Option Str :=
  (path, if r.parameters.mData.isAac = true ∧ r.parameters.mRange.size = 0 then r.parameters.mRange.insert 0 0
    else r.parameters.mRange, r.parameters.mData.token)

theorem view_withRange (path : Str) (r : Request) : view (path, r.withHttp.withRange) = served path r := by
  have htoken : r.withHttp.withRange.parameters.mData = r.parameters.mData := by
    rw [Request.withRange]
    split <;> rfl
  rw [view, htoken, FirstRange.withRange_mRange]
  rfl

theorem view_filePath (aliases : SortedMap Str Str) (r : Request) : view (Request.filePath aliases r) =
    if r.parameters.mData.isAac = false ∧ r.isMp3 = false then ([], r.parameters.mRange, r.parameters.mData.token)
    else if r.parameters.mData.isAac = true ∧ (r.id = 0 ∨ r.module = none) then
      ([], r.parameters.mRange, r.parameters.mData.token)
    else served (Request.filePath aliases r).1 r := by
  rw [Request.filePath]
  split
  · rfl
  split
  · rfl
  split
  · exact view_withRange [] r
  split <;> exact view_withRange _ r

theorem filePath_core (aliases : SortedMap Str Str) (r : Request) :
    (Request.filePath aliases (core r)).1 = (Request.filePath aliases r).1 := by
  have hcomplete : MediaPath.Complete (core r) ↔ MediaPath.Complete r := Iff.rfl
  by_cases h : MediaPath.Complete r
  · rw [MediaPath.filePath_of_complete h, MediaPath.filePath_of_complete (hcomplete.mpr h)]
    rfl
  · rw [MediaPath.filePath_of_not_complete h, MediaPath.filePath_of_not_complete (mt hcomplete.mp h)]

theorem view_core (aliases : SortedMap Str Str) (r : Request) :
    view (Request.filePath aliases r) = view (Request.filePath aliases (core r)) := by
  rw [view_filePath, view_filePath, filePath_core]
  rfl

theorem view_filePath_congr (h : core r = core s) (aliases : SortedMap Str Str) :
    view (Request.filePath aliases r) = view (Request.filePath aliases s) := by
  rw [view_core, h, ← view_core]

/-- A token whose number goes on behind its end: the code skips the NUL. -/
def RunsOn (pch : Str) : Prop :=
  Marker.taken pch = some .bytes ∧ (strtol ((Marker.bytes.value pch).getD [])).2 = []

instance (pch : Str) : Decidable (RunsOn pch) := inferInstanceAs (Decidable (_ ∧ _))

def rangeBegin (pch : Str) : Int := i32 (strtol ((Marker.bytes.value pch).getD [])).1

def rangeEnd (text : Str) : Int := i32 (strtol text).1.natAbs

def withRanges (m : SortedMap Int Int) (r : Request) : Request := { r with parameters := { r.parameters with mRange := m } }

theorem readToken_runsOn (h : RunsOn pch) (r : Request) (behind : Str) :
    r.readToken pch behind = withRanges (r.parameters.mRange.insert (rangeBegin pch) (rangeEnd behind)) r := by
  rw [Marker.readToken_eq, h.1, Option.map_some, Option.getD_some, Marker.change, TParameters.getBytes, rangeBegin]
  have hend := h.2
  generalize strtol ((Marker.bytes.value pch).getD []) = read at hend ⊢
  obtain ⟨f, pEnd⟩ := read
  obtain rfl : pEnd = [] := hend
  rfl

theorem getBytes_behind (p : TParameters) {text : Str} (h : (strtol text).2 ≠ []) :
    p.getBytes text behind = p.getBytes text behind' := by
  rw [TParameters.getBytes, TParameters.getBytes]
  generalize strtol text = read at h ⊢
  obtain ⟨f, pEnd⟩ := read
  cases pEnd with
  | nil => exact absurd rfl h
  | cons c t => dsimp only

theorem readToken_behind (h : ¬ RunsOn pch) (r : Request) : r.readToken pch behind = r.readToken pch behind' := by
  rw [Marker.readToken_eq, Marker.readToken_eq]
  cases htaken : Marker.taken pch with
  | none => rw [Option.map_none, Option.map_none]
  | some m =>
      rw [Option.map_some, Option.map_some, Option.getD_some, Option.getD_some]
      cases m with
      | bytes => rw [Marker.change, Marker.change, getBytes_behind r.parameters fun hend => h ⟨htaken, hend⟩]
      | _ => rw [Marker.change, Marker.change]

theorem readToken_congr (h : rangeEnd behind = rangeEnd behind') (pch : Str) (r : Request) :
    r.readToken pch behind = r.readToken pch behind' := by
  by_cases hruns : RunsOn pch
  · rw [readToken_runsOn hruns, readToken_runsOn hruns, h]
  · exact readToken_behind hruns r

theorem readToken_withRanges (m : SortedMap Int Int) (r : Request) (pch behind : Str) :
    (withRanges m r).readToken pch behind =
      withRanges ((Marker.range pch behind).elim m fun e => m.insert e.1 e.2) (r.readToken pch behind) := by
  have hranges := Marker.readToken_mRange (withRanges m r) pch behind
  have hsame : withRanges ((withRanges m r).readToken pch behind).parameters.mRange (r.readToken pch behind) =
      (withRanges m r).readToken pch behind := by
    rw [Marker.readToken_eq, Marker.readToken_eq]
    cases Marker.taken pch with
    | none => rfl
    | some m => cases m <;> rfl
  rw [← hsame, hranges]
  rfl

theorem readTokens_withRanges (m : SortedMap Int Int) (r : Request) (tokens : List Token) :
    readTokens (withRanges m r) tokens =
      withRanges ((ranges tokens).foldl (fun m e => m.insert e.1 e.2) m) (readTokens r tokens) := by
  induction tokens generalizing m r with
  | nil => rfl
  | cons t tokens ih =>
      rw [readTokens, List.foldl_cons, ← readTokens, readToken_withRanges, ih, ranges, ranges, List.filterMap_cons]
      cases Marker.range t.text t.behind <;> rfl

theorem view_mRange (aliases : SortedMap Str Str) (h : r.parameters.mRange.size ≠ 0) :
    (view (Request.filePath aliases r)).2.1 = r.parameters.mRange := by
  rw [view_filePath]
  split
  · rfl
  split
  · rfl
  · exact if_neg fun hnone => h hnone.2

/-- With a range in either map, equal views are equal maps. -/
theorem view_withRanges {m m' : SortedMap Int Int} (hm : m.size ≠ 0) (hm' : m'.size ≠ 0) (aliases : SortedMap Str Str)
    (r : Request) : view (Request.filePath aliases (withRanges m r)) = view (Request.filePath aliases (withRanges m' r)) ↔
      m = m' := by
  constructor
  · intro h
    have hmap := congrArg (fun found => found.2.1) h
    exact (view_mRange aliases hm).symm.trans (hmap.trans (view_mRange aliases hm'))
  · intro h
    rw [h]

end SameFile

section Query

/-- No separator of a query, and no end of a line or of the request. -/
def Plain (s : Str) : Prop := ∀ c ∈ s, c ∉ "\x00\r\n ?&".toList

instance (s : Str) : Decidable (Plain s) := List.decidableBAll _ s

abbrev PlainText := {s : Str // Plain s}

def query : List PlainText → Str
  | [] => []
  | [p] => p.val
  | p :: q :: ps => p.val ++ '&' :: query (q :: ps)

def behindOf (ps : List PlainText) (tail : Str) : Str :=
  match ps with
  | [] => tail
  | p :: ps => query (p :: ps) ++ ' ' :: tail

def readQuery (tail : Str) : List PlainText → Request → Request
  | [], r => r
  | p :: ps, r => readQuery tail ps (r.readToken p.val (behindOf ps tail))

def readFrom (mem : Str) (r : Request) : Request := readTokens r (fileRead mem).1

variable {piece mem tail : Str} {d : Char}

theorem Plain.clean (h : Plain piece) : Clean " ?&".toList piece := by
  intro c hc
  have hnot := h c hc
  simp only [String.reduceToList, List.mem_cons, List.not_mem_nil, or_false, not_or] at hnot ⊢
  exact ⟨hnot.1, hnot.2.2.2⟩

theorem readToken_of_none (h : Marker.taken piece = none) (r : Request) (behind : Str) : r.readToken piece behind = r := by
  rw [Marker.readToken_eq, h]
  rfl

theorem readToken_nil (r : Request) (behind : Str) : r.readToken [] behind = r := readToken_of_none (by decide) r behind

theorem readFrom_piece (hpiece : Plain piece) (hd : d ∈ " ?&".toList) (mem : Str) (r : Request) :
    readFrom (piece ++ d :: mem) r = readFrom mem (r.readToken piece mem) := by
  by_cases hnil : piece = []
  · subst hnil
    rw [readToken_nil, List.nil_append, readFrom, fileRead_separator hd, readTokens_shift]
    rfl
  · rw [readFrom, fileRead_piece hnil hpiece.clean hd, readTokens, List.foldl_cons, ← readTokens, readTokens_shift,
      Token.behind_head]
    rfl

theorem readFrom_last (hpiece : Plain piece) (mem : Str) (r : Request) :
    readFrom (piece ++ '\x00' :: mem) r = r.readToken piece mem := by
  by_cases hnil : piece = []
  · subst hnil
    rw [readToken_nil, List.nil_append, readFrom, fileRead_nul]
    rfl
  · rw [readFrom, fileRead_last hnil hpiece.clean, readTokens, List.foldl_cons, List.foldl_nil, Token.behind_head]

theorem readFrom_query (ps : List PlainText) (tail : Str) (r : Request) :
    readFrom (query ps ++ ' ' :: tail) r = readFrom tail (readQuery tail ps r) := by
  induction ps generalizing r with
  | nil =>
      rw [readQuery, query, @readFrom_piece [] _ (fun _ h => nomatch h) (by decide), readToken_nil]
  | cons p ps ih =>
      cases ps with
      | nil => rw [query, readFrom_piece p.property (by decide), readQuery, readQuery, behindOf]
      | cons q ps =>
          rw [query, List.append_assoc, List.cons_append, readFrom_piece p.property (by decide), ih]
          rfl

end Query

section Insert

variable {tail : Str} {r s : Request} {t : PlainText}

def Unmarked (pch : Str) : Prop := ∀ m, Marker.taken pch = some m → m ∈ [Marker.start, .login, .password, .http]

theorem core_readToken_unmarked {pch : Str} (h : Unmarked pch) (r : Request) (behind : Str) :
    core (r.readToken pch behind) = core r := by
  rw [Marker.readToken_eq]
  cases htaken : Marker.taken pch with
  | none => rfl
  | some m =>
      have hm := h m htaken
      simp only [List.mem_cons, List.not_mem_nil, or_false] at hm
      rcases hm with rfl | rfl | rfl | rfl <;> rfl

theorem core_readQuery_congr (h : core r = core s) (ps : List PlainText) :
    core (readQuery tail ps r) = core (readQuery tail ps s) := by
  induction ps generalizing r s with
  | nil => exact h
  | cons p ps ih => exact ih (core_readToken_congr h _ _)

theorem stops_of_separator {c : Char} (hdigit : c.isDigit = false) (hspace : isSpace c = false) (hminus : c ≠ '-')
    (hplus : c ≠ '+') (s : Str) : Stops (c :: s) := by
  refine ⟨fun d t h => ?_, c, s, List.dropWhile_cons_of_neg (by rw [hspace]; exact Bool.false_ne_true), hdigit, hminus, hplus⟩
  obtain ⟨rfl, -⟩ := List.cons_eq_cons.mp h
  exact hdigit

theorem stops_space (hstop : Stops tail) : Stops (' ' :: tail) := by
  obtain ⟨-, c, s, hdrop, hchar⟩ := hstop
  refine ⟨fun d t h => ?_, c, s, hdrop, hchar⟩
  obtain ⟨rfl, -⟩ := List.cons_eq_cons.mp h
  decide

def firstOf (ps : List PlainText) : Str := (ps.head?.map Subtype.val).getD []

theorem firstOf_cons (p : PlainText) (ps : List PlainText) : firstOf (p :: ps) = p.val := rfl

theorem rangeEnd_query (hstop : Stops tail) (ps : List PlainText) :
    rangeEnd (query ps ++ ' ' :: tail) = rangeEnd (firstOf ps) := by
  have hnumber : ∀ {text s : Str}, Stops s → rangeEnd (text ++ s) = rangeEnd text := fun hs => by
    rw [rangeEnd, rangeEnd, strtol_stop hs]
  cases ps with
  | nil => exact hnumber (stops_space hstop)
  | cons p ps =>
      cases ps with
      | nil => exact hnumber (stops_space hstop)
      | cons q ps =>
          rw [query, List.append_assoc, List.cons_append]
          exact hnumber (stops_of_separator (by decide) (by decide) (by decide) (by decide) _)

theorem rangeEnd_behindOf (hstop : Stops tail) (ps : List PlainText) :
    rangeEnd (behindOf ps tail) = rangeEnd (firstOf ps) := by
  cases ps with
  | nil =>
      rw [behindOf, rangeEnd, ← List.nil_append tail, strtol_stop hstop]
      rfl
  | cons p ps => exact rangeEnd_query hstop (p :: ps)

/-- A parameter more shows to the token in front of it, and is read behind that. -/
theorem readQuery_insert (hstop : Stops tail) (t : PlainText) {front : List PlainText} (back : List PlainText) {a : PlainText}
    (hlast : front.getLast? = some a) (r : Request) : ∃ (s : Request) (b b' : Str), rangeEnd b = rangeEnd t.val ∧
      rangeEnd b' = rangeEnd (firstOf back) ∧
        readQuery tail (front ++ t :: back) r = readQuery tail (t :: back) (s.readToken a.val b) ∧
          readQuery tail (front ++ back) r = readQuery tail back (s.readToken a.val b') := by
  induction front generalizing r with
  | nil => cases hlast
  | cons p ps ih =>
      cases ps with
      | nil =>
          obtain rfl : p = a := Option.some.inj hlast
          exact ⟨r, _, _, rangeEnd_behindOf hstop (t :: back), rangeEnd_behindOf hstop back, rfl, rfl⟩
      | cons q ps =>
          rw [List.getLast?_cons_cons] at hlast
          obtain ⟨s, b, b', hb, hb', hwith, hwithout⟩ := ih hlast (r.readToken p.val (behindOf (q :: ps ++ t :: back) tail))
          have hsame : rangeEnd (behindOf (q :: ps ++ t :: back) tail) = rangeEnd (behindOf (q :: ps ++ back) tail) := by
            rw [rangeEnd_behindOf hstop, rangeEnd_behindOf hstop, List.cons_append, List.cons_append, firstOf_cons, firstOf_cons]
          refine ⟨s, b, b', hb, hb', hwith, ?_⟩
          rw [← hwithout, readToken_congr hsame]
          rfl

def queryRanges (tail : Str) : List PlainText → List (Int × Int)
  | [] => []
  | p :: ps => (Marker.range p.val (behindOf ps tail)).toList ++ queryRanges tail ps

theorem readQuery_withRanges (m : SortedMap Int Int) (ps : List PlainText) (r : Request) :
    readQuery tail ps (withRanges m r) =
      withRanges ((queryRanges tail ps).foldl (fun m e => m.insert e.1 e.2) m) (readQuery tail ps r) := by
  induction ps generalizing m r with
  | nil => rfl
  | cons p ps ih =>
      rw [readQuery, readToken_withRanges, ih, queryRanges, List.foldl_append]
      cases Marker.range p.val (behindOf ps tail) <;> rfl

end Insert

section GetRequest

/-- A GET request: what stands behind the first slash, the version, and the lines behind the first one. -/
structure GetRequest where
  path : PlainText
  version : PlainText
  rest : Str
  closed : '\x00' ∉ rest

namespace GetRequest

variable (g : GetRequest) (params : List PlainText)

def tail : Str := "HTTP/".toList ++ g.version.val

def line : Str := "GET /".toList ++ (g.path.val ++ '?' :: (query params ++ ' ' :: g.tail))

def text : Str := g.line params ++ '\r' :: '\n' :: g.rest

def inFront (front : List PlainText) : Str := (front.getLast?.map Subtype.val).getD ('/' :: g.path.val)

end GetRequest

theorem Plain.clean_line {s : Str} (h : Plain s) : Clean "\r\n".toList s := by
  intro c hc
  have hnot := h c hc
  simp only [String.reduceToList, List.mem_cons, List.not_mem_nil, or_false, not_or] at hnot ⊢
  exact ⟨hnot.1, hnot.2.1, hnot.2.2.1⟩

theorem clean_query (params : List PlainText) : Clean "\r\n".toList (query params) := by
  induction params with
  | nil => exact fun _ h => nomatch h
  | cons p ps ih =>
      cases ps with
      | nil => exact p.property.clean_line
      | cons q ps => exact p.property.clean_line.append (.cons (by decide) ih)

theorem clean_line (g : GetRequest) (params : List PlainText) : Clean "\r\n".toList (g.line params) := by
  have hget : Clean "\r\n".toList "GET /".toList := by decide
  have hhttp : Clean "\r\n".toList "HTTP/".toList := by decide
  exact hget.append (g.path.property.clean_line.append (.cons (by decide)
    ((clean_query params).append (.cons (by decide) (hhttp.append g.version.property.clean_line)))))

theorem fileOffset_line (g : GetRequest) (params : List PlainText) : fileOffset (g.line params) = some 0 := by
  have hfind : find "GET /".toList (g.line params) = some (g.line params) := rfl
  rw [fileOffset, hfind, Option.some_or, Option.map_some, Nat.sub_self]

def firstLine (g : GetRequest) (params : List PlainText) (behind : Str) (r : Request) : Request :=
  readFrom (g.line params ++ '\x00' :: '\n' :: (g.rest ++ '\x00' :: behind)) r

theorem memory_text (g : GetRequest) (params : List PlainText) (behind : Str) :
    Request.memory (g.text params) behind = g.line params ++ '\r' :: '\n' :: (g.rest ++ '\x00' :: behind) := by
  have hnul : '\x00' ∉ g.text params := by
    rw [GetRequest.text, List.mem_append, List.mem_cons, List.mem_cons, not_or, not_or, not_or]
    exact ⟨fun h => (clean_line g params _ h).1 rfl, by decide, by decide, g.closed⟩
  rw [Request.memory, cstr_of_not_mem hnul, GetRequest.text, List.append_assoc]
  rfl

theorem readTokens_line (g : GetRequest) (params : List PlainText) (behind : Str) (r : Request) :
    readTokens r (lineRead (g.line params) ('\n' :: (g.rest ++ '\x00' :: behind))).1 = firstLine g params behind r := by
  rw [lineRead, fileOffset_line]
  dsimp only
  rw [readTokens_shift]
  rfl

theorem parse_text (g : GetRequest) (params : List PlainText) (behind : Str) (r : Request) :
    r.parse (g.text params) behind =
      some (readTokens (firstLine g params behind r) (restTokens (g.rest ++ '\x00' :: behind))) := by
  obtain ⟨mem, hmem⟩ : ∃ mem, mem = g.rest ++ '\x00' :: behind := ⟨_, rfl⟩
  have hline : g.line params ≠ [] := List.cons_ne_nil _ _
  have hnul : '\x00' ∉ g.line params := fun h => (clean_line g params _ h).1 rfl
  have hnext := @next_text [] [] _ ('\n' :: mem) '\r' (fun _ h => nomatch h) hline (clean_line g params) (.inr (by decide))
  have htokens := @tokens_text [] [] _ ('\n' :: mem) '\r' (fun _ h => nomatch h) hline (clean_line g params)
    (.inr (by decide))
  rw [ScanBound.lineRead_left hnul, List.length_nil, Nat.zero_add] at hnext
  rw [List.length_nil] at htokens
  simp only [List.nil_append] at hnext htokens
  have hfront : (ScanBound.leftOf (g.line params) ++ ['\x00', '\n']).length = (g.line params).length + 2 := by
    rw [List.length_append, ScanBound.length_leftOf]
    rfl
  have hlt : mem.length < (g.line params ++ '\r' :: '\n' :: mem).length := by
    rw [List.length_append, List.length_cons, List.length_cons]
    omega
  have hrest := flatMap_tokens_append (ScanBound.leftOf (g.line params) ++ ['\x00', '\n']) mem hlt
  rw [hfront, List.append_assoc] at hrest
  have hmemory := memory_text g params behind
  have hfirst := readTokens_line g params behind r
  rw [← hmem] at hmemory hfirst ⊢
  rw [parse_eq, tokensRead, scan, Scan.start, hmemory, trace_of_some hnext, List.flatMap_cons, htokens,
    readTokens_append, readTokens_shift, hfirst]
  exact congrArg some ((congrArg (readTokens _) hrest).trans (readTokens_shift _ _ _))

/-- The memory behind the query: the version, and what is behind the line. -/
def behindQuery (g : GetRequest) (behind : Str) : Str :=
  g.tail ++ '\x00' :: '\n' :: (g.rest ++ '\x00' :: behind)

theorem plain_get : Plain "GET".toList := by decide

theorem plain_path (g : GetRequest) : Plain ('/' :: g.path.val) :=
  List.forall_mem_cons.mpr ⟨by decide, g.path.property⟩

theorem plain_tail (g : GetRequest) : Plain g.tail := by
  have hhttp : Plain "HTTP/".toList := by decide
  exact fun c hc => (List.mem_append.mp hc).elim (hhttp c) (g.version.property c)

theorem firstLine_eq (g : GetRequest) (params : List PlainText) (behind : Str) (r : Request) :
    firstLine g params behind r =
      (readQuery (behindQuery g behind) params
        (r.readToken ('/' :: g.path.val) (query params ++ ' ' :: behindQuery g behind))).readToken g.tail
          ('\n' :: (g.rest ++ '\x00' :: behind)) := by
  have hsplit : ∀ first get behind : Str, first = get ++ [' ', '/'] →
      first ++ (g.path.val ++ '?' :: (query params ++ ' ' :: g.tail)) ++ behind =
        get ++ ' ' :: (('/' :: g.path.val) ++ '?' :: (query params ++ ' ' :: (g.tail ++ behind))) := by
    rintro _ get behind rfl
    simp only [List.append_assoc, List.cons_append, List.nil_append]
  have hline : g.line params ++ '\x00' :: '\n' :: (g.rest ++ '\x00' :: behind) =
      "GET".toList ++ ' ' :: (('/' :: g.path.val) ++ '?' :: (query params ++ ' ' :: behindQuery g behind)) :=
    hsplit _ _ _ (by decide)
  rw [firstLine, hline, readFrom_piece plain_get (by decide), @readToken_of_none "GET".toList (by decide),
    readFrom_piece (plain_path g) (by decide), readFrom_query, behindQuery, readFrom_last (plain_tail g)]

end GetRequest

section Same

variable {g : GetRequest} {t : PlainText} {front back : List PlainText} {r s : Request}

theorem stops_behindQuery (g : GetRequest) (behind : Str) : Stops (behindQuery g behind) :=
  stops_of_separator (by decide) (by decide) (by decide) (by decide) _

def fromQuery (g : GetRequest) (params : List PlainText) (behind : Str) (r : Request) : Request :=
  readTokens ((readQuery (behindQuery g behind) params r).readToken g.tail ('\n' :: (g.rest ++ '\x00' :: behind)))
    (restTokens (g.rest ++ '\x00' :: behind))

def rangesFrom (g : GetRequest) (params : List PlainText) (behind : Str) : List (Int × Int) :=
  queryRanges (behindQuery g behind) params ++
    ((Marker.range g.tail ('\n' :: (g.rest ++ '\x00' :: behind))).toList ++ ranges (restTokens (g.rest ++ '\x00' :: behind)))

theorem core_fromQuery_congr (h : core r = core s) (g : GetRequest) (params : List PlainText) (behind : Str) :
    core (fromQuery g params behind r) = core (fromQuery g params behind s) :=
  core_readTokens_congr (core_readToken_congr (core_readQuery_congr h params) _ _) _

theorem fromQuery_withRanges (g : GetRequest) (params : List PlainText) (behind : Str) (m : SortedMap Int Int) (r : Request) :
    fromQuery g params behind (withRanges m r) =
      withRanges ((rangesFrom g params behind).foldl (fun m e => m.insert e.1 e.2) m) (fromQuery g params behind r) := by
  rw [fromQuery, readQuery_withRanges, readToken_withRanges, readTokens_withRanges, rangesFrom, List.foldl_append,
    List.foldl_append]
  cases Marker.range g.tail ('\n' :: (g.rest ++ '\x00' :: behind)) <;> rfl

theorem sparse_text (aliases : SortedMap Str Str) (startPosition duration : Int) (g : GetRequest) (params : List PlainText)
    (behind : Str) : (Request.sparse aliases startPosition duration (g.text params) behind).map view =
      some (view (Request.filePath aliases (fromQuery g params behind
        ((Request.new startPosition duration).readToken ('/' :: g.path.val) (query params ++ ' ' :: behindQuery g behind))))) := by
  rw [Request.sparse, parse_text, firstLine_eq]
  rfl

/-- The extended request leads to the same file, the same ranges and the same token. -/
def Same (aliases : SortedMap Str Str) (startPosition duration : Int) (g : GetRequest) (front : List PlainText)
    (t : PlainText) (back : List PlainText) (behind : Str) : Prop :=
  (Request.sparse aliases startPosition duration (g.text (front ++ t :: back)) behind).map view =
    (Request.sparse aliases startPosition duration (g.text (front ++ back)) behind).map view

/-- The two requests differ in what stands behind one token and in the parameter itself. -/
theorem same_iff_fromQuery (aliases : SortedMap Str Str) (startPosition duration : Int) (g : GetRequest)
    (front : List PlainText) (t : PlainText) (back : List PlainText) (behind : Str) :
    ∃ (s : Request) (b b' : Str), rangeEnd b = rangeEnd t.val ∧ rangeEnd b' = rangeEnd (firstOf back) ∧
      (Same aliases startPosition duration g front t back behind ↔
        view (Request.filePath aliases (fromQuery g (t :: back) behind (s.readToken (g.inFront front) b))) =
          view (Request.filePath aliases (fromQuery g back behind (s.readToken (g.inFront front) b')))) := by
  have hstop := stops_behindQuery g behind
  rw [Same, sparse_text, sparse_text, Option.some.injEq]
  cases hlast : front.getLast? with
  | none =>
      obtain rfl := List.getLast?_eq_none_iff.mp hlast
      exact ⟨_, _, _, rangeEnd_query hstop (t :: back), rangeEnd_query hstop back, Iff.rfl⟩
  | some a =>
      have hfront : g.inFront front = a.val := by
        rw [GetRequest.inFront, hlast]
        rfl
      have hsame : rangeEnd (query (front ++ t :: back) ++ ' ' :: behindQuery g behind) =
          rangeEnd (query (front ++ back) ++ ' ' :: behindQuery g behind) := by
        rw [rangeEnd_query hstop, rangeEnd_query hstop]
        cases front with
        | nil => cases hlast
        | cons p ps => rfl
      obtain ⟨s, b, b', hb, hb', hwith, hwithout⟩ := readQuery_insert hstop t back hlast
        ((Request.new startPosition duration).readToken ('/' :: g.path.val)
          (query (front ++ t :: back) ++ ' ' :: behindQuery g behind))
      refine ⟨s, b, b', hb, hb', ?_⟩
      rw [hfront, fromQuery, fromQuery, fromQuery, fromQuery, ← hwith, ← hwithout, readToken_congr hsame]

/-- A number in front of the parameter that goes on behind its end reads the same there, or its range is replaced. -/
def Quiet (g : GetRequest) (front : List PlainText) (t : PlainText) (back : List PlainText) (behind : Str) : Prop :=
  RunsOn (g.inFront front) → rangeEnd t.val = rangeEnd (firstOf back) ∨
    rangeBegin (g.inFront front) ∈ (rangesFrom g back behind).map Prod.fst

theorem same_iff_of_unmarked (ht : Unmarked t.val) (aliases : SortedMap Str Str) (startPosition duration : Int)
    (g : GetRequest) (front back : List PlainText) (behind : Str) :
    Same aliases startPosition duration g front t back behind ↔ Quiet g front t back behind := by
  obtain ⟨s, b, b', hb, hb', hsame⟩ := same_iff_fromQuery aliases startPosition duration g front t back behind
  have hskip : core (fromQuery g (t :: back) behind (s.readToken (g.inFront front) b)) =
      core (fromQuery g back behind (s.readToken (g.inFront front) b)) :=
    core_fromQuery_congr (core_readToken_unmarked ht _ _) g back behind
  rw [hsame, view_filePath_congr hskip, Quiet]
  by_cases hruns : RunsOn (g.inFront front)
  · have hsize : ∀ e, ((rangesFrom g back behind).foldl (fun m e => m.insert e.1 e.2)
        (s.parameters.mRange.insert (rangeBegin (g.inFront front)) e)).size ≠ 0 := by
      intro e
      have hkey : rangeBegin (g.inFront front) ∈ (s.parameters.mRange.insert (rangeBegin (g.inFront front)) e).keys :=
        SortedMap.mem_keys_insert.mpr (.inl rfl)
      exact Nat.ne_of_gt (SortedMap.size_pos_of_mem_keys (SortedMap.mem_keys_foldl_insert.mpr (.inr hkey)))
    rw [readToken_runsOn hruns, readToken_runsOn hruns, hb, hb', fromQuery_withRanges, fromQuery_withRanges,
      view_withRanges (hsize _) (hsize _), SortedMap.foldl_insert_inj]
    exact (imp_iff_right hruns).symm
  · rw [readToken_behind hruns]
    exact iff_of_true rfl fun h => absurd h hruns

end Same

section Shown

variable {t : PlainText} {front : List PlainText} {aliases : SortedMap Str Str} {r : Request} {v behind : Str}

def bare : GetRequest := ⟨⟨[], by decide⟩, ⟨"1.1".toList, by decide⟩, [], List.not_mem_nil⟩

def final (params : List PlainText) : Request := readQuery (behindQuery bare []) params (.new 0 0)

theorem restTokens_bare : restTokens (bare.rest ++ '\x00' :: []) = [] := by
  have hline : Scan.line ⟨bare.rest ++ '\x00' :: [], 0⟩ = none := by decide
  have hnext : Scan.next ⟨bare.rest ++ '\x00' :: [], 0⟩ = none := by rw [Scan.next, hline, Option.map_none]
  rw [restTokens, trace_of_none hnext, List.flatMap_singleton, Scan.tokens, hline]
  rfl

theorem sparse_bare (aliases : SortedMap Str Str) (params : List PlainText) :
    (Request.sparse aliases 0 0 (bare.text params) []).map view = some (view (Request.filePath aliases (final params))) := by
  have hpath : Marker.taken ('/' :: bare.path.val) = none := by decide
  have htail : Unmarked bare.tail := by
    have htaken : Marker.taken bare.tail = some .http := by decide
    intro m hm
    obtain rfl := Option.some.inj (htaken.symm.trans hm)
    decide
  have hversion := core_readToken_unmarked htail (final params) ('\n' :: (bare.rest ++ ['\x00']))
  rw [sparse_text, fromQuery, restTokens_bare, readToken_of_none hpath]
  exact congrArg some (view_filePath_congr hversion aliases)

theorem readQuery_append (tail : Str) (h : ∀ p ∈ front, ¬ RunsOn p.val) (ps : List PlainText) (r : Request) :
    readQuery tail (front ++ ps) r = readQuery tail ps (readQuery tail front r) := by
  induction front generalizing r with
  | nil => rfl
  | cons p front ih =>
      rw [List.cons_append, readQuery, readQuery, ih (fun q hq => h q (List.mem_cons_of_mem p hq)),
        readToken_behind (h p List.mem_cons_self)]

/-- Whether a parameter behind a query shows is a question of what its marker changes. -/
theorem same_bare_iff {m : Marker} (hm : Marker.taken t.val = some m) (hv : m.value t.val = some v)
    (hfront : ∀ p ∈ front, ¬ RunsOn p.val) : Same aliases 0 0 bare front t [] [] ↔
      view (Request.filePath aliases (m.change v (behindQuery bare []) (final front))) =
        view (Request.filePath aliases (final front)) := by
  have hlast : final (front ++ [t]) = m.change v (behindQuery bare []) (final front) := by
    rw [final, readQuery_append _ hfront, ← final, readQuery, readQuery, Marker.readToken_eq, hm, Option.map_some,
      Option.getD_some, hv, Option.getD_some]
    rfl
  rw [Same, sparse_bare, sparse_bare, Option.some.injEq, List.append_nil, hlast]

theorem inFront_bare (h : ∀ p ∈ front, ¬ RunsOn p.val) : ¬ RunsOn (bare.inFront front) := by
  rw [GetRequest.inFront]
  cases hlast : front.getLast? with
  | none => decide
  | some a => exact h a (List.mem_of_getLast? hlast)

theorem view_token (aliases : SortedMap Str Str) (r : Request) :
    (view (Request.filePath aliases r)).2.2 = r.parameters.mData.token := by
  rw [view_filePath]
  split
  · rfl
  split <;> rfl

theorem view_mRange_of_not_isAac (h : r.parameters.mData.isAac = false) (aliases : SortedMap Str Str) :
    (view (Request.filePath aliases r)).2.1 = r.parameters.mRange := by
  rw [view_filePath]
  split
  · rfl
  split
  · rfl
  · exact if_neg fun haac => absurd (h.symm.trans haac.1) Bool.false_ne_true

/-- Behind some query a parameter with this value shows. -/
def Shown (m : Marker) (v : Str) : Prop := ∃ (aliases : SortedMap Str Str) (front : List PlainText),
  (∀ p ∈ front, ¬ RunsOn p.val) ∧
    view (Request.filePath aliases (m.change v (behindQuery bare []) (final front))) ≠
      view (Request.filePath aliases (final front))

theorem shown_of_complete {m : Marker} (hfront : ∀ p ∈ front, ¬ RunsOn p.val)
    (h : MediaPath.Complete (final front) ↔ ¬ MediaPath.Complete (m.change v (behindQuery bare []) (final front))) :
    Shown m v := by
  refine ⟨.empty, front, hfront, fun hsame => ?_⟩
  have hpath : (Request.filePath .empty (m.change v (behindQuery bare []) (final front))).1 =
      (Request.filePath .empty (final front)).1 := congrArg (fun found => found.1) hsame
  by_cases hcomplete : MediaPath.Complete (final front)
  · rw [MediaPath.filePath_of_not_complete (h.mp hcomplete)] at hpath
    exact MediaPath.filePath_ne_nil hcomplete hpath.symm
  · rw [MediaPath.filePath_of_not_complete hcomplete] at hpath
    exact MediaPath.filePath_ne_nil (not_not.mp (mt h.mpr hcomplete)) hpath

def oneId : PlainText := ⟨"id=1".toList, by decide⟩

def someModule : PlainText := ⟨"module=m".toList, by decide⟩

def oneDate : PlainText := ⟨"date=1".toList, by decide⟩

def oneHash : PlainText := ⟨"hash=2".toList, by decide⟩

def longToken : PlainText := ⟨"token=0123456789abcdef0123456789abcdef".toList, by decide⟩

theorem shown_token (v : Str) : Shown .token v := by
  by_cases hlength : v.length < TOKEN_SIZE
  · refine ⟨.empty, [longToken], by decide, fun h => ?_⟩
    have htoken := congrArg (fun found => found.2.2) h
    rw [view_token, view_token, Marker.change] at htoken
    have hkept : (final [longToken]).parameters.mData.token ≠ none := by decide
    exact hkept (htoken.symm.trans (if_pos hlength))
  · refine ⟨.empty, [], by decide, fun h => ?_⟩
    have htoken := congrArg (fun found => found.2.2) h
    rw [view_token, view_token, Marker.change] at htoken
    have hnone : (final []).parameters.mData.token = none := by decide
    cases (if_neg hlength).symm.trans (htoken.trans hnone)

theorem shown_bytes (v : Str) : Shown .bytes v := by
  refine ⟨.empty, [], by decide, fun h => ?_⟩
  have hmap := congrArg (fun found => found.2.1) h
  rw [view_mRange_of_not_isAac rfl, view_mRange_of_not_isAac rfl] at hmap
  have hempty : (final []).parameters.mRange.size = 0 := by decide
  have hkey : ∃ k, k ∈ (Marker.bytes.change v (behindQuery bare []) (final [])).parameters.mRange.keys :=
    ⟨_, SortedMap.mem_keys_insert.mpr (.inl rfl)⟩
  obtain ⟨k, hk⟩ := hkey
  rw [hmap] at hk
  exact absurd hempty (Nat.ne_of_gt (SortedMap.size_pos_of_mem_keys hk))

theorem shown_id (v : Str) : Shown .id v := by
  have hmodule : (final [oneDate, oneHash]).module = none := by decide
  refine @shown_of_complete [oneDate, oneHash] _ _ (by decide) (iff_of_true (by decide) fun h => ?_)
  generalize final [oneDate, oneHash] = r at h hmodule
  exact (h.2.1 rfl).2 hmodule

theorem shown_module (v : Str) : Shown .module v := by
  refine @shown_of_complete [oneId] _ _ (by decide) (iff_of_false (by decide) (not_not.mpr ?_))
  have haac : (final [oneId]).parameters.mData.isAac = true := by decide
  have hid : (final [oneId]).id ≠ 0 := by decide
  have hmp3 : (final [oneId]).isMp3 = false := by decide
  exact ⟨.inl haac, fun _ => ⟨hid, Option.some_ne_none v⟩, fun h => absurd (hmp3.symm.trans h) Bool.false_ne_true⟩

theorem shown_date (v : Str) : Shown .date v := by
  have hhash : (final [oneId, someModule]).hash = none := by decide
  refine @shown_of_complete [oneId, someModule] _ _ (by decide) (iff_of_true (by decide) fun h => ?_)
  generalize final [oneId, someModule] = r at h hhash
  exact (h.2.2 rfl).2 hhash

theorem shown_hash (v : Str) : Shown .hash v := by
  refine @shown_of_complete [oneDate] _ _ (by decide) (iff_of_false (by decide) (not_not.mpr ?_))
  have hmp3 : (final [oneDate]).isMp3 = true := by decide
  have hdate : (final [oneDate]).date ≠ none := by decide
  have haac : (final [oneDate]).parameters.mData.isAac = false := by decide
  exact ⟨.inr hmp3, fun h => absurd (haac.symm.trans h) Bool.false_ne_true, fun _ => ⟨hdate, Option.some_ne_none v⟩⟩

theorem exists_alias (v : Str) : ∃ (front : List PlainText) (x : Str), x ≠ v ∧ (∀ p ∈ front, ¬ RunsOn p.val) ∧
    MediaPath.Complete (final front) ∧ (final front).aliasName = some x := by
  by_cases h : v = "x".toList
  · refine ⟨[oneId, someModule, ⟨"alias=y".toList, by decide⟩], "y".toList, fun hy => ?_, by decide, by decide, by decide⟩
    exact absurd (hy.trans h) (by decide)
  · exact ⟨[oneId, someModule, ⟨"alias=x".toList, by decide⟩], "x".toList, Ne.symm h, by decide, by decide, by decide⟩

theorem shown_aliasName (v : Str) : Shown .aliasName v := by
  obtain ⟨front, x, hne, hfront, hcomplete, halias⟩ := exists_alias v
  refine ⟨SortedMap.empty.insert x ['d'], front, hfront, fun h => ?_⟩
  have hchanged : MediaPath.Complete (Marker.aliasName.change v (behindQuery bare []) (final front)) := hcomplete
  have hpath : (Request.filePath (SortedMap.empty.insert x ['d']) (Marker.aliasName.change v (behindQuery bare []) (final front))).1 =
      (Request.filePath (SortedMap.empty.insert x ['d']) (final front)).1 := congrArg (fun found => found.1) h
  rw [MediaPath.filePath_of_complete hchanged, MediaPath.filePath_of_complete hcomplete] at hpath
  have hroot := List.append_cancel_right (List.append_cancel_right hpath)
  have hfound : Request.aliasPath (SortedMap.empty.insert x ['d']) (final front) = ['d'] := by
    rw [Request.aliasPath, halias, Option.getD_some, SortedMap.find?_insert_self, Option.getD_some]
  have hnone : Request.aliasPath (SortedMap.empty.insert x ['d'])
      (Marker.aliasName.change v (behindQuery bare []) (final front)) = [] := by
    rw [Request.aliasPath, Marker.change, Option.getD_some, SortedMap.find?_insert_of_ne _ hne.symm]
    rfl
  rw [hfound, hnone] at hroot
  cases hroot

theorem exists_not_same (ht : ¬ Unmarked t.val) : ∃ (aliases : SortedMap Str Str) (front : List PlainText),
    ¬ RunsOn (bare.inFront front) ∧ ¬ Same aliases 0 0 bare front t [] [] := by
  simp only [Unmarked, not_forall] at ht
  obtain ⟨m, hm, hother⟩ := ht
  obtain ⟨v, hv⟩ := Marker.value_of_taken hm
  have hshown : Shown m v := by
    cases m with
    | token => exact shown_token v
    | id => exact shown_id v
    | module => exact shown_module v
    | date => exact shown_date v
    | hash => exact shown_hash v
    | bytes => exact shown_bytes v
    | aliasName => exact shown_aliasName v
    | _ => exact absurd (by decide) hother
  obtain ⟨aliases, front, hfront, hdiffer⟩ := hshown
  exact ⟨aliases, front, inFront_bare hfront, mt (same_bare_iff hm hv hfront).mp hdiffer⟩

/-- A parameter changes no request, where no number in front of it goes on in it, just when it is taken for
nothing a file depends on; and then the number in front is all that matters. -/
theorem same_iff (t : PlainText) :
    ((∀ aliases startPosition duration g front back behind, Quiet g front t back behind →
      Same aliases startPosition duration g front t back behind) ↔ Unmarked t.val) ∧
    (Unmarked t.val → ∀ aliases startPosition duration g front back behind,
      Same aliases startPosition duration g front t back behind ↔ Quiet g front t back behind) := by
  refine ⟨⟨fun h => ?_, fun ht aliases startPosition duration g front back behind => ?_⟩,
    fun ht aliases startPosition duration g front back behind => ?_⟩
  · by_contra hmarked
    obtain ⟨aliases, front, hfront, hnot⟩ := exists_not_same hmarked
    exact hnot (h aliases 0 0 bare front [] [] fun hruns => absurd hruns hfront)
  · exact (same_iff_of_unmarked ht aliases startPosition duration g front back behind).mpr
  · exact same_iff_of_unmarked ht aliases startPosition duration g front back behind

def known : List Str :=
  ["token", "start", "id", "module", "date", "hash", "alias", "login", "password"].map String.toList

/-- `id=` stands in `myid=5`: the file for a date becomes a track without a module. -/
theorem not_same_myid : ¬ ∀ (aliases : SortedMap Str Str) (startPosition duration : Int) (g : GetRequest)
    (front back : List PlainText) (behind n v : Str) (hplain : Plain (n ++ '=' :: v)), n ∉ known →
      Same aliases startPosition duration g front ⟨n ++ '=' :: v, hplain⟩ back behind := by
  intro hevery
  have hsame := hevery MediaPath.demoAliases 0 0 bare [oneDate, oneHash] [] [] "myid".toList "5".toList (by decide) (by decide)
  rw [Same, sparse_bare, sparse_bare] at hsame
  have hwithout : (view (Request.filePath MediaPath.demoAliases (final [oneDate, oneHash]))).1 = "/media/1/2.mp3".toList := by
    decide +kernel
  have hwith : (view (Request.filePath MediaPath.demoAliases
      (final [oneDate, oneHash, ⟨"myid=5".toList, by decide⟩]))).1 = [] := by decide +kernel
  have hpath := congrArg (fun found => found.1) (Option.some.inj hsame)
  cases hwith.symm.trans (hpath.trans hwithout)

end Shown

end RadioServices.Musicgo.UnknownParameter

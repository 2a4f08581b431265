import RadioServices.Lib.CString

namespace RadioServices.Accordion.Url

open Lib Lib.C

def MAX_URL : Nat := 2048

def DEFAULT_PORT : Int := 80

structure UrlData where
  queryString : Str
  path : Str
  protocol : Str
  host : Str
  port : Int
  deriving DecidableEq

structure Turl where
  urlData : UrlData
  errorUrl : Bool
  deriving DecidableEq

def init : Turl := ⟨⟨[], [], [], [], DEFAULT_PORT⟩, false⟩

/-- The string of the characters between two positions. `none` where the second stands in front of the first. -/
def string (uri : Str) (first last : Nat) : Option Str :=
  if last < first then none else some ((uri.take last).drop first)

def find (uri : Str) (first last : Nat) (c : Char) : Option Nat :=
  (string uri first last).map fun s => first + (s.takeWhile (· ≠ c)).length

def readProtocol (uri protocol : Str) : Option (Str × Nat) := do
  let protocolEnd ← find uri 0 uri.length ':'
  let prot := cstr (uri.drop protocolEnd)
  if protocolEnd ≠ uri.length ∧ 3 < prot.length ∧ prot.take 3 = "://".toList then
    return (← string uri 0 protocolEnd, protocolEnd + 3)
  else return (protocol, 0)

def readPort (uri : Str) (port : Int) (hostEnd portEnd : Nat) : Option Int :=
  if hostEnd ≠ uri.length ∧ uri.getD hostEnd '\x00' = ':' then
    (string uri (hostEnd + 1) portEnd).map fun s => if atoi s = 0 then DEFAULT_PORT else atoi s
  else some port

/-- The path and the query. They are kept where none starts. -/
def readPart (uri part : Str) (first last : Nat) : Option Str :=
  if first ≠ uri.length then string uri first last else some part

/-- `none` where a range of characters ends before it begins. -/
def parse (t : Turl) (uri : Str) : Option Turl :=
  if uri.length = 0 then some { t with errorUrl := true }
  else do
    let uriEnd := uri.length
    let queryStart ← find uri 0 uriEnd '?'
    let (protocol, hostStart) ← readProtocol uri t.urlData.protocol
    let pathStart ← find uri hostStart uriEnd '/'
    let portEnd := if pathStart ≠ uriEnd then pathStart else queryStart
    let hostEnd ← find uri hostStart portEnd ':'
    let host ← string uri hostStart hostEnd
    let port ← readPort uri t.urlData.port hostEnd portEnd
    let path ← readPart uri t.urlData.path pathStart queryStart
    let queryString ← readPart uri t.urlData.queryString queryStart uriEnd
    return ⟨⟨queryString, path, protocol, host, port⟩, false⟩

def queryText (path host : Str) : Str :=
  "GET ".toList ++ path ++ " HTTP/1.1\nHost: ".toList ++ host ++
    "\r\nUser_Agent: radio-accordion\r\nAccept-Language: en-us\r\n\r\n".toList

/-- `none` where the text does not find room in the buffer. -/
def getQuery (t : Turl) : Option Str :=
  let text := queryText (cstr t.urlData.path) (cstr t.urlData.host)
  if MAX_URL < text.length then none else some text

section Ranges

variable {uri : Str} {first last p : Nat} {c : Char}

theorem string_eq (a b d : Str) : string (a ++ b ++ d) a.length (a.length + b.length) = some b := by
  rw [string, if_neg (by omega), ← List.length_append, List.take_left, List.drop_left]

theorem string_end (a b : Str) : string (a ++ b) a.length (a ++ b).length = some b := by
  rw [string, if_neg (by rw [List.length_append]; omega), List.take_length, List.drop_left]

theorem find_eq (a b d : Str) (c : Char) :
    find (a ++ b ++ d) a.length (a.length + b.length) c = some (a.length + (b.takeWhile (· ≠ c)).length) := by
  rw [find, string_eq, Option.map_some]

theorem find_end (a b : Str) (c : Char) :
    find (a ++ b) a.length (a ++ b).length c = some (a.length + (b.takeWhile (· ≠ c)).length) := by
  rw [find, string_end, Option.map_some]

theorem find_all (uri : Str) (c : Char) : find uri 0 uri.length c = some (uri.takeWhile (· ≠ c)).length := by
  have hfind := find_end [] uri c
  rwa [List.nil_append, List.length_nil, Nat.zero_add] at hfind

theorem find_of_le (h : first ≤ uri.length) (c : Char) :
    find uri first uri.length c = some (first + ((uri.drop first).takeWhile (· ≠ c)).length) := by
  have hfind := find_end (uri.take first) (uri.drop first) c
  rwa [List.take_append_drop, List.length_take_of_le h] at hfind

theorem string_isSome : (string uri first last).isSome = true ↔ first ≤ last := by
  rw [string]
  split <;> simp <;> omega

theorem find_isSome : (find uri first last c).isSome = true ↔ first ≤ last := by
  rw [find, Option.isSome_map, string_isSome]

theorem find_le (h : find uri first last c = some p) : first ≤ p ∧ p ≤ last := by
  obtain ⟨s, hs, rfl⟩ := Option.map_eq_some_iff.mp h
  rw [string] at hs
  split at hs
  · cases hs
  have hlength := (List.takeWhile_sublist (fun d => decide (d ≠ c)) (l := s)).length_le
  have hs := congrArg List.length (Option.some.inj hs)
  rw [List.length_drop, List.length_take] at hs
  omega

theorem getD_of_find (h : find uri first last c = some p) (hp : p < last) (hlast : last ≤ uri.length) :
    uri.getD p '\x00' = c := by
  obtain ⟨s, hs, rfl⟩ := Option.map_eq_some_iff.mp h
  rw [string] at hs
  split at hs
  · cases hs
  have hs := Option.some.inj hs
  have hlength : s.length = last - first := by
    rw [← hs, List.length_drop, List.length_take_of_le hlast]
  have hmem : c ∈ s := by
    by_contra hnot
    rw [Cut.takeWhile_ne_of_not_mem hnot] at hp
    omega
  obtain ⟨a, b, rfl, ha⟩ := List.eq_append_cons_of_mem hmem
  rw [Cut.takeWhile_ne_append ha] at hp ⊢
  have hget : ((uri.take last).drop first)[a.length]? = some c := by
    rw [hs, List.getElem?_append_right (Nat.le_refl _), Nat.sub_self, List.getElem?_cons_zero]
  rw [List.getElem?_drop, List.getElem?_take_of_lt hp] at hget
  rw [List.getD_eq_getElem?_getD, hget, Option.getD_some]

end Ranges

section Positions

variable (uri : Str)

def queryStart : Nat := (uri.takeWhile (· ≠ '?')).length

/-- Behind the first colon, where a protocol ends there. -/
def hostStart : Nat :=
  let prot := cstr (uri.dropWhile (· ≠ ':'))
  if 3 < prot.length ∧ prot.take 3 = "://".toList then (uri.takeWhile (· ≠ ':')).length + 3 else 0

def pathStart : Nat := hostStart uri + ((uri.drop (hostStart uri)).takeWhile (· ≠ '/')).length

def portEnd : Nat := if pathStart uri ≠ uri.length then pathStart uri else queryStart uri

/-- No question mark stands in front of the host, nor between its start and a slash. -/
def Ordered : Prop :=
  '?' ∉ uri.take (hostStart uri) ∧
    ('/' ∈ uri.drop (hostStart uri) → '?' ∉ (uri.drop (hostStart uri)).takeWhile (· ≠ '/'))

variable {uri}

theorem readProtocol_eq (protocol : Str) :
    readProtocol uri protocol =
      some (if hostStart uri = 0 then protocol else uri.takeWhile (· ≠ ':'), hostStart uri) := by
  rw [readProtocol, find_all, Option.bind_eq_bind, Option.bind_some, Cut.drop_length_takeWhile, hostStart]
  by_cases hprot : 3 < (cstr (uri.dropWhile (· ≠ ':'))).length ∧
      (cstr (uri.dropWhile (· ≠ ':'))).take 3 = "://".toList
  · have hcolon : (uri.takeWhile (· ≠ ':')).length ≠ uri.length := by
      intro hall
      rw [Cut.dropWhile_ne_of_not_mem (Cut.length_takeWhile_ne_eq.mp hall)] at hprot
      exact absurd hprot.1 (by decide)
    have hstring := string_eq [] (uri.takeWhile (· ≠ ':')) (uri.dropWhile (· ≠ ':'))
    rw [List.nil_append, List.takeWhile_append_dropWhile, List.length_nil, Nat.zero_add] at hstring
    rw [if_pos ⟨hcolon, hprot⟩, hstring, if_pos hprot, if_neg (Nat.succ_ne_zero _)]
    rfl
  · rw [if_neg fun h => hprot h.2, if_neg hprot, if_pos rfl]
    rfl

theorem hostStart_le : hostStart uri ≤ uri.length := by
  rw [hostStart]
  split
  · rename_i h
    have hlength := congrArg List.length (List.takeWhile_append_dropWhile (p := (· ≠ ':')) (l := uri))
    have hcstr : (cstr (uri.dropWhile (· ≠ ':'))).length ≤ (uri.dropWhile (· ≠ ':')).length :=
      (List.takeWhile_sublist _).length_le
    rw [List.length_append] at hlength
    omega
  · exact Nat.zero_le _

/-- What is parsed, with the positions by what they stand at. -/
theorem parse_eq (t : Turl) (h : uri ≠ []) : parse t uri = do
    let hostEnd ← find uri (hostStart uri) (portEnd uri) ':'
    let host ← string uri (hostStart uri) hostEnd
    let port ← readPort uri t.urlData.port hostEnd (portEnd uri)
    let path ← readPart uri t.urlData.path (pathStart uri) (queryStart uri)
    let queryString ← readPart uri t.urlData.queryString (queryStart uri) uri.length
    return ⟨⟨queryString, path, if hostStart uri = 0 then t.urlData.protocol else uri.takeWhile (· ≠ ':'), host, port⟩,
      false⟩ := by
  rw [parse, if_neg (by rwa [List.length_eq_zero_iff])]
  dsimp only
  rw [find_all, Option.bind_eq_bind, Option.bind_some, readProtocol_eq, Option.bind_eq_bind, Option.bind_some]
  dsimp only
  rw [find_of_le hostStart_le, Option.bind_eq_bind, Option.bind_some]
  rfl

theorem parse_of_parts {t : Turl} {hostEnd : Nat} {host path query : Str} {port : Int} (hne : uri ≠ [])
    (hfind : find uri (hostStart uri) (portEnd uri) ':' = some hostEnd)
    (hhost : string uri (hostStart uri) hostEnd = some host)
    (hport : readPort uri t.urlData.port hostEnd (portEnd uri) = some port)
    (hpath : readPart uri t.urlData.path (pathStart uri) (queryStart uri) = some path)
    (hquery : readPart uri t.urlData.queryString (queryStart uri) uri.length = some query) :
    parse t uri = some ⟨⟨query, path, if hostStart uri = 0 then t.urlData.protocol else uri.takeWhile (· ≠ ':'), host,
      port⟩, false⟩ := by
  rw [parse_eq t hne]
  simp only [hfind, hhost, hport, hpath, hquery, Option.bind_eq_bind, Option.bind_some, Option.pure_def]

theorem pathStart_eq_length : pathStart uri = uri.length ↔ '/' ∉ uri.drop (hostStart uri) := by
  have hle : hostStart uri ≤ uri.length := hostStart_le
  rw [← Cut.length_takeWhile_ne_eq, pathStart, List.length_drop]
  omega

theorem ordered_iff :
    Ordered uri ↔ hostStart uri ≤ portEnd uri ∧ (pathStart uri ≠ uri.length → pathStart uri ≤ queryStart uri) := by
  rw [Ordered, portEnd]
  by_cases hslash : '/' ∈ uri.drop (hostStart uri)
  · have hne : pathStart uri ≠ uri.length := fun heq => pathStart_eq_length.mp heq hslash
    have hle : pathStart uri ≤ uri.length := (find_le (find_of_le hostStart_le '/')).2
    have htake : uri.take (pathStart uri) =
        uri.take (hostStart uri) ++ (uri.drop (hostStart uri)).takeWhile (· ≠ '/') := by
      rw [pathStart, List.take_add, ← List.prefix_iff_eq_take.mp (List.takeWhile_prefix _)]
    have hquery := Cut.le_length_takeWhile_ne (c := '?') hle
    rw [htake, List.mem_append, not_or] at hquery
    rw [if_pos hne, queryStart]
    constructor
    · rintro ⟨hhost, hpath⟩
      exact ⟨Nat.le_add_right _ _, fun _ => hquery.mpr ⟨hhost, hpath hslash⟩⟩
    · rintro ⟨-, hpath⟩
      obtain ⟨hhost, hbetween⟩ := hquery.mp (hpath hne)
      exact ⟨hhost, fun _ => hbetween⟩
  · have heq := pathStart_eq_length.mpr hslash
    have hle : hostStart uri ≤ uri.length := hostStart_le
    have hquery := Cut.le_length_takeWhile_ne (c := '?') hle
    rw [if_neg (not_not.mpr heq), queryStart, hquery]
    exact ⟨fun h => ⟨h.1, fun hne => absurd heq hne⟩, fun h => ⟨h.1, fun hmem => absurd hmem hslash⟩⟩

theorem portEnd_le : portEnd uri ≤ uri.length := by
  rw [portEnd]
  split
  · exact (find_le (find_of_le hostStart_le '/')).2
  · exact (find_le (find_all uri '?')).2

theorem getD_portEnd (h : portEnd uri ≠ uri.length) : uri.getD (portEnd uri) '\x00' ≠ ':' := by
  have hlt := Nat.lt_of_le_of_ne portEnd_le h
  rw [portEnd] at hlt ⊢
  split
  · rename_i hne
    rw [if_pos hne] at hlt
    rw [pathStart, getD_of_find (find_of_le hostStart_le '/') hlt (Nat.le_refl _)]
    decide
  · rename_i heq
    rw [if_neg heq] at hlt
    rw [queryStart, getD_of_find (find_all uri '?') hlt (Nat.le_refl _)]
    decide

/-- Every range of characters is formed forwards just when the question mark is no part of what is in front of the
path. -/
theorem parse_isSome_iff (t : Turl) : (parse t uri).isSome = true ↔ Ordered uri := by
  by_cases hnil : uri = []
  · subst hnil
    exact iff_of_true rfl ⟨List.not_mem_nil, fun h => absurd h List.not_mem_nil⟩
  rw [parse_eq t hnil, ordered_iff]
  constructor
  · intro h
    obtain ⟨r, hr⟩ := Option.isSome_iff_exists.mp h
    obtain ⟨hostEnd, hfind, hr⟩ := Option.bind_eq_some_iff.mp hr
    obtain ⟨host, -, hr⟩ := Option.bind_eq_some_iff.mp hr
    obtain ⟨port, -, hr⟩ := Option.bind_eq_some_iff.mp hr
    obtain ⟨path, hpath, -⟩ := Option.bind_eq_some_iff.mp hr
    refine ⟨find_isSome.mp (Option.isSome_of_eq_some hfind), fun hne => ?_⟩
    rw [readPart, if_pos hne] at hpath
    exact string_isSome.mp (Option.isSome_of_eq_some hpath)
  · rintro ⟨hauthority, hpath⟩
    obtain ⟨hostEnd, hfind⟩ := Option.isSome_iff_exists.mp (find_isSome (c := ':').mpr hauthority)
    obtain ⟨hstart, hend⟩ := find_le hfind
    have hhost : (string uri (hostStart uri) hostEnd).isSome = true := string_isSome.mpr hstart
    obtain ⟨host, hhost⟩ := Option.isSome_iff_exists.mp hhost
    have hport : (readPort uri t.urlData.port hostEnd (portEnd uri)).isSome = true := by
      rw [readPort]
      split
      · rename_i hcolon
        rw [Option.isSome_map, string_isSome]
        refine Nat.lt_of_le_of_ne hend fun heq => ?_
        rw [heq] at hcolon
        exact getD_portEnd hcolon.1 hcolon.2
      · rfl
    obtain ⟨port, hport⟩ := Option.isSome_iff_exists.mp hport
    have hpart : (readPart uri t.urlData.path (pathStart uri) (queryStart uri)).isSome = true := by
      rw [readPart]
      split
      · rename_i hne
        exact string_isSome.mpr (hpath hne)
      · rfl
    obtain ⟨path, hpath⟩ := Option.isSome_iff_exists.mp hpart
    have hquery : (readPart uri t.urlData.queryString (queryStart uri) uri.length).isSome = true := by
      rw [readPart]
      split
      · exact string_isSome.mpr (find_le (find_all uri '?')).2
      · rfl
    obtain ⟨query, hquery⟩ := Option.isSome_iff_exists.mp hquery
    rw [← parse_eq t hnil, parse_of_parts hnil hfind hhost hport hpath hquery]
    rfl

end Positions

end RadioServices.Accordion.Url

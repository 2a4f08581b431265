import RadioServices.Accordion.Url
import RadioServices.Lib.Decimal

namespace RadioServices.Accordion.UrlComponents

open Lib Lib.C Url

/-- A URL `scheme://host[:port][path][?query]`. -/
structure Components where
  scheme : Str
  host : Str
  port : Option Nat
  path : Str
  query : Option Str
  scheme_chars : ':' ∉ scheme ∧ '/' ∉ scheme ∧ '?' ∉ scheme
  host_chars : ':' ∉ host ∧ '/' ∉ host ∧ '?' ∉ host
  port_range : ∀ p, port = some p → 1 ≤ p ∧ p ≤ 65535
  path_root : path = [] ∨ ∃ p, path = '/' :: p
  path_chars : '?' ∉ path
  noNul : '\x00' ∉ scheme ∧ '\x00' ∉ host ∧ '\x00' ∉ path ∧ ∀ q, query = some q → '\x00' ∉ q

namespace Components

variable (u : Components)

def portPart : Str := match u.port with
  | none => []
  | some p => ':' :: Nat.toDigits 10 p

def portNumber : Int := match u.port with
  | none => DEFAULT_PORT
  | some p => p

def queryPart : Str := match u.query with
  | none => []
  | some q => '?' :: q

def authority : Str := u.host ++ u.portPart

def protocolPart : Str := u.scheme ++ "://".toList

def behindProtocol : Str := u.authority ++ (u.path ++ u.queryPart)

def text : Str := u.protocolPart ++ u.behindProtocol

def Yields : Prop :=
  parse init u.text = some ⟨⟨u.queryPart, u.path, u.scheme, u.host, u.portNumber⟩, false⟩

def Asks : Prop :=
  (parse init u.text).bind getQuery = some (queryText (u.path ++ u.queryPart) u.host)

section Characters

variable {u}

theorem mem_portPart {c : Char} (hdigit : c.isDigit = false) (h : c ∈ u.portPart) : c = ':' := by
  rw [portPart] at h
  split at h
  · cases h
  · rcases List.mem_cons.mp h with heq | hmem
    · exact heq
    · exact absurd hmem (Decimal.not_mem_toDigits hdigit _)

theorem not_mem_authority {c : Char} (hhost : c ∉ u.host) (hdigit : c.isDigit = false) (hcolon : c ≠ ':') :
    c ∉ u.authority := by
  rw [authority, List.mem_append, not_or]
  exact ⟨hhost, fun h => hcolon (mem_portPart hdigit h)⟩

theorem slash_not_mem_authority : '/' ∉ u.authority :=
  not_mem_authority u.host_chars.2.1 (by decide) (by decide)

theorem query_not_mem_authority : '?' ∉ u.authority :=
  not_mem_authority u.host_chars.2.2 (by decide) (by decide)

theorem nul_not_mem_behindProtocol : '\x00' ∉ u.behindProtocol := by
  obtain ⟨-, hhost, hpath, hquery⟩ := u.noNul
  rw [behindProtocol, List.mem_append, List.mem_append, not_or, not_or]
  refine ⟨not_mem_authority hhost (by decide) (by decide), hpath, ?_⟩
  rw [queryPart]
  split
  · exact List.not_mem_nil
  · rename_i q hq
    rw [List.mem_cons, not_or]
    exact ⟨by decide, hquery q hq⟩

theorem query_not_mem_front : '?' ∉ u.protocolPart ++ u.authority ++ u.path := by
  rw [List.mem_append, List.mem_append, not_or, not_or, protocolPart, List.mem_append, not_or]
  exact ⟨⟨⟨u.scheme_chars.2.2, by decide⟩, query_not_mem_authority⟩, u.path_chars⟩

theorem takeWhile_queryPart {s : Str} (h : '?' ∉ s) : (s ++ u.queryPart).takeWhile (· ≠ '?') = s := by
  rw [queryPart]
  split
  · rw [List.append_nil, Cut.takeWhile_ne_of_not_mem h]
  · exact Cut.takeWhile_ne_append h _

theorem text_eq_front : u.text = u.protocolPart ++ u.authority ++ u.path ++ u.queryPart := by
  simp only [text, behindProtocol, List.append_assoc]

theorem length_protocolPart : u.protocolPart.length = u.scheme.length + 3 := List.length_append

end Characters

section Parsed

variable {u}

theorem queryStart_text : queryStart u.text = (u.protocolPart ++ u.authority ++ u.path).length := by
  rw [queryStart, text_eq_front, takeWhile_queryPart query_not_mem_front]

theorem cut_protocol : u.text.takeWhile (· ≠ ':') = u.scheme ∧
    u.text.dropWhile (· ≠ ':') = "://".toList ++ u.behindProtocol := by
  have htext : u.text = u.scheme ++ ':' :: ('/' :: '/' :: u.behindProtocol) := by
    rw [text, protocolPart, List.append_assoc]
    rfl
  rw [htext]
  exact ⟨Cut.takeWhile_ne_append u.scheme_chars.1 _, Cut.dropWhile_ne_append u.scheme_chars.1 _⟩

theorem hostStart_text :
    hostStart u.text = if u.behindProtocol = [] then 0 else u.protocolPart.length := by
  have hcstr : cstr ("://".toList ++ u.behindProtocol) = "://".toList ++ u.behindProtocol := by
    refine cstr_of_not_mem ?_
    rw [List.mem_append, not_or]
    exact ⟨by decide, nul_not_mem_behindProtocol⟩
  have hlength : ("://".toList ++ u.behindProtocol).length = 3 + u.behindProtocol.length := List.length_append
  have htake : ("://".toList ++ u.behindProtocol).take 3 = "://".toList := rfl
  rw [hostStart, cut_protocol.1, cut_protocol.2, hcstr, hlength, htake, length_protocolPart]
  by_cases hnil : u.behindProtocol = []
  · rw [if_pos hnil, hnil, if_neg (by simp)]
  · have hpos := List.length_pos_iff.mpr hnil
    rw [if_neg hnil, if_pos ⟨by omega, rfl⟩]

theorem slash_mem {p : Str} (hpath : u.path = '/' :: p) : '/' ∈ u.behindProtocol := by
  rw [behindProtocol, hpath]
  exact List.mem_append_right _ List.mem_cons_self

theorem drop_hostStart (hne : u.behindProtocol ≠ []) :
    hostStart u.text = u.protocolPart.length ∧ u.text.drop (hostStart u.text) = u.behindProtocol := by
  have hstart := hostStart_text (u := u)
  rw [if_neg hne] at hstart
  refine ⟨hstart, ?_⟩
  rw [hstart, text, List.drop_left]

theorem pathStart_of_path (hne : u.behindProtocol ≠ []) {p : Str} (hpath : u.path = '/' :: p) :
    pathStart u.text = (u.protocolPart ++ u.authority).length := by
  obtain ⟨hstart, hdrop⟩ := drop_hostStart hne
  rw [pathStart, hdrop, hstart, behindProtocol, hpath, List.cons_append,
    Cut.takeWhile_ne_append slash_not_mem_authority, List.length_append]

theorem pathStart_of_nil (hne : u.behindProtocol ≠ []) (hpath : u.path = []) (hquery : '/' ∉ u.queryPart) :
    pathStart u.text = u.text.length := by
  rw [pathStart_eq_length, (drop_hostStart hne).2, behindProtocol, hpath, List.nil_append, List.mem_append, not_or]
  exact ⟨slash_not_mem_authority, hquery⟩

theorem portEnd_text (hne : u.behindProtocol ≠ []) (hquery : u.path = [] → '/' ∉ u.queryPart) :
    portEnd u.text = (u.protocolPart ++ u.authority).length := by
  rw [portEnd]
  rcases u.path_root with hpath | ⟨p, hpath⟩
  · rw [pathStart_of_nil hne hpath (hquery hpath), if_neg (not_not.mpr rfl), queryStart_text, hpath, List.append_nil]
  · rw [pathStart_of_path hne hpath, if_pos]
    rw [ne_eq, ← pathStart_of_path hne hpath, pathStart_eq_length, (drop_hostStart hne).2, not_not]
    exact slash_mem hpath

theorem readPort_text (hend : portEnd u.text = (u.protocolPart ++ u.authority).length) :
    readPort u.text DEFAULT_PORT (u.protocolPart ++ u.host).length (portEnd u.text) = some u.portNumber := by
  rw [readPort]
  cases hport : u.port with
  | none =>
      have hnumber : u.portNumber = DEFAULT_PORT := by rw [portNumber, hport]
      have hauthority : u.authority = u.host := by rw [authority, portPart, hport, List.append_nil]
      rw [hauthority] at hend
      rw [← hend, if_neg fun h => getD_portEnd h.1 h.2, hnumber]
  | some p =>
      have hnumber : u.portNumber = p := by rw [portNumber, hport]
      have hauthority : u.authority = u.host ++ ([':'] ++ Nat.toDigits 10 p) := by
        rw [authority, portPart, hport]
        rfl
      have htext : u.text = (u.protocolPart ++ u.host) ++ ([':'] ++ (Nat.toDigits 10 p ++ (u.path ++ u.queryPart))) := by
        simp only [text, behindProtocol, hauthority, List.append_assoc]
      have hcolon : u.text.getD (u.protocolPart ++ u.host).length '\x00' = ':' := by
        rw [htext]
        exact Cut.getD_length_append _ _ _ _
      have hinside : (u.protocolPart ++ u.host).length ≠ u.text.length := by
        have hlength := congrArg List.length htext
        simp only [List.length_append, List.length_singleton] at hlength ⊢
        omega
      have hdigits := string_eq (u.protocolPart ++ u.host ++ [':']) (Nat.toDigits 10 p) (u.path ++ u.queryPart)
      have hrange := u.port_range p hport
      have hatoi : atoi (Nat.toDigits 10 p) = p := by
        have h := atoi_toDigits noDigit_nil p
        rwa [List.append_nil, i32_saturate (by omega)] at h
      have hstring : string u.text ((u.protocolPart ++ u.host).length + 1) (portEnd u.text) =
          some (Nat.toDigits 10 p) := by
        rw [hend, hauthority, htext]
        simp only [List.append_assoc, List.length_append, List.length_singleton, Nat.add_assoc] at hdigits ⊢
        exact hdigits
      rw [if_pos ⟨hinside, hcolon⟩, hstring, Option.map_some, hatoi, if_neg (by omega), hnumber]

/-- A text with something behind the protocol is parsed into its components, unless a slash of the query is taken
for that of a path. -/
theorem parse_text (hne : u.behindProtocol ≠ []) (hquery : u.path = [] → '/' ∉ u.queryPart) : u.Yields := by
  have hstart := (drop_hostStart hne).1
  have hend := portEnd_text hne hquery
  have htext : u.text ≠ [] := by
    rw [text]
    exact List.append_ne_nil_of_right_ne_nil _ hne
  have hfind : Url.find u.text (hostStart u.text) (portEnd u.text) ':' = some (u.protocolPart ++ u.host).length := by
    have hhost : u.authority.takeWhile (· ≠ ':') = u.host := by
      rw [authority, portPart]
      split
      · rw [List.append_nil, Cut.takeWhile_ne_of_not_mem u.host_chars.1]
      · exact Cut.takeWhile_ne_append u.host_chars.1 _
    have hfind := find_eq u.protocolPart u.authority (u.path ++ u.queryPart) ':'
    rw [hhost, ← List.length_append, ← List.length_append] at hfind
    rw [hstart, hend, text, behindProtocol, ← List.append_assoc]
    exact hfind
  have hhost : string u.text (hostStart u.text) (u.protocolPart ++ u.host).length = some u.host := by
    have hstring := string_eq u.protocolPart u.host (u.portPart ++ (u.path ++ u.queryPart))
    rw [hstart, List.length_append, text, behindProtocol, authority]
    simp only [List.append_assoc] at hstring ⊢
    exact hstring
  have hpath : readPart u.text init.urlData.path (pathStart u.text) (queryStart u.text) = some u.path := by
    rw [readPart]
    rcases u.path_root with hpath | ⟨p, hpath⟩
    · rw [pathStart_of_nil hne hpath (hquery hpath), if_neg (not_not.mpr rfl), hpath]
      rfl
    · have hstring := string_eq (u.protocolPart ++ u.authority) u.path u.queryPart
      rw [← List.length_append, ← text_eq_front, ← queryStart_text, ← pathStart_of_path hne hpath] at hstring
      have hslash : pathStart u.text ≠ u.text.length := by
        rw [ne_eq, pathStart_eq_length, (drop_hostStart hne).2, not_not]
        exact slash_mem hpath
      rw [if_pos hslash, hstring]
  have hpart : readPart u.text init.urlData.queryString (queryStart u.text) u.text.length = some u.queryPart := by
    have hstring := string_end (u.protocolPart ++ u.authority ++ u.path) u.queryPart
    rw [readPart, queryStart_text]
    rw [← text_eq_front] at hstring
    by_cases hnil : u.queryPart = []
    · rw [hnil, if_neg]
      · rfl
      · rw [text_eq_front, hnil, List.append_nil]
        exact not_not.mpr rfl
    · rw [if_pos, hstring]
      have hpos := List.length_pos_iff.mpr hnil
      have hlength := congrArg List.length (text_eq_front (u := u))
      rw [List.length_append] at hlength
      omega
  have hparse := parse_of_parts (t := init) htext hfind hhost (readPort_text hend) hpath hpart
  have hprotocol : hostStart u.text ≠ 0 := by
    rw [hstart, length_protocolPart]
    omega
  rw [if_neg hprotocol, cut_protocol.1] at hparse
  exact hparse

end Parsed

section Results

variable {u}

theorem parse_bare (h : u.behindProtocol = []) :
    parse init u.text = some ⟨⟨[], "//".toList, [], u.scheme, DEFAULT_PORT⟩, false⟩ := by
  obtain ⟨hcolon, hslash, hquery⟩ := u.scheme_chars
  have htext : u.text = u.scheme ++ ([':'] ++ "//".toList) := by
    rw [text, h, List.append_nil]
    rfl
  have hstart : hostStart u.text = 0 := by
    rw [hostStart_text, if_pos h]
  have hqueryStart : queryStart u.text = u.text.length := by
    rw [queryStart, Cut.length_takeWhile_ne_eq, htext, List.mem_append, not_or]
    exact ⟨hquery, by decide⟩
  have hauthority : '/' ∉ u.scheme ++ [':'] := by
    rw [List.mem_append, not_or]
    exact ⟨hslash, by decide⟩
  have hpathStart : pathStart u.text = (u.scheme ++ [':']).length := by
    rw [pathStart, hstart, List.drop_zero, Nat.zero_add, htext, ← List.append_assoc]
    exact congrArg List.length (Cut.takeWhile_ne_append hauthority _)
  have hinside : pathStart u.text ≠ u.text.length := by
    rw [ne_eq, pathStart_eq_length, hstart, List.drop_zero, htext, not_not, List.mem_append]
    exact .inr (by decide)
  have hend : portEnd u.text = (u.scheme ++ [':']).length := by
    rw [portEnd, if_pos hinside, hpathStart]
  have hfind : Url.find u.text (hostStart u.text) (portEnd u.text) ':' = some u.scheme.length := by
    have hfind := find_eq [] (u.scheme ++ [':']) "//".toList ':'
    rw [Cut.takeWhile_ne_append hcolon, List.nil_append, List.length_nil, Nat.zero_add, Nat.zero_add] at hfind
    rw [hstart, hend, htext, ← List.append_assoc]
    exact hfind
  have hhost : string u.text (hostStart u.text) u.scheme.length = some u.scheme := by
    have hstring := string_eq [] u.scheme ([':'] ++ "//".toList)
    rw [List.nil_append, List.length_nil, Nat.zero_add] at hstring
    rw [hstart, htext]
    exact hstring
  have hport : readPort u.text init.urlData.port u.scheme.length (portEnd u.text) = some DEFAULT_PORT := by
    have hstring := string_eq (u.scheme ++ [':']) [] "//".toList
    have hget : u.text.getD u.scheme.length '\x00' = ':' := by
      rw [htext]
      exact Cut.getD_length_append _ _ _ _
    have hlength : u.scheme.length ≠ u.text.length := by
      rw [htext, List.length_append]
      exact Nat.ne_of_lt (Nat.lt_add_of_pos_right (by decide))
    rw [List.append_nil, List.length_nil, Nat.add_zero, List.append_assoc, ← htext, ← hend] at hstring
    have hlast : u.scheme.length + 1 = portEnd u.text := (hend.trans List.length_append).symm
    rw [readPort, if_pos ⟨hlength, hget⟩, hlast, hstring]
    rfl
  have hpath : readPart u.text init.urlData.path (pathStart u.text) (queryStart u.text) = some "//".toList := by
    have hstring := string_end (u.scheme ++ [':']) "//".toList
    rw [readPart, if_pos hinside, hpathStart, hqueryStart, htext, ← List.append_assoc]
    exact hstring
  have hpart : readPart u.text init.urlData.queryString (queryStart u.text) u.text.length = some [] := by
    rw [readPart, if_neg (not_not.mpr hqueryStart)]
    rfl
  have hne : u.text ≠ [] := by
    rw [htext]
    exact List.append_ne_nil_of_right_ne_nil _ (List.cons_ne_nil _ _)
  rw [parse_of_parts hne hfind hhost hport hpath hpart, if_pos hstart]
  rfl

theorem authority_eq_nil (h : u.behindProtocol = []) : u.host = [] ∧ u.path = [] ∧ u.queryPart = [] := by
  obtain ⟨hauthority, hrest⟩ := List.append_eq_nil_iff.mp h
  exact ⟨(List.append_eq_nil_iff.mp hauthority).1, List.append_eq_nil_iff.mp hrest⟩

theorem queryPart_eq_nil : u.queryPart = [] ↔ u.query = none := by
  rw [queryPart]
  cases u.query with
  | none => simp
  | some q => simp

/-- Without a path, the slash of a query ends a path that begins behind it. -/
theorem parse_eq_none (hpath : u.path = []) (hslash : '/' ∈ u.queryPart) : parse init u.text = none := by
  rw [Option.eq_none_iff_forall_ne_some]
  intro r hr
  have hne : u.behindProtocol ≠ [] := by
    intro h
    rw [(authority_eq_nil h).2.2] at hslash
    cases hslash
  obtain ⟨-, hordered⟩ := (parse_isSome_iff init).mp (Option.isSome_of_eq_some hr)
  rw [(drop_hostStart hne).2, behindProtocol, hpath, List.nil_append] at hordered
  have hquery := hordered (List.mem_append_right _ hslash)
  rw [queryPart] at hquery hslash
  split at hslash
  · cases hslash
  · rename_i q hq
    rw [hq] at hquery
    dsimp only at hquery
    rw [List.takeWhile_append_of_pos (Cut.ne_of_not_mem slash_not_mem_authority),
      List.takeWhile_cons_of_pos (by decide)] at hquery
    exact hquery (List.mem_append_right _ List.mem_cons_self)

theorem yields_iff : u.Yields ↔ u.behindProtocol ≠ [] ∧ (u.path = [] → '/' ∉ u.queryPart) := by
  constructor
  · intro h
    constructor
    · intro hnil
      have hparse := (parse_bare hnil).symm.trans h
      have hpath := congrArg (fun t : Turl => t.urlData.path) (Option.some.inj hparse)
      rw [(authority_eq_nil hnil).2.1] at hpath
      cases hpath
    · intro hpath hslash
      have hparse := (parse_eq_none hpath hslash).symm.trans h
      cases hparse
  · exact fun h => parse_text h.1 h.2

theorem length_queryText (path host : Str) : (queryText path host).length = path.length + host.length + 77 := by
  have hget : "GET ".toList.length = 4 := rfl
  have hversion : " HTTP/1.1\nHost: ".toList.length = 16 := rfl
  have hfields : "\r\nUser_Agent: radio-accordion\r\nAccept-Language: en-us\r\n\r\n".toList.length = 57 := rfl
  have happend : ∀ a b c d e : Str, (a ++ b ++ c ++ d ++ e).length =
      a.length + b.length + c.length + d.length + e.length := fun a b c d e => by
    simp only [List.length_append]
  have hlength : (queryText path host).length = _ :=
    happend "GET ".toList path " HTTP/1.1\nHost: ".toList host
      "\r\nUser_Agent: radio-accordion\r\nAccept-Language: en-us\r\n\r\n".toList
  omega

theorem getQuery_eq {query path protocol host : Str} {port : Int} {errorUrl : Bool} (hpath : '\x00' ∉ path)
    (hhost : '\x00' ∉ host) :
    getQuery ⟨⟨query, path, protocol, host, port⟩, errorUrl⟩ =
      if MAX_URL < (queryText path host).length then none else some (queryText path host) := by
  rw [getQuery, cstr_of_not_mem hpath, cstr_of_not_mem hhost]

theorem asks_iff : u.Asks ↔
    u.query = none ∧ u.behindProtocol ≠ [] ∧ (queryText u.path u.host).length ≤ MAX_URL := by
  obtain ⟨hscheme, hhost, hpath, -⟩ := u.noNul
  rw [Asks]
  by_cases hyields : u.Yields
  · have hne := (yields_iff.mp hyields).1
    rw [hyields, Option.bind_some, getQuery_eq hpath hhost]
    constructor
    · intro h
      split at h
      · cases h
      rename_i hroom
      have hlength := congrArg List.length (Option.some.inj h)
      rw [length_queryText, length_queryText, List.length_append] at hlength
      have hquery : u.queryPart = [] := List.length_eq_zero_iff.mp (by omega)
      exact ⟨queryPart_eq_nil.mp hquery, hne, Nat.le_of_not_lt hroom⟩
    · rintro ⟨hquery, -, hroom⟩
      rw [if_neg (Nat.not_lt.mpr hroom), queryPart_eq_nil.mpr hquery, List.append_nil]
  by_cases hne : u.behindProtocol = []
  · obtain ⟨hnohost, hnopath, hnoquery⟩ := authority_eq_nil hne
    refine iff_of_false (fun h => ?_) fun h => h.2.1 hne
    rw [parse_bare hne, Option.bind_some, getQuery_eq (by decide) hscheme] at h
    split at h
    · cases h
    have hlength := congrArg List.length (Option.some.inj h)
    rw [length_queryText, length_queryText, hnohost, hnopath, hnoquery] at hlength
    have htwo : "//".toList.length = 2 := rfl
    rw [htwo, List.append_nil, List.length_nil] at hlength
    omega
  · obtain ⟨hpath, hslash⟩ : u.path = [] ∧ '/' ∈ u.queryPart := by
      by_contra hnot
      exact hyields (yields_iff.mpr ⟨hne, fun hpath hslash => hnot ⟨hpath, hslash⟩⟩)
    refine iff_of_false (fun h => ?_) fun h => ?_
    · rw [parse_eq_none hpath hslash, Option.bind_none] at h
      cases h
    · rw [queryPart_eq_nil.mpr h.1] at hslash
      cases hslash

/-- When a URL is parsed into its components, when it is requested as it is, and which texts are parsed without a
range that ends before it begins. -/
theorem url_faithful_iff (u : Components) (t : Turl) (uri : Str) :
    (u.Yields ↔ u.behindProtocol ≠ [] ∧ (u.path = [] → '/' ∉ u.queryPart)) ∧
      (u.Asks ↔ u.query = none ∧ u.behindProtocol ≠ [] ∧ (queryText u.path u.host).length ≤ MAX_URL) ∧
      ((parse t uri).isSome = true ↔ Ordered uri) :=
  ⟨yields_iff, asks_iff, parse_isSome_iff t⟩

/-- The slash of the query is taken for the beginning of the path, in front of which the path ends. -/
theorem query_slash_throws :
    ¬ ((∀ u : Components, u.Yields ∧ u.Asks) ∧ ∀ (t : Turl) (uri : Str), (parse t uri).isSome = true) := by
  intro hall
  have hparse : parse init "http://host?next=/a".toList = none := by decide +kernel
  have hsome := hall.2 init "http://host?next=/a".toList
  rw [hparse] at hsome
  cases hsome

end Results

end Components

end RadioServices.Accordion.UrlComponents

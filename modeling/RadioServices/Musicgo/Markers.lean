import RadioServices.Musicgo.Scanner

namespace RadioServices.Musicgo

open Lib Lib.C

/-- What a token can be taken for, in the order in which it is tried. -/
inductive Marker
  | token | start | id | module | date | hash | bytes | aliasName | login | password | http
  deriving DecidableEq

namespace Marker

def text : Marker → String
  | token => "token="
  | start => "start="
  | id => "id="
  | module => "module="
  | date => "date="
  | hash => "hash="
  | bytes => "bytes="
  | aliasName => "alias="
  | login => "login="
  | password => "password="
  | http => "HTTP/"

def all : List Marker := [token, start, id, module, date, hash, bytes, aliasName, login, password, http]

def value (m : Marker) (pch : Str) : Option Str := Request.value m.text pch

def taken (pch : Str) : Option Marker := all.find? fun m => (m.value pch).isSome

def change (m : Marker) (v behind : Str) (r : Request) : Request :=
  match m with
  | token =>
      let kept := if v.length < TOKEN_SIZE then none else some v
      { r with parameters := { r.parameters with mData := { r.parameters.mData with token := kept } } }
  | id =>
      { r with
        id := atoi v
        parameters := { r.parameters with mData := { r.parameters.mData with isAac := true } } }
  | module => { r with module := some v }
  | date => { r with date := some (Request.decodeDate v), isMp3 := true }
  | hash => { r with hash := some v }
  | bytes => { r with parameters := r.parameters.getBytes v behind }
  | aliasName => { r with aliasName := some v }
  | http => { r with http := some v }
  | start => r
  | login => r
  | password => r

variable {pch : Str} {m : Marker}

theorem value_of_taken {pch : Str} {m : Marker} (h : taken pch = some m) : ∃ v, m.value pch = some v := by
  have hsome := List.find?_some h
  exact Option.isSome_iff_exists.mp hsome

theorem readToken_eq (r : Request) (pch behind : Str) :
    r.readToken pch behind = ((taken pch).map fun m => m.change ((m.value pch).getD []) behind r).getD r := by
  rw [Request.readToken]
  simp only [taken, all, List.find?_cons, value, text]
  cases h : Request.value "token=" pch with
  | some v => simp [change, h]
  | none =>
  cases Request.value "start=" pch with
  | some v => simp [change]
  | none =>
  cases h : Request.value "id=" pch with
  | some v => simp [change, h]
  | none =>
  cases h : Request.value "module=" pch with
  | some v => simp [change, h]
  | none =>
  cases h : Request.value "date=" pch with
  | some v => simp [change, h]
  | none =>
  cases h : Request.value "hash=" pch with
  | some v => simp [change, h]
  | none =>
  cases h : Request.value "bytes=" pch with
  | some v => simp [change, h]
  | none =>
  cases h : Request.value "alias=" pch with
  | some v => simp [change, h]
  | none =>
  cases Request.value "login=" pch with
  | some v => simp [change]
  | none =>
  cases Request.value "password=" pch with
  | some v => simp [change]
  | none =>
  cases h : Request.value "HTTP/" pch with
  | some v => simp [change, h]
  | none => rfl

def range (pch behind : Str) : Option (Int × Int) :=
  if taken pch = some bytes then
    let (rangeF, pEnd) := strtol ((bytes.value pch).getD [])
    let rangeL := (strtol (match pEnd with
      | [] => behind
      | _ :: t => t)).1
    some (i32 rangeF, i32 rangeL.natAbs)
  else none

theorem getBytes_mRange (p : TParameters) (text behind : Str) : (p.getBytes text behind).mRange =
    p.mRange.insert (i32 (strtol text).1) (i32 (strtol (match (strtol text).2 with
      | [] => behind
      | _ :: t => t)).1.natAbs) := by
  unfold TParameters.getBytes
  generalize strtol text = read
  obtain ⟨rangeF, pEnd⟩ := read
  cases pEnd <;> rfl

theorem readToken_mRange (r : Request) (pch behind : Str) : (r.readToken pch behind).parameters.mRange =
    (range pch behind).elim r.parameters.mRange fun e => r.parameters.mRange.insert e.1 e.2 := by
  rw [readToken_eq, range]
  cases taken pch with
  | none => rfl
  | some m =>
      by_cases hm : m = bytes
      · rw [hm, if_pos rfl, Option.elim_some, Option.map_some, Option.getD_some, change, getBytes_mRange]
      · rw [if_neg fun h => hm (Option.some.inj h)]
        cases m <;> first | rfl | exact absurd rfl hm

theorem readToken_isAac (r : Request) (pch behind : Str) :
    (r.readToken pch behind).parameters.mData.isAac = (r.parameters.mData.isAac || decide (taken pch = some id)) := by
  rw [readToken_eq]
  cases taken pch with
  | none => exact (Bool.or_false _).symm
  | some m => cases m <;> first | exact (Bool.or_false _).symm | exact (Bool.or_true _).symm

end Marker

namespace Scanner

def ranges (tokens : List Token) : List (Int × Int) := tokens.filterMap fun t => Marker.range t.text t.behind

theorem readTokens_mRange (r : Request) (tokens : List Token) : (readTokens r tokens).parameters.mRange =
    (ranges tokens).foldl (fun m e => m.insert e.1 e.2) r.parameters.mRange := by
  induction tokens generalizing r with
  | nil => rfl
  | cons t tokens ih =>
      have hstep := Marker.readToken_mRange r t.text t.behind
      rw [readTokens, List.foldl_cons, ← readTokens, ih, hstep, ranges, ranges, List.filterMap_cons]
      cases Marker.range t.text t.behind with
      | none => rfl
      | some e => rfl

theorem readTokens_isAac (r : Request) (tokens : List Token) : (readTokens r tokens).parameters.mData.isAac =
    (r.parameters.mData.isAac || tokens.any fun t => decide (Marker.taken t.text = some .id)) := by
  induction tokens generalizing r with
  | nil => exact (Bool.or_false _).symm
  | cons t tokens ih =>
      have hstep := Marker.readToken_isAac r t.text t.behind
      rw [readTokens, List.foldl_cons, ← readTokens, ih, hstep, List.any_cons, Bool.or_assoc]

end Scanner

end RadioServices.Musicgo

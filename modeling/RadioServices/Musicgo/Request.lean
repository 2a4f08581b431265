import RadioServices.Lib.Paths
import RadioServices.Accordion.Parameters
import RadioServices.Musicgo.Parameters
import Mathlib.Data.List.Lex

namespace RadioServices.Musicgo

open Lib Lib.C
open Accordion (find getSubPath)

def STATUS_EMPTY : Nat := 0x01

def STATUS_ID : Nat := 0x02

def STATUS_MODULE : Nat := 0x04

def TOKEN_SIZE : Nat := 32

def DEFAULT_ALIAS : Str := "101.ru".toList

/-- The parameters and what is read of a request besides the token and the ranges. -/
structure Request where
  parameters : TParameters
  isMp3 : Bool
  http : Option Str
  id : Int
  module : Option Str
  date : Option Str
  hash : Option Str
  aliasName : Option Str

/-- What `strtok` finds: the address of a token, its text, the address at which the
next call goes on, and the memory with the end of the token. -/
structure Token where
  pch : Nat
  text : Str
  next : Nat
  mem : Str

def strtok (delim mem : Str) (p : Nat) : Option Token :=
  let start := p + ((mem.drop p).takeWhile fun c => decide (c ∈ delim)).length
  let text := (mem.drop start).takeWhile fun c => decide (c ≠ '\x00' ∧ c ∉ delim)
  let stop := start + text.length
  if text = [] then none
  else if mem.getD stop '\x00' = '\x00' then some ⟨start, text, stop, mem⟩
  else some ⟨start, text, stop + 1, mem.set stop '\x00'⟩

namespace Request

def new (startPosition duration : Int) : Request where
  parameters := ⟨startPosition, duration, ⟨false, none⟩, .empty, 0⟩
  isMp3 := false
  http := none
  id := 0
  module := none
  date := none
  hash := none
  aliasName := none

def value (marker : String) (pch : Str) : Option Str :=
  (find marker.toList pch).map fun pdata => pdata.drop marker.toList.length

def decodeDate (ds : Str) : Str :=
  match find "%2F".toList ds with
  | none => ds
  | some found => ds.take (ds.length - found.length) ++ '/' :: found.drop 3

/-- One turn of the loop of `get_file_data`, with the memory behind the end of the
token. The values of `start=`, `login=` and `password=` are not used for the file. -/
def readToken (r : Request) (pch behind : Str) : Request :=
  if let some token := value "token=" pch then
    let kept := if token.length < TOKEN_SIZE then none else some token
    { r with parameters := { r.parameters with mData := { r.parameters.mData with token := kept } } }
  else if (value "start=" pch).isSome = true then r
  else if let some id := value "id=" pch then
    { r with
      id := atoi id
      parameters := { r.parameters with mData := { r.parameters.mData with isAac := true } } }
  else if let some module := value "module=" pch then { r with module := some module }
  else if let some date := value "date=" pch then { r with date := some (decodeDate date), isMp3 := true }
  else if let some hash := value "hash=" pch then { r with hash := some hash }
  else if let some bytes := value "bytes=" pch then { r with parameters := r.parameters.getBytes bytes behind }
  else if let some aliasName := value "alias=" pch then { r with aliasName := some aliasName }
  else if (value "login=" pch).isSome = true then r
  else if (value "password=" pch).isSome = true then r
  else if let some http := value "HTTP/" pch then { r with http := some http }
  else r

/-- `none` where the loop does not end. -/
def getFileData : Nat → Str → Nat → Request → Option (Request × Str)
  | 0, _, _, _ => none
  | fuel + 1, mem, v, r =>
      match strtok " ?&".toList mem v with
      | none => some (r, mem)
      | some t => getFileData fuel t.mem t.next (r.readToken t.text (t.mem.drop (t.pch + t.text.length + 1)))

/-- What one line does. Other lines are for the log alone. -/
def readLine (r : Request) (t : Token) : Option (Request × Str) :=
  if let some pdata := find "GET /".toList t.text then
    getFileData (t.mem.length + 1) t.mem (t.pch + (t.text.length - pdata.length)) r
  else if let some pdata := find "Range:".toList t.text then
    getFileData (t.mem.length + 1) t.mem (t.pch + (t.text.length - pdata.length)) r
  else some (r, t.mem)

/-- The loop over the lines. The address at which it goes on counts the lines it was given, not
what was skipped in front of them. -/
def readLines : Nat → Str → Nat → Request → Option Request
  | 0, _, _, _ => none
  | fuel + 1, mem, pshift, r =>
      match strtok "\r\n".toList mem pshift with
      | none => some r
      | some t => do
          let (r, mem) ← r.readLine t
          readLines fuel mem (pshift + t.text.length + 2) r

/-- The request as a string, its end and the memory behind it. -/
def memory (recvStr behind : Str) : Str := cstr recvStr ++ '\x00' :: behind

def parse (r : Request) (recvStr behind : Str) : Option Request :=
  readLines ((memory recvStr behind).length + 1) (memory recvStr behind) 0 r

def withHttp (r : Request) : Request := { r with http := some (r.http.getD "1.1".toList) }

def withAlias (r : Request) : Request := { r with aliasName := some (r.aliasName.getD DEFAULT_ALIAS) }

def withStatus (r : Request) (status : Nat) : Request :=
  { r with parameters := { r.parameters with pidStatus := status } }

/-- A track without a range is sent from its beginning. -/
def withRange (r : Request) : Request :=
  if r.parameters.mData.isAac = true ∧ r.parameters.mRange.size = 0 then
    { r with parameters := { r.parameters with mRange := r.parameters.mRange.insert 0 0 } }
  else r

/-- The directory of the request's alias. `operator[]` puts an empty one into the map when it has none. -/
def aliasPath (aliases : SortedMap Str Str) (r : Request) : Str :=
  (aliases.find? (r.aliasName.getD DEFAULT_ALIAS)).getD []

/-- The second half of `sparse`: the path, empty where the request is not complete. -/
def filePath (aliases : SortedMap Str Str) (r : Request) : Str × Request :=
  if r.parameters.mData.isAac = false ∧ r.isMp3 = false then ([], r.withHttp.withStatus STATUS_EMPTY)
  else if r.parameters.mData.isAac = true ∧ (r.id = 0 ∨ r.module = none) then
    ([], r.withHttp.withStatus (r.parameters.pidStatus ||| (STATUS_ID ||| STATUS_MODULE)))
  else if r.isMp3 = true ∧ (r.date = none ∨ r.hash = none) then
    ([], r.withHttp.withRange.withStatus (r.parameters.pidStatus ||| (STATUS_ID ||| STATUS_MODULE)))
  else if r.parameters.mData.isAac = true then
    (aliasPath aliases r ++ r.module.getD [] ++ '/' :: getSubPath r.id ++ '/' :: (toString r.id).toList ++
      ".aac".toList, r.withHttp.withRange.withAlias)
  else (aliasPath aliases r ++ r.date.getD [] ++ '/' :: r.hash.getD [] ++ ".mp3".toList,
    r.withHttp.withRange.withAlias)

/-- `none` where a loop does not end. -/
def sparse (aliases : SortedMap Str Str) (startPosition duration : Int) (recvStr behind : Str) :
    Option (Str × Request) := do
  let r ← (new startPosition duration).parse recvStr behind
  return filePath aliases r

end Request

end RadioServices.Musicgo

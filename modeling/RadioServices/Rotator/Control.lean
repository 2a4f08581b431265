import RadioServices.Lib.SortedMap
import RadioServices.Rotator.Php
import RadioServices.Rotator.Timer
import Mathlib.Data.String.Basic
import Mathlib.Data.List.Lex

namespace RadioServices.Rotator

open Lib Lib.C

def DEFAULT_RULES : Str := "rules".toList
def DEFAULT_FOLDERS : Str := "folders".toList
def DEFAULT_TRACKS : Str := "tracks".toList
def DEFAULT_HISTORY : Str := "history".toList
def DEFAULT_ORDER : Str := "order".toList
def DEFAULT_SCHEDULE : Str := "schedule".toList
def DEFAULT_SINGER : Str := "executor".toList
def DEFAULT_TITLE : Str := "title".toList
def DEFAULT_DURATION : Str := "duration".toList
def DEFAULT_SERVICE : Str := "service".toList

def START_INDEX : Nat := 0
def MAX_INCREASE_COUNTER : Int := 3

def EMPTY_ERROR : Nat := 0x00
def EXECUTOR_ERROR : Nat := 0x01
def TRACK_ERROR : Nat := 0x02
def INPUT_ARRAY_ERROR : Nat := 0x08

structure TRules where
  singerLimit : Int
  trackLimit : Int
  returnInterval : Int
  maxRules : Int

structure THistory where
  singer : Str
  title : Str
  statistics : Int

abbrev MHistory := SortedMap Int THistory

structure THFolders where
  ht : HashTable
  index : Nat
  service : Bool
  statistics : Int

abbrev HFolders := SortedMap Str THFolders
abbrev Order := SortedMap Int Str
abbrev Schedule := SortedMap Int Order

structure Addition where
  folder : Str
  service : Bool
  executor : Str
  title : Str
  data : HashTable

def Addition.track (a : Addition) : Str × Str := (a.executor, a.title)

inductive Param
  | none
  | maxTracks (n : Int)
  | generalDuration (s : Str)

/-- What the object depends on beside its arguments: the hash the engine gives
a string key, the clock, and the value of a flag read before it is set. -/
structure Env where
  hash : Str → Int
  clock : Clock
  unsetFlag : Bool

structure TRotatorCtrl where
  array : HashTable
  playList : List HashTable
  order : Bool
  schedule : Bool
  specialConditions : Bool
  maxTracks : Int
  error : Nat
  generalDuration : Option Str
  constructionComplete : Bool
  timer : TTimer
  maxHtSize : Nat
  foldersOrder : Order
  folders : SortedMap Str Bool
  hfolders : HFolders
  increaseCounter : Int
  previosPlaylistSize : Int
  sRules : TRules
  mRules : SortedMap Str TRules
  sSchedule : Schedule
  /-- The schedule iterator, by its key; `none` is `end()`. -/
  it : Option Int
  mHistory : MHistory
  setStartFolder : Bool
  /-- Every track added since construction, oldest first. The code keeps no such list. -/
  added : List Addition

namespace TRotatorCtrl

def size (c : TRotatorCtrl) : Int := c.playList.length

def increaseMaxHtSize (c : TRotatorCtrl) (value : Nat) : TRotatorCtrl :=
  { c with maxHtSize := if c.maxHtSize < value then value else c.maxHtSize }

/-- A limit given as a string or as a number; any other type leaves the default. -/
def ruleValue (rules : Option HashTable) (name : Str) (default : Int) : Int :=
  match rules.bind (findDataInNode · name) with
  | some (.string s) => atoi (cstr s)
  | some (.long n) => i32 n
  | _ => default

def searchRules (c : TRotatorCtrl) (node : HashTable) (commonRules : Bool) : TRules :=
  let (singer, track, interval) :=
    if commonRules then
      let rules := getNodePtr node DEFAULT_RULES
      (ruleValue rules "singer_interval".toList 0, ruleValue rules "track_interval".toList 0,
        ruleValue rules "folder_interval".toList 0)
    else (c.sRules.singerLimit, c.sRules.trackLimit, c.sRules.returnInterval)
  ⟨singer, track, interval, if singer < track then track else singer⟩

/-- A folder that is no array is read as one: only a zero number is harmless. -/
def searchTracks (c : TRotatorCtrl) (node : Zval) (keyWord : Str) : Option TRotatorCtrl :=
  match node with
  | .array ht =>
      match getNodePtr ht DEFAULT_TRACKS with
      | none => some c
      | some tracks =>
          if arraySize tracks = 0 then some c
          else
            let service := match findDataInNode ht DEFAULT_SERVICE with
              | some .isTrue => true
              | _ => false
            let hf : THFolders := ⟨tracks, searchNextHashIndex tracks START_INDEX, service, 1⟩
            some <| increaseMaxHtSize { c with
              hfolders := c.hfolders.insert keyWord hf
              folders := c.folders.insert keyWord true } (arraySize tracks)
  | .long 0 => some c
  | _ => none

def searchFolder (c : TRotatorCtrl) (e : ZendKey × Zval) : Option TRotatorCtrl :=
  match e.1 with
  | .long _ => some c
  | .str key => do
      let c ← c.searchTracks e.2 key
      if (c.hfolders.find? (cstr key)).isSome then
        return { c with mRules := c.mRules.insert key (c.searchRules [] false) }
      else return c

/-- The flag is the result of the source function. -/
def searchFolders (c : TRotatorCtrl) (arr : HashTable) : Option (Bool × TRotatorCtrl) :=
  match getNodePtr arr DEFAULT_FOLDERS with
  | none => some (false, c)
  | some ht =>
      if arraySize ht = 0 then some (false, c)
      else do return (true, ← ht.foldlM searchFolder c)

def numIndex (env : Env) : ZendKey → Int
  | .long h => h
  | .str s => env.hash s

/-- An empty string on either side counts as equal. -/
def isEqual (s t : Str) : Bool :=
  if s.length = 0 || t.length = 0 then true else strncmpEq s t t.length

def calcStatisticsInHistory (history : HashTable) (title : Str) : Int :=
  (history.countP fun e => match e.2 with
    | .array ht => match findDataInNode ht DEFAULT_TITLE with
      | some (.string t) => isEqual title t
      | _ => false
    | _ => false : Nat)

def searchHistoryEntry (env : Env) (history : HashTable) (m : MHistory) (e : ZendKey × Zval) :
    Option MHistory :=
  match e.2 with
  | .array ht =>
      match findDataInNode ht DEFAULT_SINGER, findDataInNode ht DEFAULT_TITLE with
      | some (.string singer), some (.string title) =>
          some (m.insert (i32 (numIndex env e.1))
            ⟨singer, title, calcStatisticsInHistory history title⟩)
      | some _, some _ => none
      | _, _ => some m
  | _ => some m

def searchHistory (env : Env) (c : TRotatorCtrl) (arr : HashTable) : Option TRotatorCtrl :=
  match getNodePtr arr DEFAULT_HISTORY with
  | none => some c
  | some ht => do return { c with mHistory := (← ht.foldlM (searchHistoryEntry env ht) c.mHistory) }

def searchOrderEntry (env : Env) (c : TRotatorCtrl) (e : ZendKey × Zval) : TRotatorCtrl :=
  match e.2 with
  | .string s =>
      match c.hfolders.find? (cstr s) with
      | none => c
      | some hf => increaseMaxHtSize
          { c with foldersOrder := c.foldersOrder.insert (i32 (numIndex env e.1)) (cstr s) }
          (arraySize hf.ht)
  | _ => c

def defaultOrderEntry (c : TRotatorCtrl) (e : (Str × THFolders) × Nat) : TRotatorCtrl :=
  increaseMaxHtSize { c with foldersOrder := c.foldersOrder.insert e.2 e.1.1 } (arraySize e.1.2.ht)

/-- `m_order = search_order(arr)`. -/
def searchOrder (env : Env) (c : TRotatorCtrl) (arr : HashTable) : TRotatorCtrl :=
  let c := { c with foldersOrder := .empty, maxHtSize := 0 }
  let c := match getNodePtr arr DEFAULT_ORDER with
    | none => c.hfolders.entries.zipIdx.foldl defaultOrderEntry c
    | some ht =>
        if arraySize ht = 0 then c.hfolders.entries.zipIdx.foldl defaultOrderEntry c
        else ht.foldl (searchOrderEntry env) c
  { c with order := 0 < c.foldersOrder.size }

/-- The folders of one hour, numbered from 0 in the order of the array. -/
def scheduleItem (c : TRotatorCtrl) (ht : HashTable) : Order :=
  ht.foldl (fun item e => match e with
    | (.long _, .string s) =>
        if (c.folders.find? (cstr s)).isSome then item.insert item.size (cstr s) else item
    | _ => item) .empty

def searchScheduleEntry (c : TRotatorCtrl) (m : Schedule) (e : ZendKey × Zval) : Schedule :=
  match e with
  | (.long h, .array ht) =>
      let item := scheduleItem c ht
      if item.size = 0 then m else m.insert (i32 h) item
  | _ => m

/-- The last key not above the hour, 0 when there is none, and the key after it. -/
def slotOfHour (hour : Int) : List Int → Int → Int × Option Int
  | [], m => (m, none)
  | k :: keys, m => if hour < k then (m, some k) else slotOfHour hour keys k

def slotLength (next : Option Int) (key : Int) : Int := next.getD DEFAULT_DAY - key

/-- The end of `search_schedule`: find the slot of the hour in the map it built. -/
def startSchedule (env : Env) (c : TRotatorCtrl) (m : Schedule) : TRotatorCtrl :=
  let slot := slotOfHour env.clock.getCurrentHour m.keys 0
  let c := { c with sSchedule := m, schedule := 0 < m.size }
  match m.find? slot.1 with
  | none => { c with it := none }
  | some item => { c with
      it := some slot.1
      timer := (c.timer.setInterval (slotLength slot.2 slot.1)).definePlaylistDuration env.clock slot.1
      foldersOrder := item
      order := 0 < item.size }

/-- `m_schedule = search_schedule(arr)`. -/
def searchSchedule (env : Env) (c : TRotatorCtrl) (arr : HashTable) : TRotatorCtrl :=
  match getNodePtr arr DEFAULT_SCHEDULE with
  | none => { c with schedule := false }
  | some ht =>
      if arraySize ht = 0 then { c with schedule := false }
      else c.startSchedule env (ht.foldl c.searchScheduleEntry c.sSchedule)

def nextSlot (c : TRotatorCtrl) : Option Int :=
  match c.it with
  | none => c.sSchedule.begin?
  | some key => c.sSchedule.upperBound key

/-- Take the order of the slot and its whole length as the interval. -/
def enterSlot (c : TRotatorCtrl) : Option Int → TRotatorCtrl
  | none => { c with it := none }
  | some key =>
      let item := (c.sSchedule.find? key).getD .empty
      { c with
        it := some key
        foldersOrder := item
        order := 0 < item.size
        timer := c.timer.setInterval (slotLength (c.sSchedule.upperBound key) key) }

def createScheduleOrder (c : TRotatorCtrl) : TRotatorCtrl := c.enterSlot c.nextSlot

def getCurrentRules (c : TRotatorCtrl) (folder : Str) : TRules :=
  (c.mRules.find? folder).getD c.sRules

def hasSpecialConditions (c : TRotatorCtrl) : Bool :=
  c.maxTracks != 0 || c.schedule || c.generalDuration.isSome

def init (env : Env) (arr : HashTable) (maxTracks : Int) (generalDuration : Option Str)
    (timer : TTimer) : TRotatorCtrl where
  array := arr
  playList := []
  order := false
  schedule := false
  specialConditions := false
  maxTracks := maxTracks
  error := EMPTY_ERROR
  generalDuration := generalDuration
  constructionComplete := env.unsetFlag
  timer := timer
  maxHtSize := 0
  foldersOrder := .empty
  folders := .empty
  hfolders := .empty
  increaseCounter := 0
  previosPlaylistSize := 0
  sRules := ⟨0, 0, 0, 0⟩
  mRules := .empty
  sSchedule := .empty
  it := none
  mHistory := .empty
  setStartFolder := false
  added := []

/-- The order of the folders is the schedule's, else the one of the array. -/
def orderFolders (env : Env) (c : TRotatorCtrl) (arr : HashTable) : TRotatorCtrl :=
  let c := c.searchSchedule env arr
  if c.schedule then c else c.searchOrder env arr

def onInitOrder (env : Env) (c : TRotatorCtrl) (arr : HashTable) : Option TRotatorCtrl := do
  let c ← (c.orderFolders env arr).searchHistory env arr
  return { c with constructionComplete := false, specialConditions := c.hasSpecialConditions }

def onInit (env : Env) (c : TRotatorCtrl) : Option TRotatorCtrl :=
  if arraySize c.array = 0 then some { c with error := INPUT_ARRAY_ERROR }
  else do
    let c := { c with sRules := c.searchRules c.array true }
    let (found, c) ← c.searchFolders c.array
    if found then c.onInitOrder env c.array else return c

/-- `none` where construction reads memory it must not read. -/
def new (env : Env) (arr : HashTable) : Param → Option TRotatorCtrl
  | .none => do (init env arr 0 none (← TTimer.new none)).onInit env
  | .maxTracks n => do (init env arr (i32 n) none (← TTimer.new none)).onInit env
  | .generalDuration s => do
      (init env arr 0 (some (cstr s)) (← TTimer.new (some (cstr s)))).onInit env

end TRotatorCtrl

section Input

def trackRecord (executor title : String) (duration : Option String) : HashTable :=
  (.str DEFAULT_SINGER, .string executor.toList) :: (.str DEFAULT_TITLE, .string title.toList) ::
    (duration.map fun s => (ZendKey.str DEFAULT_DURATION, Zval.string s.toList)).toList

def folderNode (name : String) (tracks : List HashTable) : ZendKey × Zval :=
  (.str name.toList, .array [(.str DEFAULT_TRACKS,
    .array (tracks.zipIdx.map fun e => (.long e.2, .array e.1)))])

instance instNeZeroDay : NeZero 86400 := ⟨Nat.succ_ne_zero 86399⟩

/-- Constructed at the given second of the day. -/
def Env.at (second : Fin 86400) : Env := ⟨fun _ => 0, ⟨second, second, second⟩, false⟩

end Input

end RadioServices.Rotator

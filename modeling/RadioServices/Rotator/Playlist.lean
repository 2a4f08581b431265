import RadioServices.Lib.RoundRobin
import RadioServices.Lib.Runs
import RadioServices.Lib.Spacing
import RadioServices.Rotator.Control

namespace RadioServices.Rotator

open Lib Lib.C Lib.Spacing

inductive WhatToDo
  | addToPlaylist
  | needToSkipRecord
  deriving DecidableEq

namespace TRotatorCtrl

def playlistConstructionCompleted (c : TRotatorCtrl) : Bool :=
  (0 < c.maxTracks && c.maxTracks ≤ c.size) ||
    ((c.schedule || c.generalDuration.isSome) && c.timer.is24hoursCompleted)

/-- The flag says whether another round may add tracks. -/
def playlistSizeIncrease (c : TRotatorCtrl) : Bool × TRotatorCtrl :=
  if c.previosPlaylistSize < c.size then
    (true, { c with previosPlaylistSize := c.size, increaseCounter := 0 })
  else
    let c := { c with increaseCounter := c.increaseCounter + 1 }
    if MAX_INCREASE_COUNTER < c.increaseCounter then
      let error := if c.size ≤ c.sRules.singerLimit then EXECUTOR_ERROR else c.error
      (false, { c with error := if c.size ≤ c.sRules.trackLimit then error ||| TRACK_ERROR else error })
    else (true, c)

def recordHistory (c : TRotatorCtrl) (data : HashTable) (statistics : Int) : Option MHistory :=
  match findDataInNode data DEFAULT_SINGER, findDataInNode data DEFAULT_TITLE with
  | some (.string singer), some (.string title) =>
      some (c.mHistory.insert c.mHistory.size ⟨singer, title, statistics + 1⟩)
  | some _, some _ => none
  | _, _ => some c.mHistory

def recordDuration (data : HashTable) : Option Str :=
  match findDataInNode data DEFAULT_DURATION with
  | some (.string s) => if s.length = 0 then none else some (cstr s)
  | _ => none

/-- The end of `add_to_playlist`: charge the slot with the track and leave it
once its interval is used up. -/
def chargeInterval (c : TRotatorCtrl) (sd : Option Str) : Option TRotatorCtrl :=
  if c.schedule then do
    let c := { c with timer := (← c.timer.remainedIntervalOf sd) }
    if c.timer.remainedInterval ≤ 0 then
      return { c.createScheduleOrder with setStartFolder := true }
    else return c
  else some c

def addToPlaylist (c : TRotatorCtrl) (data : HashTable) (statistics : Int) : Option TRotatorCtrl := do
  let c := { c with playList := c.playList ++ [data] }
  let c := { c with mHistory := (← c.recordHistory data statistics), increaseCounter := 0 }
  let sd := recordDuration data
  let c := { c with timer := (← c.timer.appendPlaylistDuration sd) }
  c.chargeInterval sd

def newestInHistory (m : MHistory) (p : THistory → Bool) : Option (THistory × Int) :=
  newest p (m.values.reverse) (-1)

/-- The weight of the newest entry with the title, when the rule allows it. -/
def titleStatisticsInHistory (m : MHistory) (title : Str) (ruleTrack : Int) : WhatToDo × Int :=
  match newestInHistory m (fun h => strcmpEq h.title title) with
  | none => (.addToPlaylist, 0)
  | some (h, count) =>
      if ruleTrack ≤ count then (.addToPlaylist, h.statistics) else (.needToSkipRecord, 0)

def findRecordInHistory (m : MHistory) (singer title : Str) (ruleSinger ruleTrack : Int)
    (folderStatistics : Int) : WhatToDo :=
  match newestInHistory m (fun h => strcmpEq h.singer singer) with
  | none => .addToPlaylist
  | some (_, count) =>
      if ruleSinger ≤ count then
        match titleStatisticsInHistory m title ruleTrack with
        | (.needToSkipRecord, _) => .needToSkipRecord
        | (.addToPlaylist, statistics) =>
            if 0 < statistics ∧ folderStatistics < statistics then .needToSkipRecord
            else .addToPlaylist
      else .needToSkipRecord

/-- The executor and title of a record when both are non-empty strings. -/
def validRecord (data : HashTable) : Option (Str × Str) :=
  match findDataInNode data DEFAULT_SINGER, findDataInNode data DEFAULT_TITLE with
  | some (.string singer), some (.string title) =>
      if singer.length ≠ 0 ∧ title.length ≠ 0 then some (singer, title) else none
  | _, _ => none

def whatToDo (c : TRotatorCtrl) (hf : THFolders) (folder : Str) (singer title : Str) : WhatToDo :=
  if hf.service then .addToPlaylist
  else
    let r := c.getCurrentRules (cstr folder)
    findRecordInHistory c.mHistory singer title r.singerLimit r.trackLimit hf.statistics

def addFromFolder (c : TRotatorCtrl) (hf : THFolders) (folder singer title : Str) (data : HashTable) :
    Option TRotatorCtrl := do
  let c ← c.addToPlaylist data hf.statistics
  return { c with added := c.added ++ [⟨folder, hf.service, singer, title, data⟩] }

/-- An index without a record, or with one that is no array, counts as added. -/
def findRecordInPlaylist (c : TRotatorCtrl) (hf : THFolders) (folder : Str) :
    Option (WhatToDo × TRotatorCtrl) :=
  match zendHashIndexFind hf.ht hf.index with
  | some (.array data) =>
      match validRecord data with
      | none => some (.needToSkipRecord, c)
      | some (singer, title) =>
          match c.whatToDo hf folder singer title with
          | .addToPlaylist => do return (.addToPlaylist, ← c.addFromFolder hf folder singer title data)
          | .needToSkipRecord => some (.needToSkipRecord, c)
  | _ => some (.addToPlaylist, c)

def rewindFolder (hf : THFolders) : THFolders :=
  if arraySize hf.ht ≤ hf.index then
    { hf with index := searchNextHashIndex hf.ht START_INDEX, statistics := hf.statistics + 1 }
  else hf

def advanceFolder (hf : THFolders) : THFolders :=
  { hf with index := searchNextHashIndex hf.ht (hf.index + 1) }

def setFolder (c : TRotatorCtrl) (folder : Str) (hf : THFolders) : TRotatorCtrl :=
  { c with hfolders := c.hfolders.insert folder hf }

/-- The flag a visit of the folder hands back: false at the end of a longest folder. -/
def endOfFolder (c : TRotatorCtrl) (hf : THFolders) (toNext : Bool) : Bool :=
  if arraySize hf.ht ≤ hf.index then hf.index < c.maxHtSize else toNext

/-- One try of a folder. The first flag says the visit is over. -/
def globalAnalize (c : TRotatorCtrl) (folder : Str) (toNext : Bool) :
    Option (Bool × Bool × TRotatorCtrl) := do
  let hf ← c.hfolders.find? folder
  let toNext := c.endOfFolder hf toNext
  let hf := rewindFolder hf
  let (what, c) ← (c.setFolder folder hf).findRecordInPlaylist hf folder
  let hf := advanceFolder hf
  let flNext := match what with
    | .addToPlaylist => true
    | .needToSkipRecord => arraySize hf.ht ≤ hf.index
  return (flNext, toNext, c.setFolder folder hf)

def resetFolder (hf : THFolders) : THFolders :=
  { hf with index := searchNextHashIndex hf.ht START_INDEX }

def prepareOrder (env : Env) (c : TRotatorCtrl) : TRotatorCtrl :=
  if c.schedule then
    (if c.constructionComplete then { c with it := none } else c).createScheduleOrder
  else if c.constructionComplete then c.searchOrder env c.array
  else c

/-- The flag is the result of the source function. -/
def prepare (env : Env) (c : TRotatorCtrl) : Bool × TRotatorCtrl :=
  if c.error ≠ EMPTY_ERROR then (false, c)
  else if arraySize c.array = 0 then (false, { c with error := INPUT_ARRAY_ERROR })
  else
    let c := c.prepareOrder env
    if c.constructionComplete then
      (true, { c with
        hfolders := c.hfolders.mapValues resetFolder
        timer := c.timer.clearPlaylistDuration
        constructionComplete := false
        error := EMPTY_ERROR })
    else (true, c)

end TRotatorCtrl

inductive Control
  | idle
  /-- The head of the loop over the order, at the key of the iterator. -/
  | outer (ito : Int)
  /-- The loop over one folder, with the flag the visit hands back. -/
  | inner (ito : Int) (folder : Str) (toNext : Bool)
  /-- Memory was read that must not be read. -/
  | undefined
  deriving DecidableEq

structure Machine where
  ctrl : TRotatorCtrl
  control : Control

namespace Machine

open TRotatorCtrl

def finish (c : TRotatorCtrl) : Machine := ⟨{ c with constructionComplete := true }, .idle⟩

/-- The end of a round over the folders: `prepare` and once more from the first
folder, or stop. -/
def endRound (env : Env) (c : TRotatorCtrl) : Machine :=
  if c.specialConditions then
    match c.playlistSizeIncrease with
    | (false, c) => finish c
    | (true, c) =>
        let c := (c.prepare env).2
        match c.foldersOrder.begin? with
        | none => finish c
        | some ito => ⟨c, .outer ito⟩
  else finish c

/-- The key the iterator goes to after the visit of a folder. An iterator into an
order that was replaced meanwhile is kept by its key: the next round starts from
the first folder then. -/
def nextFolder (c : TRotatorCtrl) (ito : Int) : Option Int :=
  c.foldersOrder.successor ito

def endVisit (env : Env) (c : TRotatorCtrl) (ito : Int) (toNext : Bool) : Machine :=
  if c.playlistConstructionCompleted then finish c
  else
    match nextFolder c ito, toNext with
    | some k, true => ⟨c, .outer k⟩
    | _, _ => endRound env c

def tick (env : Env) (m : Machine) : Machine :=
  match m.control with
  | .idle => m
  | .undefined => m
  | .outer ito =>
      let first := if m.ctrl.setStartFolder then m.ctrl.foldersOrder.begin? else some ito
      let c := { m.ctrl with setStartFolder := false }
      match first with
      | none => ⟨c, .undefined⟩
      | some k =>
          match c.foldersOrder.find? k with
          | none => ⟨c, .undefined⟩
          | some folder => ⟨c, .inner k folder true⟩
  | .inner ito folder toNext =>
      match m.ctrl.globalAnalize folder toNext with
      | none => ⟨m.ctrl, .undefined⟩
      | some (false, toNext, c) => ⟨c, .inner ito folder toNext⟩
      | some (true, toNext, c) => endVisit env c ito toNext

/-- The head of `create_playlist` and of `analise_folders_by_order`. -/
def createPlaylist (c : TRotatorCtrl) : Machine :=
  let c := { c with playList := [], previosPlaylistSize := 0, increaseCounter := 0 }
  if arraySize c.array = 0 ∨ c.error > EMPTY_ERROR then ⟨c, .idle⟩
  else if c.order then
    if c.hfolders.size = 0 then finish c
    else
      let c := { c with setStartFolder := false }
      match c.foldersOrder.begin? with
      | none => ⟨c, .undefined⟩
      | some ito => ⟨c, .outer ito⟩
  else finish c

inductive Event
  | createPlaylist
  | prepare
  | tick

/-- A call starts when no other one is in progress. -/
def step (env : Env) (m : Machine) : Event → Machine
  | .createPlaylist => if m.control = .idle then createPlaylist m.ctrl else m
  | .prepare => if m.control = .idle then { m with ctrl := (m.ctrl.prepare env).2 } else m
  | .tick => tick env m

def start (c : TRotatorCtrl) : Machine := ⟨c, .idle⟩

def run (env : Env) (c : TRotatorCtrl) (es : List Event) : Machine :=
  Runs.run (step env) (start c) es

end Machine

end RadioServices.Rotator

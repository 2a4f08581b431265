import RadioServices.Lib.CString
import RadioServices.Lib.MultiMap
import Mathlib.Data.String.Basic
import Mathlib.Data.List.Lex

namespace RadioServices.Logger

open Lib Lib.C

inductive TcEvent
  | evEmpty
  | evMsg
  | evDelete
  | evConfig
  | evExit
  deriving DecidableEq

def TcEvent.value : TcEvent → Int
  | .evEmpty => 0
  | .evMsg => 1
  | .evDelete => 2
  | .evConfig => 3
  | .evExit => 4

inductive TcStore
  | EMPTY_STORE
  | LOCAL_STORE
  | REMOTE_STORE
  | POSTPONE_STORE
  deriving DecidableEq

def MARKER_END : Str := "\n".toList
def DELIMITER : Char := '/'
def COMMAND_DELETE : Str := "DELETE".toList
def COMMAND_RECONFIG : Str := "RECONFIG".toList
def COMMAND_EXIT : Str := "EXIT".toList
def HEADER_DOMAIN : Str := "domain".toList
def HEADER_FILENAME : Str := "filename".toList
def HEADER_MESSAGE : Str := "message".toList
def HEADER_COMMAND : Str := "command".toList
def HEADER_ERROR : Str := "error".toList

abbrev DataMap := SortedMap Str Str

abbrev Vmessage := List Str

/-- The messages collected under each file, or each domain. -/
abbrev Mmessagelist := SortedMap Str Vmessage

structure TLogMsg where
  dm : DataMap
  string : Str
  domain : Str
  filename : Str
  cmd : Str
  msgText : Str
  ierror : Int
  event : TcEvent

namespace TLogMsg

def new (dm : DataMap) (str : Str) : TLogMsg :=
  ⟨dm, str, [], [], [], [], 0, .evEmpty⟩

def setEvent (m : TLogMsg) (ev : Str) : TLogMsg :=
  let ev := ev.map Char.toUpper
  { m with event :=
      if ev = [] then .evMsg
      else if ev = COMMAND_DELETE then .evDelete
      else if ev = COMMAND_RECONFIG then .evConfig
      else if ev = COMMAND_EXIT then .evExit
      else .evEmpty }

def header (m : TLogMsg) (h : Str) : Str := (m.dm.find? h).getD []

def parseData (m : TLogMsg) : TLogMsg :=
  let m := { m with
    domain := m.header HEADER_DOMAIN
    cmd := m.header HEADER_COMMAND
    filename := m.header HEADER_FILENAME
    msgText := m.header HEADER_MESSAGE
    ierror := if m.header HEADER_ERROR = [] then 0 else atoi (m.header HEADER_ERROR) }
  m.setEvent m.cmd

def msg (m : TLogMsg) : Str := m.msgText ++ MARKER_END

def message (m : TLogMsg) : Str := m.string ++ MARKER_END

def directoryPart (s : Str) : Option Str :=
  if DELIMITER ∈ s then some (s.reverse.dropWhile (· ≠ DELIMITER)).tail.reverse else none

def filePath (m : TLogMsg) : Str :=
  let str := match directoryPart m.filename with
    | none => []
    | some (c :: t) => if c = DELIMITER then t else c :: t
    | some [] => []
  m.domain ++ DELIMITER :: if str = [] then [] else str ++ [DELIMITER]

def globalFileName (m : TLogMsg) : Str := m.filePath ++ m.filename

def fullfilename (m : TLogMsg) : Str := m.filename

/-- The data a client sends for a file of a domain, and their packed text. -/
def clientData (command message str : Str) : TLogMsg :=
  .new (SortedMap.empty.insert "data_type".toList "logger".toList
    |>.insert HEADER_DOMAIN "shop".toList
    |>.insert HEADER_FILENAME "a.log".toList
    |>.insert HEADER_COMMAND command
    |>.insert HEADER_MESSAGE message) str

end TLogMsg

/-- What a client asked for, as `AddMessage` stores it. -/
inductive Request
  | message (file text : Str)
  | delete (domain names : Str)
  deriving DecidableEq

def Request.item : Request → Str × Str
  | .message file text => (file, text)
  | .delete domain names => (domain, names)

inductive Thread
  | messageThread
  | remoteThread
  deriving DecidableEq

inductive Notice
  | queue (thread : Thread) (value : TcEvent)
  | transmitError (error : Int) (domain msg : Str)
  | terminate

structure TClientMessage where
  messageList : Mmessagelist
  maxStoreListSize : Nat
  categoryStore : TcStore
  cmd : TcEvent
  errorLevel : Nat

namespace TClientMessage

def new (store : TcStore) (maxStoreListSize errorLevel : Nat) : TClientMessage :=
  ⟨.empty, maxStoreListSize % 2 ^ 16, store, .evEmpty, errorLevel⟩

def getMessagelistSize (t : TClientMessage) : Nat := (t.messageList.values.map List.length).sum

def onReadyTransmitMessage (t : TClientMessage) : List Notice :=
  if t.getMessagelistSize < t.maxStoreListSize then []
  else [.queue (if t.categoryStore = .LOCAL_STORE then .messageThread else .remoteThread) .evMsg]

def onDeleteMessage (_ : TClientMessage) : List Notice := [.queue .messageThread .evDelete]

def onTransmitError (t : TClientMessage) (m : TLogMsg) : List Notice :=
  if t.categoryStore = .LOCAL_STORE ∧ 0 < t.errorLevel ∧ (t.errorLevel : Int) < m.ierror % 2 ^ 32 then
    [.transmitError m.ierror m.domain m.message]
  else []

def request (t : TClientMessage) (m : TLogMsg) : Option Request :=
  match m.event with
  | .evMsg => some (.message m.globalFileName
      (if t.categoryStore = .LOCAL_STORE then m.msg else m.message))
  | .evDelete => some (.delete m.domain m.fullfilename)
  | _ => none

def pushBack (t : TClientMessage) (key str : Str) : TClientMessage :=
  { t with messageList := t.messageList.pushBack key str }

def addMessage (t : TClientMessage) (m : TLogMsg) : TClientMessage × List Notice :=
  let t := { t with cmd := .evEmpty }
  let m := m.parseData
  match m.event with
  | .evMsg =>
      let t := t.pushBack m.globalFileName (if t.categoryStore = .LOCAL_STORE then m.msg else m.message)
      (t, t.onReadyTransmitMessage ++ t.onTransmitError m)
  | .evDelete =>
      let t := t.pushBack m.domain m.fullfilename
      (t, t.onDeleteMessage)
  | .evConfig => ({ t with cmd := .evConfig }, [])
  | .evExit => (t, [.terminate])
  | .evEmpty => (t, [])

def clearMessageList (t : TClientMessage) : TClientMessage := { t with messageList := .empty }

/-- The list is what pushing the stored requests in their order builds. -/
def Holds (t : TClientMessage) (requests : List Request) : Prop :=
  t.messageList = SortedMap.collect (requests.map Request.item)

theorem addMessage_categoryStore (t : TClientMessage) (m : TLogMsg) :
    (t.addMessage m).1.categoryStore = t.categoryStore := by
  rw [addMessage]
  cases m.parseData.event <;> rfl

theorem Holds.addMessage {t : TClientMessage} {requests : List Request} (h : t.Holds requests)
    (m : TLogMsg) : (t.addMessage m).1.Holds (requests ++ (t.request m.parseData).toList) := by
  have hpush (r : Request) : t.messageList.pushBack r.item.1 r.item.2 =
      SortedMap.collect ((requests ++ [r]).map Request.item) := by
    rw [List.map_append, List.map_singleton, SortedMap.collect_concat, ← h]
  rw [Holds, TClientMessage.addMessage, request]
  cases m.parseData.event with
  | evMsg => exact hpush (.message _ _)
  | evDelete => exact hpush (.delete _ _)
  | evEmpty => simpa [Holds] using h
  | evConfig => simpa [Holds] using h
  | evExit => simpa [Holds] using h

theorem holds_clearMessageList (t : TClientMessage) : t.clearMessageList.Holds [] := rfl

end TClientMessage

end RadioServices.Logger

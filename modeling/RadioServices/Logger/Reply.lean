import RadioServices.Logger.Message

namespace RadioServices.Logger

open Lib Lib.C

def OK : Nat := 0
def ERROR_EMPTY_DOMAIN : Nat := 0x01
def ERROR_EMPTY_FILENAME : Nat := 0x02
def ERROR_EMPTY_MESSAGE : Nat := 0x04
def ERROR_EMPTY_COMMAND : Nat := 0x08
def ERROR_EMPTY_STRING : Nat :=
  ERROR_EMPTY_DOMAIN ||| ERROR_EMPTY_FILENAME ||| ERROR_EMPTY_MESSAGE ||| ERROR_EMPTY_COMMAND
def ERROR_DATA_TYPE : Nat := 0x20
def ERROR_HEADER_FORMAT : Nat := ERROR_EMPTY_DOMAIN ||| ERROR_EMPTY_FILENAME

def dataType : Str := "data_type".toList
def loggerType : Str := "logger".toList

namespace TLogMsg

def count (dm : DataMap) (h : Str) : Bool := (dm.find? h).isSome

/-- The verdict on the keys, before the reply. -/
def checkLoggerData (dm : DataMap) : Nat :=
  if count dm HEADER_MESSAGE = false ∧ count dm HEADER_COMMAND = false then
    ERROR_EMPTY_MESSAGE ||| ERROR_EMPTY_COMMAND
  else if count dm HEADER_MESSAGE then
    (if count dm HEADER_DOMAIN = false then ERROR_EMPTY_DOMAIN else OK) |||
      (if count dm HEADER_FILENAME = false then ERROR_EMPTY_FILENAME else OK)
  else OK

/-- `m_ErrorHeadersValue` as the constructor leaves it. -/
def errorHeadersValue (dm : DataMap) : Nat :=
  if dm.entries = [] then ERROR_EMPTY_STRING
  else match dm.find? dataType with
    | none => ERROR_DATA_TYPE
    | some s => if s = loggerType then checkLoggerData dm else OK

/-- The verdict on the values, which `ParseData` stores and nothing reads. -/
def getHeadersValue (m : TLogMsg) : Nat :=
  if m.msgText = [] ∧ m.cmd = [] then ERROR_EMPTY_MESSAGE ||| ERROR_EMPTY_COMMAND
  else if m.msgText ≠ [] then
    (if m.domain = [] then ERROR_EMPTY_DOMAIN else OK) |||
      (if m.filename = [] then ERROR_EMPTY_FILENAME else OK)
  else OK

end TLogMsg

namespace Reply

open TLogMsg

/-- The end of `handler_client_thread`: the code sent back and the messages after
it. -/
def handlerClientThread (t : TClientMessage) (result : DataMap) (str : Str) : Nat × TClientMessage :=
  let value := errorHeadersValue result
  (value, if value &&& ERROR_HEADER_FORMAT = 0 then (t.addMessage (.new result str)).1 else t)

def Stored (t : TClientMessage) (dm : DataMap) (str : Str) : Prop :=
  (handlerClientThread t dm str).2.messageList ≠ t.messageList

def parsed (dm : DataMap) : TLogMsg := (TLogMsg.new dm []).parseData

def IsLogMessage (dm : DataMap) : Prop :=
  (parsed dm).cmd = [] ∧ (parsed dm).domain ≠ [] ∧ (parsed dm).filename ≠ [] ∧ (parsed dm).msgText ≠ []

def IsDelete (dm : DataMap) : Prop := (parsed dm).event = .evDelete

/-- What is stored is what was acknowledged without error, and no more. -/
structure Agrees (t : TClientMessage) (dm : DataMap) (str : Str) : Prop where
  stored : Stored t dm str ↔
    (handlerClientThread t dm str).1 = OK ∧ (IsLogMessage dm ∨ IsDelete dm)
  refused : (handlerClientThread t dm str).1 ≠ OK → ¬ Stored t dm str

/-- The map is empty or bears another command, or it names its type and is a
delete command, a whole log message, or one of the logger without the key of its
domain or its file. -/
def Consistent (dm : DataMap) : Prop :=
  dm.entries = [] ∨ (parsed dm).cmd ≠ [] ∧ ¬ IsDelete dm ∨
    count dm dataType = true ∧
      (IsDelete dm ∨ IsLogMessage dm ∨
        dm.find? dataType = some loggerType ∧ count dm HEADER_MESSAGE = true ∧
          (count dm HEADER_DOMAIN = false ∨ count dm HEADER_FILENAME = false))

theorem pushBack_ne (t : TClientMessage) (key str : Str) :
    (t.pushBack key str).messageList ≠ t.messageList := by
  intro h
  have hlength := (SortedMap.items_pushBack_perm t.messageList key str).length_eq
  rw [show t.messageList.pushBack key str = t.messageList from h, List.length_cons] at hlength
  omega

theorem event_parsed (dm : DataMap) (str : Str) :
    (TLogMsg.new dm str).parseData.event = (parsed dm).event := rfl

theorem event_eq_evMsg_iff (dm : DataMap) : (parsed dm).event = .evMsg ↔ (parsed dm).cmd = [] := by
  have hset : (parsed dm).event = ((parsed dm).setEvent (parsed dm).cmd).event := rfl
  rw [hset, setEvent]
  cases (parsed dm).cmd with
  | nil => simp
  | cons c ev =>
      simp only [List.map_cons, reduceCtorEq, if_false]
      split
      · simp
      · split
        · simp
        · split <;> simp

theorem addMessage_changes_iff (t : TClientMessage) (dm : DataMap) (str : Str) :
    (t.addMessage (.new dm str)).1.messageList ≠ t.messageList ↔
      (parsed dm).cmd = [] ∨ IsDelete dm := by
  rw [← event_eq_evMsg_iff, IsDelete, ← event_parsed dm str, TClientMessage.addMessage]
  cases (TLogMsg.new dm str).parseData.event with
  | evMsg => exact iff_of_true (pushBack_ne _ _ _) (.inl rfl)
  | evDelete => exact iff_of_true (pushBack_ne _ _ _) (.inr rfl)
  | evEmpty => simp
  | evConfig => simp
  | evExit => simp

theorem stored_iff (t : TClientMessage) (dm : DataMap) (str : Str) :
    Stored t dm str ↔
      errorHeadersValue dm &&& ERROR_HEADER_FORMAT = 0 ∧ ((parsed dm).cmd = [] ∨ IsDelete dm) := by
  rw [Stored, handlerClientThread]
  by_cases h : errorHeadersValue dm &&& ERROR_HEADER_FORMAT = 0
  · rw [if_pos h, addMessage_changes_iff]
    exact ⟨fun hs => ⟨h, hs⟩, fun hs => hs.2⟩
  · rw [if_neg h]
    exact iff_of_false (fun hs => hs rfl) (fun hs => h hs.1)

theorem not_isDelete_of_cmd {dm : DataMap} (h : (parsed dm).cmd = []) : ¬ IsDelete dm := by
  intro hdelete
  rw [IsDelete, (event_eq_evMsg_iff dm).mpr h] at hdelete
  cases hdelete

theorem count_of_header_ne {dm : DataMap} {h : Str} (hne : (dm.find? h).getD [] ≠ []) :
    count dm h = true := by
  rw [count]
  cases hfind : dm.find? h with
  | none => exact absurd (by rw [hfind]; rfl) hne
  | some s => rfl

/-- The ignored verdict would tell the whole log messages from the others. -/
theorem isLogMessage_iff_getHeadersValue (dm : DataMap) :
    IsLogMessage dm ↔ (parsed dm).cmd = [] ∧ (parsed dm).getHeadersValue = OK := by
  rw [IsLogMessage, getHeadersValue]
  by_cases hmsg : (parsed dm).msgText = []
  · by_cases hcmd : (parsed dm).cmd = [] <;>
      simp [hmsg, hcmd, OK, ERROR_EMPTY_MESSAGE, ERROR_EMPTY_COMMAND]
  · by_cases hdomain : (parsed dm).domain = [] <;> by_cases hfile : (parsed dm).filename = [] <;>
      simp [hmsg, hdomain, hfile, OK, ERROR_EMPTY_DOMAIN, ERROR_EMPTY_FILENAME]

section Verdicts

variable {t : TClientMessage} {dm : DataMap} {str : Str}

theorem agrees_of_refused (h : errorHeadersValue dm &&& ERROR_HEADER_FORMAT ≠ 0) : Agrees t dm str := by
  have hnot : ¬ Stored t dm str := fun hs => h ((stored_iff t dm str).mp hs).1
  refine ⟨iff_of_false hnot ?_, fun _ => hnot⟩
  rintro ⟨hok, -⟩
  have hvalue : errorHeadersValue dm = 0 := hok
  exact h (by rw [hvalue]; rfl)

/-- A client told of an error that is not one of the header is stored all the
same. -/
theorem agrees_iff_of_told (hvalue : errorHeadersValue dm ≠ OK)
    (h : errorHeadersValue dm &&& ERROR_HEADER_FORMAT = 0) :
    Agrees t dm str ↔ (parsed dm).cmd ≠ [] ∧ ¬ IsDelete dm := by
  rw [← not_or]
  constructor
  · intro hagrees hstored
    exact hagrees.refused hvalue ((stored_iff t dm str).mpr ⟨h, hstored⟩)
  · intro hnot
    have hstored : ¬ Stored t dm str := fun hs => hnot ((stored_iff t dm str).mp hs).2
    exact ⟨iff_of_false hstored fun hs => hvalue hs.1, fun _ => hstored⟩

theorem agrees_iff_of_ok (hvalue : errorHeadersValue dm = OK) :
    Agrees t dm str ↔ ((parsed dm).cmd = [] → IsLogMessage dm) := by
  have hstored : Stored t dm str ↔ (parsed dm).cmd = [] ∨ IsDelete dm := by
    rw [stored_iff, hvalue]
    exact and_iff_right rfl
  constructor
  · intro hagrees hcmd
    rcases (hagrees.stored.mp (hstored.mpr (.inl hcmd))).2 with hlog | hdelete
    · exact hlog
    · exact absurd hdelete (not_isDelete_of_cmd hcmd)
  · intro himp
    refine ⟨?_, fun hne => absurd hvalue hne⟩
    rw [hstored]
    constructor
    · intro h
      exact ⟨hvalue, h.imp_left himp⟩
    · rintro ⟨-, h⟩
      exact h.imp_left And.left

end Verdicts

theorem errorHeadersValue_of_some {dm : DataMap} {s : Str} (h : dm.find? dataType = some s) :
    errorHeadersValue dm = if s = loggerType then checkLoggerData dm else OK := by
  have hne : dm.entries ≠ [] := by
    intro hempty
    rw [show dm = .empty from SortedMap.ext hempty] at h
    cases h
  rw [errorHeadersValue, if_neg hne, h]

theorem checkLoggerData_of_refused {dm : DataMap} (hmsg : count dm HEADER_MESSAGE = true)
    (hkey : count dm HEADER_DOMAIN = false ∨ count dm HEADER_FILENAME = false) :
    checkLoggerData dm &&& ERROR_HEADER_FORMAT ≠ 0 := by
  rw [checkLoggerData, hmsg]
  cases hdomain : count dm HEADER_DOMAIN <;> cases hfile : count dm HEADER_FILENAME <;>
    simp_all [OK, ERROR_HEADER_FORMAT, ERROR_EMPTY_DOMAIN, ERROR_EMPTY_FILENAME]

theorem checkLoggerData_of_accepted {dm : DataMap} (hdomain : count dm HEADER_DOMAIN = true)
    (hfile : count dm HEADER_FILENAME = true) (hmsg : count dm HEADER_MESSAGE = true) :
    checkLoggerData dm = OK := by
  simp [checkLoggerData, hdomain, hfile, hmsg, OK]

theorem checkLoggerData_of_no_message {dm : DataMap} (hmsg : count dm HEADER_MESSAGE = false) :
    checkLoggerData dm =
      if count dm HEADER_COMMAND = false then ERROR_EMPTY_MESSAGE ||| ERROR_EMPTY_COMMAND else OK := by
  simp [checkLoggerData, hmsg]

theorem IsLogMessage.keys {dm : DataMap} (h : IsLogMessage dm) :
    count dm HEADER_DOMAIN = true ∧ count dm HEADER_FILENAME = true ∧ count dm HEADER_MESSAGE = true :=
  ⟨count_of_header_ne h.2.1, count_of_header_ne h.2.2.1, count_of_header_ne h.2.2.2⟩

theorem agrees_iff_of_logger (t : TClientMessage) {dm : DataMap} (str : Str)
    (htype : dm.find? dataType = some loggerType) :
    Agrees t dm str ↔ (parsed dm).cmd ≠ [] ∨ IsLogMessage dm ∨
      count dm HEADER_MESSAGE = true ∧ (count dm HEADER_DOMAIN = false ∨ count dm HEADER_FILENAME = false) := by
  have hcheck : errorHeadersValue dm = checkLoggerData dm := by
    rw [errorHeadersValue_of_some htype, if_pos rfl]
  cases hmsg : count dm HEADER_MESSAGE with
  | false =>
      have hvalue := checkLoggerData_of_no_message hmsg
      have hlog : ¬ IsLogMessage dm := fun h => Bool.false_ne_true (hmsg.symm.trans h.keys.2.2)
      cases hcommand : count dm HEADER_COMMAND with
      | false =>
          rw [hcommand, if_pos rfl, ← hcheck] at hvalue
          have hcmd : (parsed dm).cmd = [] :=
            not_not.mp fun hne => Bool.false_ne_true (hcommand.symm.trans (count_of_header_ne hne))
          rw [agrees_iff_of_told (by rw [hvalue]; decide) (by rw [hvalue]; decide)]
          simp [hcmd, hlog]
      | true =>
          rw [hcommand, if_neg Bool.false_ne_true.symm, ← hcheck] at hvalue
          rw [agrees_iff_of_ok hvalue]
          tauto
  | true =>
      by_cases hkey : count dm HEADER_DOMAIN = false ∨ count dm HEADER_FILENAME = false
      · have hrefused := checkLoggerData_of_refused hmsg hkey
        rw [← hcheck] at hrefused
        exact iff_of_true (agrees_of_refused hrefused) (.inr (.inr ⟨rfl, hkey⟩))
      · rw [not_or, Bool.not_eq_false, Bool.not_eq_false] at hkey
        have hok : errorHeadersValue dm = OK := by
          rw [hcheck, checkLoggerData_of_accepted hkey.1 hkey.2 hmsg]
        rw [agrees_iff_of_ok hok]
        simp only [hkey.1, hkey.2]
        tauto

/-- The reply and the storage agree exactly on the consistent maps. -/
theorem agrees_iff (t : TClientMessage) (dm : DataMap) (str : Str) :
    Agrees t dm str ↔ Consistent dm := by
  rw [Consistent]
  by_cases hempty : dm.entries = []
  · have hvalue : errorHeadersValue dm = ERROR_EMPTY_STRING := if_pos hempty
    exact iff_of_true (agrees_of_refused (by rw [hvalue]; decide)) (.inl hempty)
  have hcmd := @not_isDelete_of_cmd dm
  cases htype : dm.find? dataType with
  | none =>
      have hcount : count dm dataType = false := by rw [count, htype]; rfl
      have hvalue : errorHeadersValue dm = ERROR_DATA_TYPE := by rw [errorHeadersValue, if_neg hempty, htype]
      rw [agrees_iff_of_told (by rw [hvalue]; decide) (by rw [hvalue]; decide)]
      simp [hempty, hcount]
  | some s =>
      have hcount : count dm dataType = true := by rw [count, htype]; rfl
      by_cases hlogger : s = loggerType
      · rw [agrees_iff_of_logger t str (hlogger ▸ htype)]
        simp only [hempty, hcount, hlogger, true_and, false_or]
        tauto
      · have hok : errorHeadersValue dm = OK := by rw [errorHeadersValue_of_some htype, if_neg hlogger]
        rw [agrees_iff_of_ok hok]
        simp only [hempty, hcount, hlogger, Option.some.injEq, true_and, false_and, false_or, or_false]
        tauto

/-- A message without its type is answered with an error and stored. -/
theorem not_agrees : ¬ ∀ (t : TClientMessage) (dm : DataMap) (str : Str), Agrees t dm str := by
  intro h
  let dm : DataMap := SortedMap.empty.insert HEADER_MESSAGE "hello".toList
    |>.insert HEADER_DOMAIN "shop".toList |>.insert HEADER_FILENAME "a.log".toList
  have hagrees := h (.new .LOCAL_STORE 500 0) dm []
  have hvalue : errorHeadersValue dm = ERROR_DATA_TYPE := by decide +kernel
  have hcmd : (parsed dm).cmd = [] := by decide +kernel
  exact hagrees.refused (by rw [handlerClientThread, hvalue]; decide)
    ((stored_iff _ _ _).mpr ⟨by rw [hvalue]; decide, .inl hcmd⟩)

end Reply

end RadioServices.Logger

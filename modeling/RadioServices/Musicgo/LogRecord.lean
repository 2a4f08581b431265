import RadioServices.Lib.Decimal
import RadioServices.Lib.Runs
import RadioServices.Musicgo.Markers
import RadioServices.Musicgo.ScanBound

namespace RadioServices.Musicgo

open Lib Lib.C Lib.Runs Scanner
open Accordion (find)

def MSG_SIZE : Nat := 4096

def MARKER_EMPTY : Str := "-".toList

def MARKER_TAB : Char := ' '

structure Text where
  chars : Str
  closed : '\x00' ∉ chars

def strdup (s : Str) : Text := ⟨cstr s, Cut.not_mem_takeWhile_ne '\x00' s⟩

/-- `TMsg_data`. The response time is the text that is written for it. -/
structure TMsgData where
  ip : Text
  username : Option Text
  userpass : Option Text
  requestTime : Option Text
  request : Option Text
  response : Int
  responseSize : Int
  userAgent : Option Text
  responseTime : Text
  referer : Option Text
  headerSize : Int
  fileSize : Int
  rangeStart : Int
  rangeStop : Int

structure Answered where
  response : Int
  responseSize : Int
  responseTime : Text
  headerSize : Int
  fileSize : Int
  rangeStart : Int
  rangeStop : Int

namespace TMsgData

def new (host time : Str) : TMsgData where
  ip := strdup host
  username := none
  userpass := none
  requestTime := some (strdup time)
  request := none
  response := 206
  responseSize := 0
  userAgent := none
  responseTime := strdup "0".toList
  referer := none
  headerSize := 0
  fileSize := 0
  rangeStart := 0
  rangeStop := 0

def readToken (l : TMsgData) (pch : Str) : TMsgData :=
  match Marker.taken pch with
  | some .login => { l with username := (Marker.login.value pch).map strdup }
  | some .password => { l with userpass := (Marker.password.value pch).map strdup }
  | _ => l

def readText (l : TMsgData) (text : Str) : TMsgData :=
  if let some pdata := find "GET /".toList text then { l with request := some (strdup pdata) }
  else if (find "Range:".toList text).isSome = true then l
  else if let some pdata := find "User-Agent:".toList text then { l with userAgent := some (strdup pdata) }
  else if let some pdata := find "Referer:".toList text then { l with referer := some (strdup pdata) }
  else l

def readTokens (l : TMsgData) (tokens : List Token) : TMsgData := run (fun l t => l.readToken t.text) l tokens

def readLine (l : TMsgData) (t : Token) : TMsgData := (l.readText t.text).readTokens (lineTokens t).1

def logged (l : TMsgData) (recvStr behind : Str) : TMsgData :=
  run (fun l s => s.line.elim l l.readLine) l (scan recvStr behind)

def answered (l : TMsgData) (a : Answered) : TMsgData :=
  { l with
    response := a.response
    responseSize := a.responseSize
    responseTime := a.responseTime
    headerSize := a.headerSize
    fileSize := a.fileSize
    rangeStart := a.rangeStart
    rangeStop := a.rangeStop }

def orEmpty (t : Option Text) : Str := (t.map Text.chars).getD MARKER_EMPTY

/-- A null pointer ends what the stream takes. -/
def getLogStr (l : TMsgData) : Str :=
  let head := l.ip.chars ++ MARKER_TAB :: orEmpty l.username ++ MARKER_TAB :: orEmpty l.userpass ++ MARKER_TAB :: '[' ::
    orEmpty l.requestTime ++ ']' :: [MARKER_TAB]
  match l.request with
  | none => head
  | some request =>
      head ++ request.chars ++ MARKER_TAB :: (toString l.response).toList ++ MARKER_TAB ::
        (toString (i32 (l.headerSize + l.responseSize))).toList ++ MARKER_TAB :: orEmpty l.referer ++ MARKER_TAB ::
        orEmpty l.userAgent ++ MARKER_TAB :: l.responseTime.chars ++ MARKER_TAB :: "( ".toList ++
        (toString l.headerSize).toList ++ MARKER_TAB :: (toString l.responseSize).toList ++ MARKER_TAB ::
        (toString l.fileSize).toList ++ MARKER_TAB :: (toString l.rangeStart).toList ++ MARKER_TAB ::
        (toString l.rangeStop).toList ++ ")\n".toList

end TMsgData

namespace LogRecord

open ScanBound (examined examinedFrom)

/-- The buffer of the message, `none` where the copy leaves it. -/
def msgSend (mMsg : Str) : Option Str :=
  if mMsg.length ≤ MSG_SIZE then some (mMsg ++ List.replicate (MSG_SIZE - mMsg.length) '\x00') else none

/-- A pointer that a function has returned: NULL, or the address of an array of its own, which has ended with it. -/
inductive Returned
  | null
  | ended (array : Str)

/-- The string that is read at the address, where the memory of the ended array holds what it does by then. -/
def Returned.read (memory : Str) : Returned → Option Str
  | .null => none
  | .ended _ => some (cstr memory)

/-- The text that `msgrcv` puts into `received`, with the memory behind that. -/
def receivedText (msg beyond : Str) : Str := cstr (msg ++ beyond)

/-- `m_len` and what is returned, for the message that the queue has. -/
def msgRecv (msg : Option Str) (beyond : Str) : Nat × Returned :=
  match msg with
  | none => (0, .null)
  | some msg => ((receivedText msg beyond).length + 1, .ended msg)

/-- The record fits with its NUL, is copied inside of the buffer and is the text that `msgrcv` has. -/
structure Arrives (record : Str) : Prop where
  fits : record.length ≤ MSG_SIZE - 1
  received : ∃ msg, msgSend record = some msg ∧ ∀ beyond, receivedText msg beyond = record

/-- The same record is read at the address that `msg_recv` returns. -/
structure Carried (record : Str) : Prop where
  arrives : Arrives record
  returned : ∃ msg, msgSend record = some msg ∧
    ∀ beyond memory, (msgRecv (some msg) beyond).2.read memory = some record

theorem arrives_iff_length {record : Str} (hnul : '\x00' ∉ record) : Arrives record ↔ record.length ≤ MSG_SIZE - 1 := by
  refine ⟨Arrives.fits, fun hle => ⟨hle, _, if_pos (hle.trans (Nat.sub_le _ _)), fun beyond => ?_⟩⟩
  obtain ⟨n, hn⟩ : ∃ n, MSG_SIZE - record.length = n + 1 :=
    Nat.exists_eq_add_one_of_ne_zero (Nat.sub_ne_zero_of_lt (Nat.lt_of_le_pred (by decide) hle))
  rw [receivedText, hn, List.replicate_succ, List.append_assoc, List.cons_append]
  exact Cut.takeWhile_ne_append hnul _

/-- Nothing is promised of an array that has ended: the memory may hold any other text. -/
theorem not_carried (record : Str) : ¬ Carried record := by
  rintro ⟨-, msg, -, hreturned⟩
  have hempty : some (cstr []) = some record := hreturned [] []
  have hother : some (cstr ['a']) = some record := hreturned [] ['a']
  exact absurd (hempty.trans hother.symm) (by decide)

section Record

variable {l : TMsgData} {request : Text}

theorem nul_not_mem_orEmpty (t : Option Text) : '\x00' ∉ TMsgData.orEmpty t := by
  cases t with
  | none => exact (by decide : '\x00' ∉ MARKER_EMPTY)
  | some t => exact t.closed

theorem nul_not_mem_getLogStr (l : TMsgData) : '\x00' ∉ l.getLogStr := by
  have hnumber : ∀ n : Int, '\x00' ∉ n.repr.toList := fun n =>
    Decimal.not_mem_toString (by decide) (by decide) n
  rw [TMsgData.getLogStr]
  cases l.request with
  | none => simp [nul_not_mem_orEmpty, l.ip.closed, MARKER_TAB]
  | some request =>
      simp [nul_not_mem_orEmpty, hnumber, l.ip.closed, l.responseTime.closed, request.closed, MARKER_TAB]

def digits (n : Int) : Nat := (toString n).toList.length

theorem length_getLogStr_none (h : l.request = none) :
    l.getLogStr.length = l.ip.chars.length + (TMsgData.orEmpty l.username).length +
      (TMsgData.orEmpty l.userpass).length + (TMsgData.orEmpty l.requestTime).length + 6 := by
  rw [TMsgData.getLogStr, h]
  simp only [List.length_append, List.length_cons, List.length_nil]
  omega

theorem length_getLogStr_some (h : l.request = some request) :
    l.getLogStr.length = l.ip.chars.length + (TMsgData.orEmpty l.username).length +
      (TMsgData.orEmpty l.userpass).length + (TMsgData.orEmpty l.requestTime).length + request.chars.length +
      (TMsgData.orEmpty l.referer).length + (TMsgData.orEmpty l.userAgent).length + l.responseTime.chars.length +
      digits l.response + digits (i32 (l.headerSize + l.responseSize)) + digits l.headerSize + digits l.responseSize +
      digits l.fileSize + digits l.rangeStart + digits l.rangeStop + 20 := by
  have hopen : "( ".toList.length = 2 := rfl
  have hclose : ")\n".toList.length = 2 := rfl
  rw [TMsgData.getLogStr, h]
  simp only [List.length_append, List.length_cons, List.length_nil, hopen, hclose, digits]
  omega

end Record

section Fields

def requestOf (line : Str) : Option Str := (find "GET /".toList line).map cstr

def agentOf (line : Str) : Option Str :=
  if (find "GET /".toList line).isSome = true ∨ (find "Range:".toList line).isSome = true then none
  else (find "User-Agent:".toList line).map cstr

def refererOf (line : Str) : Option Str :=
  if (find "GET /".toList line).isSome = true ∨ (find "Range:".toList line).isSome = true ∨
      (find "User-Agent:".toList line).isSome = true then none
  else (find "Referer:".toList line).map cstr

def userOf (m : Marker) (pch : Str) : Option Str :=
  if Marker.taken pch = some m then (m.value pch).map cstr else none

def last (f : Str → Option Str) (texts : List Str) : Option Str := (texts.filterMap f).getLast?

variable {recvStr behind : Str}

def texts (recvStr behind : Str) : List Str := (examined recvStr behind).map Prod.snd

def tokenTexts (recvStr behind : Str) : List Str := (tokensRead recvStr behind).map Token.text

theorem texts_eq (recvStr behind : Str) :
    texts recvStr behind = (scan recvStr behind).filterMap fun s => s.line.map Token.text := by
  have hexamined : examined recvStr behind =
      (scan recvStr behind).filterMap fun s => s.line.map fun t => (t.pch, t.text) := rfl
  rw [texts, hexamined, List.map_filterMap]
  refine congrArg (fun f => List.filterMap f _) (funext fun s => ?_)
  rw [Option.map_map]
  rfl

/-- What a line leaves in the log stays until another one comes. -/
theorem logged_last (f : TMsgData → Option Str) (g : Str → Option Str)
    (hline : ∀ l t, f (TMsgData.readLine l t) = (g t.text).or (f l)) (l : TMsgData) :
    f (l.logged recvStr behind) = (last g (texts recvStr behind)).or (f l) := by
  have hstep : ∀ (l : TMsgData) (s : Scan), f (s.line.elim l l.readLine) =
      (s.line.bind fun t => g t.text).or (f l) := by
    intro l s
    cases s.line with
    | none => rfl
    | some t => exact hline l t
  rw [TMsgData.logged, run_last f _ hstep, last, texts_eq, List.filterMap_filterMap]
  refine congrArg (fun g => (List.filterMap g _).getLast?.or (f l)) (funext fun s => ?_)
  rw [Option.bind_map]
  rfl

theorem logged_user (f : TMsgData → Option Str) (g : Str → Option Str) (htext : ∀ l text, f (TMsgData.readText l text) = f l)
    (htoken : ∀ l pch, f (TMsgData.readToken l pch) = (g pch).or (f l)) (l : TMsgData) :
    f (l.logged recvStr behind) = (last g (tokenTexts recvStr behind)).or (f l) := by
  have hstep : ∀ (l : TMsgData) (s : Scan), f (s.line.elim l l.readLine) =
      (last g (s.tokens.map Token.text)).or (f l) := by
    intro l s
    rw [Scan.tokens]
    cases s.line with
    | none => rfl
    | some t =>
        have hrun := run_last f (fun t : Token => g t.text) (fun l t => htoken l t.text) (l.readText t.text) (lineTokens t).1
        rw [htext] at hrun
        rw [last, List.filterMap_map]
        exact hrun
  rw [TMsgData.logged, run_last f _ hstep, last, tokenTexts, tokensRead]
  congr 1
  induction scan recvStr behind with
  | nil => rfl
  | cons s rest ih =>
      rw [List.flatMap_cons, List.map_append, List.filterMap_append, List.getLast?_append, ← ih, List.filterMap_cons]
      cases hlast : last g (s.tokens.map Token.text) with
      | none =>
          rw [last] at hlast
          rw [hlast, Option.or_none]
      | some x =>
          rw [last] at hlast
          rw [hlast, List.getLast?_cons]
          cases (List.filterMap (fun s => last g (s.tokens.map Token.text)) rest).getLast? <;> rfl

section Steps

variable (l : TMsgData)

theorem readTokens_texts (tokens : List Token) : (l.readTokens tokens).request = l.request ∧
    (l.readTokens tokens).userAgent = l.userAgent ∧ (l.readTokens tokens).referer = l.referer := by
  have hstep : ∀ (l : TMsgData) (t : Token), ((l.readToken t.text).request, (l.readToken t.text).userAgent,
      (l.readToken t.text).referer) = (l.request, l.userAgent, l.referer) := by
    intro l t
    rw [TMsgData.readToken]
    split <;> rfl
  have hframe := run_frame (fun l : TMsgData => (l.request, l.userAgent, l.referer)) hstep l tokens
  simp only [Prod.mk.injEq] at hframe
  exact hframe

theorem readLine_texts (t : Token) :
    (l.readLine t).request.map Text.chars = (requestOf t.text).or (l.request.map Text.chars) ∧
      (l.readLine t).userAgent.map Text.chars = (agentOf t.text).or (l.userAgent.map Text.chars) ∧
        (l.readLine t).referer.map Text.chars = (refererOf t.text).or (l.referer.map Text.chars) := by
  obtain ⟨hrequest, hagent, hreferer⟩ := readTokens_texts (l.readText t.text) (lineTokens t).1
  rw [TMsgData.readLine, hrequest, hagent, hreferer, TMsgData.readText, requestOf, agentOf, refererOf]
  cases find "GET /".toList t.text with
  | some pdata => exact ⟨rfl, rfl, rfl⟩
  | none =>
      cases find "Range:".toList t.text with
      | some pdata => exact ⟨rfl, rfl, rfl⟩
      | none =>
          cases find "User-Agent:".toList t.text with
          | some pdata => exact ⟨rfl, rfl, rfl⟩
          | none => cases find "Referer:".toList t.text <;> exact ⟨rfl, rfl, rfl⟩

theorem readText_frame (text : Str) : (l.readText text).ip = l.ip ∧ (l.readText text).requestTime = l.requestTime ∧
    (l.readText text).username = l.username ∧ (l.readText text).userpass = l.userpass := by
  rw [TMsgData.readText]
  split
  · exact ⟨rfl, rfl, rfl, rfl⟩
  split
  · exact ⟨rfl, rfl, rfl, rfl⟩
  split
  · exact ⟨rfl, rfl, rfl, rfl⟩
  split <;> exact ⟨rfl, rfl, rfl, rfl⟩

theorem readToken_users (pch : Str) :
    (l.readToken pch).username.map Text.chars = (userOf .login pch).or (l.username.map Text.chars) ∧
      (l.readToken pch).userpass.map Text.chars = (userOf .password pch).or (l.userpass.map Text.chars) := by
  rw [TMsgData.readToken, userOf, userOf]
  cases h : Marker.taken pch with
  | none => exact ⟨rfl, rfl⟩
  | some m =>
      have hvalue := Marker.value_of_taken h
      cases m with
      | login =>
          obtain ⟨v, hv⟩ := hvalue
          rw [hv]
          exact ⟨rfl, rfl⟩
      | password =>
          obtain ⟨v, hv⟩ := hvalue
          rw [hv]
          exact ⟨rfl, rfl⟩
      | _ => exact ⟨rfl, rfl⟩

theorem logged_frame (recvStr behind : Str) :
    (l.logged recvStr behind).ip = l.ip ∧ (l.logged recvStr behind).requestTime = l.requestTime := by
  have htoken : ∀ (l : TMsgData) (t : Token), ((l.readToken t.text).ip, (l.readToken t.text).requestTime) =
      (l.ip, l.requestTime) := by
    intro l t
    rw [TMsgData.readToken]
    split <;> rfl
  have hscan : ∀ (l : TMsgData) (s : Scan), ((s.line.elim l l.readLine).ip, (s.line.elim l l.readLine).requestTime) =
      (l.ip, l.requestTime) := by
    intro l s
    cases s.line with
    | none => rfl
    | some t =>
        obtain ⟨hip, htime, -⟩ := readText_frame l t.text
        have htokens := run_frame (fun l : TMsgData => (l.ip, l.requestTime)) htoken (l.readText t.text) (lineTokens t).1
        rw [hip, htime] at htokens
        exact htokens
  have hframe := run_frame (fun l : TMsgData => (l.ip, l.requestTime)) hscan l (scan recvStr behind)
  simp only [Prod.mk.injEq] at hframe
  exact hframe

end Steps

end Fields

section Carried

variable (host time recvStr behind : Str) (a : Answered)

def record : Str := (((TMsgData.new host time).logged recvStr behind).answered a).getLogStr

def lengthOf (t : Option Str) : Nat := (t.getD MARKER_EMPTY).length

/-- The bytes in front of the request: the address, the user and the time, between six characters. -/
def frontBytes : Nat :=
  (cstr host).length + lengthOf (last (userOf .login) (tokenTexts recvStr behind)) +
    lengthOf (last (userOf .password) (tokenTexts recvStr behind)) + (cstr time).length + 6

/-- The bytes behind the request: the referer, the agent and the numbers, between fourteen characters. -/
def backBytes : Nat :=
  lengthOf (last refererOf (texts recvStr behind)) + lengthOf (last agentOf (texts recvStr behind)) +
    a.responseTime.chars.length + digits a.response + digits (i32 (a.headerSize + a.responseSize)) +
    digits a.headerSize + digits a.responseSize + digits a.fileSize + digits a.rangeStart + digits a.rangeStop + 14

/-- The texts of the request leave room for the NUL. Without a line for `GET` the record ends in front of the request. -/
def Short : Prop :=
  match last requestOf (texts recvStr behind) with
  | none => frontBytes host time recvStr behind ≤ MSG_SIZE - 1
  | some request => frontBytes host time recvStr behind + request.length + backBytes recvStr behind a ≤ MSG_SIZE - 1

variable {host time recvStr behind a}

theorem length_orEmpty (t : Option Text) : (TMsgData.orEmpty t).length = lengthOf (t.map Text.chars) := rfl

theorem logged_texts : ((TMsgData.new host time).logged recvStr behind).request.map Text.chars =
      last requestOf (texts recvStr behind) ∧
    ((TMsgData.new host time).logged recvStr behind).userAgent.map Text.chars = last agentOf (texts recvStr behind) ∧
    ((TMsgData.new host time).logged recvStr behind).referer.map Text.chars = last refererOf (texts recvStr behind) := by
  refine ⟨?_, ?_, ?_⟩
  · exact (logged_last (fun l => l.request.map Text.chars) requestOf (fun l t => (readLine_texts l t).1) _).trans
      Option.or_none
  · exact (logged_last (fun l => l.userAgent.map Text.chars) agentOf (fun l t => (readLine_texts l t).2.1) _).trans
      Option.or_none
  · exact (logged_last (fun l => l.referer.map Text.chars) refererOf (fun l t => (readLine_texts l t).2.2) _).trans
      Option.or_none

theorem logged_users : ((TMsgData.new host time).logged recvStr behind).username.map Text.chars =
      last (userOf .login) (tokenTexts recvStr behind) ∧
    ((TMsgData.new host time).logged recvStr behind).userpass.map Text.chars =
      last (userOf .password) (tokenTexts recvStr behind) := by
  have hname : ∀ (l : TMsgData) text, (l.readText text).username.map Text.chars = l.username.map Text.chars :=
    fun l text => congrArg _ (readText_frame l text).2.2.1
  have hpass : ∀ (l : TMsgData) text, (l.readText text).userpass.map Text.chars = l.userpass.map Text.chars :=
    fun l text => congrArg _ (readText_frame l text).2.2.2
  refine ⟨?_, ?_⟩
  · exact (logged_user (fun l => l.username.map Text.chars) _ hname (fun l pch => (readToken_users l pch).1) _).trans
      Option.or_none
  · exact (logged_user (fun l => l.userpass.map Text.chars) _ hpass (fun l pch => (readToken_users l pch).2) _).trans
      Option.or_none

theorem length_record_iff : (record host time recvStr behind a).length ≤ MSG_SIZE - 1 ↔
    Short host time recvStr behind a := by
  obtain ⟨hrequest, hagent, hreferer⟩ := @logged_texts host time recvStr behind
  obtain ⟨hname, hpass⟩ := @logged_users host time recvStr behind
  obtain ⟨hip, htime⟩ := logged_frame (TMsgData.new host time) recvStr behind
  rw [record, Short]
  generalize (TMsgData.new host time).logged recvStr behind = l at hrequest hagent hreferer hname hpass hip htime
  have hipLength : l.ip.chars.length = (cstr host).length := by rw [hip]; rfl
  have htimeLength : (TMsgData.orEmpty l.requestTime).length = (cstr time).length := by rw [htime]; rfl
  rw [← hrequest]
  cases hsome : l.request with
  | none =>
      have hnone : (l.answered a).request = none := hsome
      rw [length_getLogStr_none hnone, Option.map_none, frontBytes, ← hname, ← hpass, ← hipLength, ← htimeLength,
        ← length_orEmpty, ← length_orEmpty]
      rfl
  | some request =>
      have hsame : (l.answered a).request = some request := hsome
      rw [length_getLogStr_some hsame, Option.map_some, frontBytes, backBytes, ← hname, ← hpass, ← hagent, ← hreferer,
        ← hipLength, ← htimeLength, ← length_orEmpty, ← length_orEmpty, ← length_orEmpty, ← length_orEmpty]
      dsimp only [TMsgData.answered]
      omega

theorem arrives_iff : Arrives (record host time recvStr behind a) ↔ Short host time recvStr behind a :=
  (arrives_iff_length (nul_not_mem_getLogStr _)).trans length_record_iff

/-- No record can be read where `msg_recv` says, and one is in the message that it has received exactly if its texts
are short. -/
theorem carried_iff (host time recvStr behind : Str) (a : Answered) :
    ¬ Carried (record host time recvStr behind a) ∧
      (Arrives (record host time recvStr behind a) ↔ Short host time recvStr behind a) :=
  ⟨not_carried _, arrives_iff⟩

def longLine (n : Nat) : Str := "GET /".toList ++ List.replicate n 'a'

theorem not_mem_longLine {n : Nat} {c : Char} (h : c ∉ "GET /a".toList) : c ∉ longLine n := by
  intro hc
  rcases List.mem_append.mp hc with hc | hc
  · exact h (List.mem_append_left _ hc)
  · exact h (List.eq_of_mem_replicate hc ▸ by decide)

theorem requestOf_longLine (n : Nat) : requestOf (longLine n) = some (longLine n) := by
  have hfind : find "GET /".toList (longLine n) = some (longLine n) := rfl
  rw [requestOf, hfind, Option.map_some, cstr_of_not_mem (not_mem_longLine (by decide))]

theorem texts_longLine (n : Nat) : texts (longLine n ++ "\r\n\r\n".toList) [] = [longLine n] := by
  have hnul : '\x00' ∉ longLine n ++ "\r\n\r\n".toList := by
    rw [List.mem_append, not_or]
    exact ⟨not_mem_longLine (by decide), by decide⟩
  have hpieces : ScanBound.Separated (cstr (longLine n ++ "\r\n\r\n".toList)) [longLine n, [], []] := by
    refine ⟨fun x hx => ?_, cstr_of_not_mem hnul⟩
    rcases List.mem_cons.mp hx with rfl | hx
    · exact ⟨not_mem_longLine (by decide), not_mem_longLine (by decide)⟩
    · rcases List.mem_pair.mp hx with rfl | rfl <;> exact ⟨List.not_mem_nil, List.not_mem_nil⟩
  have horderly : ScanBound.Orderly 0 [longLine n, [], []] := ⟨List.cons_ne_nil _ _, trivial⟩
  rw [texts, ((@ScanBound.separated_iff _ [] _ hpieces).mpr horderly).2]
  rfl

theorem not_arrives {n : Nat} (hn : MSG_SIZE ≤ n) (host time : Str) (a : Answered) :
    ¬ Arrives (record host time (longLine n ++ "\r\n\r\n".toList) [] a) := by
  have hlong : (longLine n).length = n + 5 := by
    have hget : "GET /".toList.length = 5 := by decide
    have hsum := @List.length_append _ "GET /".toList (List.replicate n 'a')
    exact hsum.trans ((congrArg₂ (· + ·) hget List.length_replicate).trans (Nat.add_comm 5 n))
  have hlast : last requestOf (texts (longLine n ++ "\r\n\r\n".toList) []) = some (longLine n) := by
    rw [texts_longLine, last, List.filterMap_cons_some (requestOf_longLine n), List.filterMap_nil, List.getLast?_singleton]
  rw [arrives_iff, Short, hlast]
  dsimp only
  omega

/-- A request line that is longer than the message. -/
theorem not_carried_longLine : ¬ ∀ (host time recvStr behind : Str) (a : Answered),
    Carried (record host time recvStr behind a) := by
  intro h
  have hle : MSG_SIZE ≤ 5000 := by decide
  exact not_arrives hle _ _ _ (h "127.0.0.1".toList "2018".toList _ [] ⟨405, 33, strdup "0".toList, 0, 0, 0, 0⟩).arrives

end Carried

end LogRecord

end RadioServices.Musicgo

import RadioServices.Accordion.AacStream
import RadioServices.Accordion.Playlist

namespace RadioServices.Station.Broadcast

open Lib.C Lib.Runs Accordion Accordion.Playlist
open Accordion.Aac (FileInfo)

/-- The functions that `start` calls through pointers, over the reader they share. `none` where a
call does not return or writes past the buffer. -/
structure Format (Reader : Type) where
  getFileInfo : Reader → Bool → Option (List UInt8) → FileInfo → Option (FileInfo × Reader)
  startPlay : Reader → Bool × Reader
  getFrames : Reader → Option (List UInt8 × Reader)
  stopPlay : Reader → Reader

/-- The functions for AAC. `start` takes from the buffer as many bytes as the value says. -/
def aac : Format Aac.Taac where
  getFileInfo := Aac.getFileInfo
  startPlay := Aac.startPlay
  getFrames t := (Aac.getFrames t).bind fun ((value, sbuf), t) =>
    if sbuf.length ≤ bufSize then some (sbuf.take value, t) else none
  stopPlay t := { t with fs := none }

/-- How `net_send` goes: as a whole, or with a failure behind that many bytes. -/
inductive Sending
  | whole
  | failed (n : Nat)

def Sending.value : Sending → Bool
  | .whole => true
  | .failed _ => false

def Sending.through (buf : List UInt8) : Sending → List UInt8
  | .whole => buf
  | .failed n => buf.take n

/-- The track for which something is sent: its number among the tracks begun, and what is known of its file. -/
structure Origin where
  number : Nat
  info : FileInfo

/-- What the peer of a connection got. Beside it what it is made of: the headers that were answered
without a 200, the header that was accepted, the one that did not go out as a whole, the buffers that did, and the
buffer that did not. `during` is the track in the middle of which the connection was made. -/
structure Connection where
  during : Option Nat
  peer : List UInt8
  rejected : List Origin
  announced : Option Origin
  unsent : Option Origin
  sent : List (Origin × List UInt8)
  lost : Option (Origin × List UInt8)

/-- A track that is played: the file as it was when it was opened, the buffers read from it, and whether
it was given up because a header was not accepted. -/
structure Track where
  path : Str
  info : FileInfo
  file : List UInt8
  buffers : List (List UInt8)
  rejected : Bool

/-- The latest connection and the latest track come first. -/
structure State (Reader : Type) where
  player : Playlist.State
  reader : Reader
  info : FileInfo
  connections : List Connection
  tracks : List Track

structure Iteration where
  connect : Connect
  header : Sending
  reply : Reply
  frames : Sending

inductive Event
  | attempt (fileExists : Bool) (fopen : Option (List UInt8))
  | iterate (i : Iteration)
  | finish (newPlaylist : Option Lplaylist)

def opened (during : Option Nat) : Connection := ⟨during, [], [], none, none, [], none⟩

variable {Reader : Type} (F : Format Reader) (header : FileInfo → List UInt8)

def start (playList : Lplaylist) (playfileExists : Bool) (npfile : Option Nat) (c : Connect) (reader : Reader) :
    State Reader :=
  let player := Playlist.start playList playfileExists npfile c
  ⟨player, reader, ⟨0, 0, 0, 0, 0, 0, 0, 0⟩, if player.connected = true then [opened none] else [], []⟩

def currentTrack (s : State Reader) (fopen : Option (List UInt8)) : Track :=
  ⟨s.player.playList.getD s.player.itPlaylist [], s.info, fopen.getD [], [], false⟩

/-- The track begun last, with the file information that `start` has. -/
def origin (s : State Reader) : Origin := ⟨s.tracks.length - 1, s.info⟩

def attempt (s : State Reader) (fileExists : Bool) (fopen : Option (List UInt8)) : Option (State Reader) :=
  if s.player.playList = [] ∨ s.player.itPlaylist = s.player.playList.length then
    some { s with player := { s.player with control := .stopped } }
  else do
    let s := { s with player := saveIdx s.player }
    let (info, reader) ← F.getFileInfo s.reader fileExists fopen s.info
    let s := { s with info := info, reader := reader }
    if info.retValue = -1 then return { s with player := remove (record s.player none) }
    else
      let (playing, reader) := F.startPlay s.reader
      let s := { s with reader := reader }
      if playing = false then return { s with player := remove (record s.player none) }
      else
        let tracks := currentTrack s fopen :: s.tracks
        let player := record s.player (some info.sr)
        if player.icecastSampleRate = -1 then
          return { s with player := send { player with icecastSampleRate := info.sr }, tracks := tracks }
        else if player.icecastSampleRate ≠ info.sr then return { s with player := remove player }
        else return { s with player := send player, tracks := tracks }

def onLast (f : Connection → Connection) (s : State Reader) : State Reader :=
  { s with connections := s.connections.modifyHead f }

def setConnected (connected : Bool) (s : State Reader) : State Reader :=
  { s with player := { s.player with connected := connected } }

def connect (s : State Reader) (c : Connect) : State Reader :=
  let connected := (netConnect s.player.connected c).2
  { setConnected connected s with
    connections := if s.player.connected = false ∧ connected = true then
        opened (some (s.tracks.length - 1)) :: s.connections
      else s.connections }

/-- A buffer that is sent goes to the peer, as far as there is one. -/
def Connection.sendBuffer (o : Origin) (buf : List UInt8) (connected : Bool) (sending : Sending) (c : Connection) :
    Connection :=
  if netSend connected sending.value = true then { c with peer := c.peer ++ buf, sent := c.sent ++ [(o, buf)] }
  else { c with peer := c.peer ++ if connected = true then sending.through buf else [], lost := some (o, buf) }

def Track.reject (t : Track) : Track := { t with rejected := true }

def Track.read (buf : List UInt8) (t : Track) : Track := { t with buffers := t.buffers ++ [buf] }

def getFrames (s : State Reader) (i : Iteration) : Option (State Reader) := do
  let (buf, reader) ← F.getFrames s.reader
  let s := { s with reader := reader }
  if buf = [] then return { s with player := { s.player with res := 0, control := .finished } }
  else
    let connected := s.player.connected
    return { onLast (Connection.sendBuffer (origin s) buf connected i.frames) s with
      player := { s.player with res := buf.length, connected := netSend connected i.frames.value }
      tracks := s.tracks.modifyHead (Track.read buf) }

def sendFrames (s : State Reader) (i : Iteration) : Option (State Reader) :=
  getFrames F (if s.player.res = 0 then { s with player := nextTrack s.player } else s) i

def Connection.sendHeader (o : Origin) (text : List UInt8) (connected : Bool) (sending : Sending) (c : Connection) :
    Connection :=
  if connected = false then c
  else { c with peer := c.peer ++ sending.through text, unsent := if sending.value = true then none else some o }

def Connection.reject (o : Origin) (c : Connection) : Connection := { c with rejected := c.rejected ++ [o] }

def Connection.accept (o : Origin) (c : Connection) : Connection := { c with announced := some o }

def sendHeader (s : State Reader) (i : Iteration) : Option (State Reader) :=
  if s.player.evHeader = true then
    let sent := netSend s.player.connected i.header.value
    let s := setConnected sent (onLast (Connection.sendHeader (origin s) (header s.info) s.player.connected i.header) s)
    if sent = false then some s
    else
      let (found, connected) := netRecv sent i.reply
      if found = false then
        some { onLast (Connection.reject (origin s)) s with
          player := { playlistClear s.player with
            connected := connected
            control := .finished
            attempts := s.player.attempts.modifyHead (Attempt.become .rejected) }
          tracks := s.tracks.modifyHead Track.reject }
      else
        sendFrames F { onLast (Connection.accept (origin s)) s with
          player := { s.player with connected := connected, evHeader := false } } i
  else sendFrames F s i

def askHeader (s : State Reader) : State Reader := { s with player := Playlist.askHeader s.player }

def iterate (s : State Reader) (i : Iteration) : Option (State Reader) :=
  let s := askHeader s
  let value := (netConnect s.player.connected i.connect).1
  let s := connect s i.connect
  if value = false then some { s with player := { s.player with control := .finished } }
  else sendHeader F header s i

def finish (s : State Reader) (newPlaylist : Option Lplaylist) : State Reader :=
  { s with player := Playlist.finish s.player newPlaylist, reader := F.stopPlay s.reader }

def step (s : State Reader) : Event → Option (State Reader)
  | .attempt fileExists fopen => if s.player.control = .head then attempt F s fileExists fopen else some s
  | .iterate i => if s.player.control = .sending then iterate F header s i else some s
  | .finish newPlaylist => if s.player.control = .finished then some (finish F s newPlaylist) else some s

/-- How an attempt ends: the list does, the track is removed, or it is begun at the rate of its file. -/
inductive Attempted (s : State Reader) (fileExists : Bool) (fopen : Option (List UInt8)) : State Reader → Prop
  | ended (h : s.player.playList = [] ∨ s.player.itPlaylist = s.player.playList.length) :
      Attempted s fileExists fopen { s with player := { s.player with control := .stopped } }
  | removed (info : FileInfo) (reader : Reader) (rate : Option Int)
      (h : Playlist.attempt s.player rate = remove (record (saveIdx s.player) rate)) :
      Attempted s fileExists fopen
        { s with player := remove (record (saveIdx s.player) rate), info := info, reader := reader }
  | begun (info : FileInfo) (reader : Reader)
      (hinfo : F.getFileInfo s.reader fileExists fopen s.info = some (info, reader)) (hret : info.retValue ≠ -1)
      (hrate : s.player.icecastSampleRate = -1 ∨ s.player.icecastSampleRate = info.sr)
      (h : Playlist.attempt s.player (some info.sr) =
        send { record (saveIdx s.player) (some info.sr) with icecastSampleRate := info.sr }) :
      Attempted s fileExists fopen
        { s with
          player := send { record (saveIdx s.player) (some info.sr) with icecastSampleRate := info.sr }
          info := info
          reader := (F.startPlay reader).2
          tracks := currentTrack { s with info := info } fopen :: s.tracks }

/-- What an event comes to, with the place in the code that it needs. -/
inductive Change (s : State Reader) : Event → State Reader → Prop
  | unfit (e : Event) : Change s e s
  | attempt {fileExists : Bool} {fopen : Option (List UInt8)} {s' : State Reader} (hcontrol : s.player.control = .head)
      (h : Attempted F s fileExists fopen s') : Change s (.attempt fileExists fopen) s'
  | iterate {i : Iteration} {s' : State Reader} (hcontrol : s.player.control = .sending)
      (h : iterate F header s i = some s') : Change s (.iterate i) s'
  | finish (newPlaylist : Option Lplaylist) (hcontrol : s.player.control = .finished) :
      Change s (.finish newPlaylist) (finish F s newPlaylist)

section Cases

variable {F header} {s s' : State Reader}

theorem attempted_of_attempt {fileExists : Bool} {fopen : Option (List UInt8)}
    (h : attempt F s fileExists fopen = some s') : Attempted F s fileExists fopen s' := by
  rw [attempt] at h
  split at h
  next hend =>
    cases h
    exact .ended hend
  next hend =>
    simp only [Option.bind_eq_bind, Option.bind_eq_some_iff] at h
    obtain ⟨⟨info, reader⟩, hinfo, h⟩ := h
    have hnone : Playlist.attempt s.player none = remove (record (saveIdx s.player) none) := by
      rw [Playlist.attempt, if_neg hend]
    dsimp only at h hinfo
    split at h
    · cases h
      exact .removed info reader none hnone
    next hret =>
      split at h
      · cases h
        exact .removed info _ none hnone
      split at h
      next hunset =>
        cases h
        refine .begun info reader hinfo hret (.inl hunset) ?_
        rw [Playlist.attempt, if_neg hend]
        exact if_pos hunset
      next hset =>
        split at h
        next hother =>
          cases h
          refine .removed info _ (some info.sr) ?_
          rw [Playlist.attempt, if_neg hend]
          exact (if_neg hset).trans (if_pos hother)
        next hsame =>
          cases h
          have hrate : s.player.icecastSampleRate = info.sr := not_not.mp hsame
          have hkept : record (saveIdx s.player) (some info.sr) =
              { record (saveIdx s.player) (some info.sr) with icecastSampleRate := info.sr } := by
            rw [← hrate]
            rfl
          rw [hkept]
          refine .begun info reader hinfo hret (.inr hrate) ?_
          rw [Playlist.attempt, if_neg hend, ← hkept]
          exact (if_neg hset).trans (if_neg hsame)

theorem change_of_step {e : Event} (h : step F header s e = some s') : Change F header s e s' := by
  cases e with
  | attempt fileExists fopen =>
      rw [step] at h
      split at h
      next hcontrol => exact .attempt hcontrol (attempted_of_attempt h)
      · cases h
        exact .unfit _
  | iterate i =>
      rw [step] at h
      split at h
      next hcontrol => exact .iterate hcontrol h
      · cases h
        exact .unfit _
  | finish newPlaylist =>
      rw [step] at h
      split at h
      next hcontrol =>
        cases h
        exact .finish newPlaylist hcontrol
      · cases h
        exact .unfit _

end Cases

section Player

variable {F header} {s s' : State Reader}

/-- What the calls of an iteration come to for the player, with that many bytes read. -/
def Iteration.outcome (i : Iteration) (frames : Nat) : Playlist.Iteration :=
  ⟨i.connect, i.header.value, i.reply, frames, i.frames.value⟩

theorem attempted_player {fileExists : Bool} {fopen : Option (List UInt8)} (h : Attempted F s fileExists fopen s') :
    ∃ info, s'.player = Playlist.attempt s.player info := by
  cases h with
  | ended hend => exact ⟨none, (if_pos hend).symm⟩
  | removed info reader rate hremoved => exact ⟨rate, hremoved.symm⟩
  | begun info reader hinfo hret hrate hsent => exact ⟨some info.sr, hsent.symm⟩

theorem getFrames_player {i : Iteration} (h : getFrames F s i = some s') :
    ∃ frames, s'.player = Playlist.getFrames s.player (i.outcome frames) := by
  simp only [getFrames, Option.bind_eq_bind, Option.bind_eq_some_iff] at h
  obtain ⟨⟨buf, reader⟩, -, h⟩ := h
  dsimp only at h
  refine ⟨buf.length, ?_⟩
  rw [Playlist.getFrames, Iteration.outcome]
  split at h
  next hbuf =>
    cases h
    rw [if_pos (List.length_eq_zero_iff.mpr hbuf)]
  next hbuf =>
    cases h
    rw [if_neg fun hzero => hbuf (List.length_eq_zero_iff.mp hzero)]

theorem sendFrames_player {i : Iteration} (h : sendFrames F s i = some s') :
    ∃ frames, s'.player = Playlist.sendFrames s.player (i.outcome frames) := by
  obtain ⟨frames, hframes⟩ := getFrames_player h
  refine ⟨frames, ?_⟩
  rw [hframes, Playlist.sendFrames]
  split <;> rfl

theorem sendHeader_player {i : Iteration} (h : sendHeader F header s i = some s') :
    ∃ frames, s'.player = Playlist.sendHeader s.player (i.outcome frames) := by
  rw [sendHeader] at h
  split at h
  next hev =>
    dsimp only at h
    split at h
    next hsent =>
      cases h
      refine ⟨0, ?_⟩
      rw [Playlist.sendHeader, if_pos hev]
      exact (if_pos hsent).symm
    next hsent =>
      split at h
      next hfound =>
        cases h
        refine ⟨0, ?_⟩
        rw [Playlist.sendHeader, if_pos hev]
        exact ((if_neg hsent).trans (if_pos hfound)).symm
      next hfound =>
        obtain ⟨frames, hframes⟩ := sendFrames_player h
        refine ⟨frames, ?_⟩
        rw [hframes, Playlist.sendHeader, if_pos hev]
        exact ((if_neg hsent).trans (if_neg hfound)).symm
  next hev =>
    obtain ⟨frames, hframes⟩ := sendFrames_player h
    exact ⟨frames, by rw [hframes, Playlist.sendHeader, if_neg hev]⟩

/-- The rest of an iteration of the player, once the header is asked for. -/
def playerIterate (t : Playlist.State) (o : Playlist.Iteration) : Playlist.State :=
  if (netConnect t.connected o.connect).1 = false then
    { t with connected := (netConnect t.connected o.connect).2, control := .finished }
  else Playlist.sendHeader { t with connected := (netConnect t.connected o.connect).2 } o

theorem iterate_player {i : Iteration} (h : iterate F header s i = some s') :
    ∃ frames, s'.player = Playlist.iterate s.player (i.outcome frames) := by
  have hiterate (o : Playlist.Iteration) : Playlist.iterate s.player o = playerIterate (askHeader s).player o := rfl
  rw [iterate] at h
  simp only [hiterate]
  generalize askHeader s = t at h
  dsimp only at h
  split at h
  next hvalue =>
    cases h
    exact ⟨0, (if_pos hvalue).symm⟩
  next hvalue =>
    obtain ⟨frames, hframes⟩ := sendHeader_player h
    exact ⟨frames, hframes.trans (if_neg hvalue).symm⟩

theorem exists_unfit (p : Playlist.State) : ∃ e, Playlist.step p e = p := by
  by_cases hhead : p.control = .head
  · exact ⟨.finish none, if_neg (by rw [hhead]; exact Control.noConfusion)⟩
  · exact ⟨.attempt none, if_neg hhead⟩

/-- Beside what is sent the player is that of the playlist. -/
theorem step_player {e : Event} (h : step F header s e = some s') : ∃ e', s'.player = Playlist.step s.player e' := by
  cases change_of_step h with
  | unfit =>
      obtain ⟨e', he'⟩ := exists_unfit s.player
      exact ⟨e', he'.symm⟩
  | attempt hcontrol h =>
      obtain ⟨info, hinfo⟩ := attempted_player h
      exact ⟨.attempt info, by rw [hinfo, Playlist.step, if_pos hcontrol]⟩
  | iterate hcontrol h =>
      obtain ⟨frames, hframes⟩ := iterate_player h
      exact ⟨.iterate (Iteration.outcome _ frames), by rw [hframes, Playlist.step, if_pos hcontrol]⟩
  | finish newPlaylist hcontrol =>
      refine ⟨.finish newPlaylist, ?_⟩
      rw [Playlist.step, if_pos hcontrol]
      rfl

end Player

def numbered (tracks : List Track) : List (Origin × Track) :=
  tracks.reverse.zipIdx.map fun t => (⟨t.2, t.1.info⟩, t.1)

def origins (tracks : List Track) : List Origin := (numbered tracks).map Prod.fst

def buffers (tracks : List Track) : List (Origin × List UInt8) :=
  (numbered tracks).flatMap fun t => t.2.buffers.map (Prod.mk t.1)

def givenUp (tracks : List Track) : List Origin := ((numbered tracks).filter fun t => t.2.rejected).map Prod.fst

def Connection.headers (c : Connection) : List Origin := c.rejected ++ c.announced.toList ++ c.unsent.toList

def Connection.taken (c : Connection) : List (Origin × List UInt8) := c.sent ++ c.lost.toList

def whole (c : Connection) : List UInt8 :=
  (c.rejected ++ c.announced.toList).flatMap (fun o => header o.info) ++ (c.sent.map Prod.snd).flatten

/-- No buffer goes out but behind a header that was accepted, and only the last thing sent is cut off. -/
def Carries (c : Connection) : Prop :=
  ∃ cut, c.peer = whole header c ++ cut ∧
    match c.announced with
    | none => c.taken = [] ∧ cut <+: c.unsent.elim [] fun o => header o.info
    | some _ => c.unsent = none ∧ cut <+: c.lost.elim [] Prod.snd

/-- The first header is that of the track in which the connection was made, at the start that of the first track. Each
further one is that of the next track, and the buffers come behind the track of the header. -/
structure Headed (c : Connection) : Prop where
  numbers : c.headers.map Origin.number = List.range' (c.during.getD 0) c.headers.length
  behind : ∀ o ∈ c.announced, ∀ b ∈ c.taken, o.number ≤ b.1.number

/-- What the connections carry, and that all of it belongs to the tracks. -/
structure Sound (s : State Reader) : Prop where
  carries : ∀ c ∈ s.connections, Carries header c ∧ Headed c
  known : ∀ c ∈ s.connections, c.headers ⊆ origins s.tracks
  taken : buffers s.tracks = s.connections.reverse.flatMap Connection.taken
  rejected : givenUp s.tracks = s.connections.reverse.flatMap Connection.rejected

structure Intact (c : Connection) : Prop where
  peer : c.peer = whole header c
  unsent : c.unsent = none
  lost : c.lost = none
  sent : c.announced = none → c.sent = []

section Tracks

variable {t : Track} {ts : List Track}

theorem numbered_cons (t : Track) (ts : List Track) :
    numbered (t :: ts) = numbered ts ++ [(⟨ts.length, t.info⟩, t)] := by
  rw [numbered, List.reverse_cons, List.zipIdx_append, List.map_append, numbered]
  simp only [List.length_reverse, List.zipIdx_cons, List.zipIdx_nil, List.map_cons, List.map_nil, Nat.zero_add]

theorem origins_cons (t : Track) (ts : List Track) : origins (t :: ts) = origins ts ++ [⟨ts.length, t.info⟩] := by
  rw [origins, numbered_cons, List.map_append, origins]
  rfl

theorem buffers_cons (t : Track) (ts : List Track) :
    buffers (t :: ts) = buffers ts ++ t.buffers.map (Prod.mk ⟨ts.length, t.info⟩) := by
  rw [buffers, numbered_cons, List.flatMap_append, buffers]
  simp only [List.flatMap_cons, List.flatMap_nil, List.append_nil]

theorem givenUp_cons (t : Track) (ts : List Track) :
    givenUp (t :: ts) = givenUp ts ++ if t.rejected = true then [⟨ts.length, t.info⟩] else [] := by
  rw [givenUp, numbered_cons, List.filter_append, List.map_append, givenUp, List.filter_cons, List.filter_nil]
  split <;> rfl

theorem number_lt {o : Origin} (h : o ∈ origins ts) : o.number < ts.length := by
  induction ts with
  | nil => cases h
  | cons t ts ih =>
      rw [origins_cons, List.mem_append, List.mem_singleton] at h
      rw [List.length_cons]
      rcases h with h | rfl
      · exact Nat.lt_succ_of_lt (ih h)
      · exact Nat.lt_succ_self _

end Tracks

section Connections

variable {header} {c : Connection}

theorem intact_opened (during : Option Nat) : Intact header (opened during) := ⟨rfl, rfl, rfl, fun _ => rfl⟩

theorem headed_opened (during : Option Nat) : Headed (opened during) := ⟨rfl, fun _ ho => nomatch ho⟩

theorem Intact.carries (h : Intact header c) : Carries header c := by
  refine ⟨[], by rw [h.peer, List.append_nil], ?_⟩
  cases hannounced : c.announced with
  | none => exact ⟨by rw [Connection.taken, h.sent hannounced, h.lost]; rfl, List.nil_prefix⟩
  | some info => exact ⟨h.unsent, List.nil_prefix⟩

theorem Intact.headers (h : Intact header c) (hnone : c.announced = none) : c.headers = c.rejected := by
  rw [Connection.headers, hnone, h.unsent, Option.toList_none, List.append_nil, List.append_nil]

theorem taken_sendBuffer (h : c.lost = none) (o : Origin) (buf : List UInt8) (connected : Bool) (sending : Sending) :
    (c.sendBuffer o buf connected sending).taken = c.taken ++ [(o, buf)] := by
  rw [Connection.sendBuffer]
  split
  · simp only [Connection.taken, h, Option.toList_none, List.append_nil]
  · simp only [Connection.taken, h, Option.toList_none, List.append_nil, Option.toList_some]

theorem through_prefix (buf : List UInt8) (sending : Sending) : sending.through buf <+: buf := by
  cases sending with
  | whole => exact List.prefix_rfl
  | failed n => exact List.take_prefix n buf

theorem through_of_value {sending : Sending} (h : sending.value = true) (buf : List UInt8) :
    sending.through buf = buf := by
  cases sending with
  | whole => rfl
  | failed n => cases h

theorem Intact.sendBuffer (h : Intact header c) (hne : c.announced ≠ none) (o : Origin) (buf : List UInt8)
    {connected : Bool} {sending : Sending} (hsent : netSend connected sending.value = true) :
    Intact header (c.sendBuffer o buf connected sending) := by
  rw [Connection.sendBuffer, if_pos hsent]
  refine ⟨?_, h.unsent, h.lost, fun hnone => absurd hnone hne⟩
  rw [whole, h.peer, whole, List.map_append, List.flatten_append, List.append_assoc]
  simp only [List.map_cons, List.map_nil, List.flatten_cons, List.flatten_nil, List.append_nil]

theorem Intact.carries_sendBuffer (h : Intact header c) (hne : c.announced ≠ none) (o : Origin) (buf : List UInt8)
    (connected : Bool) (sending : Sending) : Carries header (c.sendBuffer o buf connected sending) := by
  by_cases hsent : netSend connected sending.value = true
  · exact (h.sendBuffer hne o buf hsent).carries
  · rw [Connection.sendBuffer, if_neg hsent]
    refine ⟨if connected = true then sending.through buf else [], ?_, ?_⟩
    · rw [h.peer]
      rfl
    · dsimp only
      split
      next hnone => exact absurd hnone hne
      next =>
        refine ⟨h.unsent, ?_⟩
        split
        · exact through_prefix buf sending
        · exact List.nil_prefix

theorem Headed.sendBuffer (h : Headed c) (hlost : c.lost = none) {o : Origin} (ho : ∀ a ∈ c.announced, a.number ≤ o.number)
    (buf : List UInt8) (connected : Bool) (sending : Sending) : Headed (c.sendBuffer o buf connected sending) := by
  have hsame : (c.sendBuffer o buf connected sending).headers = c.headers ∧
      (c.sendBuffer o buf connected sending).during = c.during ∧
        (c.sendBuffer o buf connected sending).announced = c.announced := by
    rw [Connection.sendBuffer]
    split <;> exact ⟨rfl, rfl, rfl⟩
  obtain ⟨hheaders, hduring, hannounced⟩ := hsame
  refine ⟨?_, fun a ha b hb => ?_⟩
  · rw [hheaders, hduring]
    exact h.numbers
  · rw [hannounced] at ha
    rw [taken_sendBuffer hlost, List.mem_append, List.mem_singleton] at hb
    rcases hb with hb | rfl
    · exact h.behind a ha b hb
    · exact ho a ha

/-- The header that is sent next, as far as it gets. -/
theorem Intact.carries_sendHeader (h : Intact header c) (hnone : c.announced = none) (o : Origin) {sending : Sending}
    (hfailed : sending.value = false) : Carries header (c.sendHeader o (header o.info) true sending) := by
  rw [Connection.sendHeader, if_neg Bool.noConfusion, hfailed, if_neg Bool.false_ne_true]
  refine ⟨sending.through (header o.info), ?_, ?_⟩
  · rw [h.peer]
    rfl
  · dsimp only
    rw [hnone]
    exact ⟨by rw [Connection.taken, h.sent hnone, h.lost]; rfl, through_prefix (header o.info) sending⟩

theorem Headed.add (h : Headed c) {o : Origin} (ho : o.number = c.during.getD 0 + c.headers.length) {d : Connection}
    (hheaders : d.headers = c.headers ++ [o]) (hduring : d.during = c.during) (htaken : d.taken = []) : Headed d := by
  refine ⟨?_, fun a _ b hb => ?_⟩
  · rw [hheaders, hduring, List.map_append, h.numbers, List.map_cons, List.map_nil, List.length_append,
      List.length_singleton, List.range'_concat, Nat.one_mul, ← ho]
  · rw [htaken] at hb
    cases hb

theorem Intact.peer_sendHeader (h : Intact header c) (hnone : c.announced = none) (o : Origin) {sending : Sending}
    (hsent : sending.value = true) :
    c.sendHeader o (header o.info) true sending =
      { c with peer := c.rejected.flatMap (fun o => header o.info) ++ header o.info, unsent := none } := by
  rw [Connection.sendHeader, if_neg Bool.noConfusion, if_pos hsent, through_of_value hsent, h.peer, whole, hnone,
    h.sent hnone]
  simp only [Option.toList_none, List.append_nil, List.map_nil, List.flatten_nil]

theorem Intact.accept (h : Intact header c) (hnone : c.announced = none) (o : Origin) {sending : Sending}
    (hsent : sending.value = true) : Intact header ((c.sendHeader o (header o.info) true sending).accept o) := by
  rw [h.peer_sendHeader hnone o hsent]
  refine ⟨?_, rfl, h.lost, fun hsome => nomatch hsome⟩
  rw [whole, Connection.accept]
  dsimp only
  rw [h.sent hnone]
  simp only [Option.toList_some, List.flatMap_append, List.flatMap_cons, List.flatMap_nil, List.append_nil, List.map_nil,
    List.flatten_nil]

theorem Intact.reject (h : Intact header c) (hnone : c.announced = none) (o : Origin) {sending : Sending}
    (hsent : sending.value = true) : Intact header ((c.sendHeader o (header o.info) true sending).reject o) := by
  rw [h.peer_sendHeader hnone o hsent]
  refine ⟨?_, rfl, h.lost, fun _ => h.sent hnone⟩
  rw [whole, Connection.reject]
  dsimp only
  rw [h.sent hnone, hnone]
  simp only [List.flatMap_append, Option.toList_none, List.flatMap_cons, List.flatMap_nil, List.append_nil,
    List.map_nil, List.flatten_nil]

end Connections


/-- A connection that waits for the header of the next track has had those of all since it was made. -/
def Due (s : State Reader) (c : Connection) : Prop :=
  s.tracks.length = c.during.getD 0 + c.rejected.length + if s.player.control = .sending then 1 else 0

/-- The track that is sent is the one whose file information `start` has. -/
def Begun (s : State Reader) : Prop := ∃ t ts, s.tracks = t :: ts ∧ t.info = s.info ∧ t.rejected = false

structure Inv (s : State Reader) : Prop extends Sound header s where
  last : s.player.connected = true → ∃ c cs, s.connections = c :: cs ∧ Intact header c ∧
    (s.player.evHeader = true ↔ c.announced = none) ∧ (c.announced = none → Due s c)
  begun : s.player.control = .sending → Begun s

/-- A header was accepted on the last connection, and buffers can go out. -/
structure Sendable (s : State Reader) : Prop extends Sound header s where
  connection : ∃ c cs, s.connections = c :: cs ∧ Intact header c ∧ c.announced ≠ none
  begun : Begun s
  accepted : s.player.evHeader = false

/-- The last connection waits for the header of the track that is sent. -/
structure Waiting (s : State Reader) (c : Connection) (cs : List Connection) (t : Track) (ts : List Track) : Prop where
  sound : Sound header s
  connections : s.connections = c :: cs
  tracks : s.tracks = t :: ts
  intact : Intact header c
  announced : c.announced = none
  info : t.info = s.info
  kept : t.rejected = false
  due : s.tracks.length = c.during.getD 0 + c.rejected.length + 1

section Steps

variable {F header} {s s' : State Reader}

theorem origin_eq {t : Track} {ts : List Track} (htracks : s.tracks = t :: ts) (hinfo : t.info = s.info) :
    origin s = ⟨ts.length, t.info⟩ := by
  rw [origin, htracks, hinfo]
  rfl

theorem origin_mem (h : Begun s) : origin s ∈ origins s.tracks := by
  obtain ⟨t, ts, htracks, hinfo, -⟩ := h
  rw [origin_eq htracks hinfo, htracks, origins_cons]
  exact List.mem_append_right _ (List.mem_singleton.mpr rfl)

theorem Sound.of_eq (h : Sound header s) (hconnections : s'.connections = s.connections) (htracks : s'.tracks = s.tracks) :
    Sound header s' := by
  refine ⟨?_, ?_, ?_, ?_⟩
  · rw [hconnections]
    exact h.carries
  · rw [hconnections, htracks]
    exact h.known
  · rw [hconnections, htracks]
    exact h.taken
  · rw [hconnections, htracks]
    exact h.rejected

theorem Inv.of_player (h : Inv header s) (hconnections : s'.connections = s.connections) (htracks : s'.tracks = s.tracks)
    (hconnected : s'.player.connected = true → s.player.connected = true)
    (hev : s'.player.evHeader = s.player.evHeader)
    (hcontrol : s'.player.connected = true → (s'.player.control = .sending ↔ s.player.control = .sending))
    (hbegun : s'.player.control = .sending → s.player.control = .sending ∧ s'.info = s.info) : Inv header s' := by
  refine ⟨h.toSound.of_eq hconnections htracks, fun hyes => ?_, fun hsending => ?_⟩
  · obtain ⟨c, cs, hcs, hintact, hiff, hdue⟩ := h.last (hconnected hyes)
    refine ⟨c, cs, hconnections.trans hcs, hintact, by rw [hev]; exact hiff, fun hnone => ?_⟩
    rw [Due, htracks]
    simp only [hcontrol hyes]
    exact hdue hnone
  · obtain ⟨hbefore, hinfo⟩ := hbegun hsending
    rw [Begun, htracks, hinfo]
    exact h.begun hbefore

theorem Inv.begin (h : Inv header s) (hhead : s.player.control = .head) {t : Track} (hbuffers : t.buffers = [])
    (hrejected : t.rejected = false) (hconnections : s'.connections = s.connections) (htracks : s'.tracks = t :: s.tracks)
    (hinfo : t.info = s'.info) (hconnected : s'.player.connected = s.player.connected)
    (hev : s'.player.evHeader = s.player.evHeader) (hsending : s'.player.control = .sending) : Inv header s' := by
  refine ⟨⟨?_, ?_, ?_, ?_⟩, fun hyes => ?_, fun _ => ⟨t, s.tracks, htracks, hinfo, hrejected⟩⟩
  · rw [hconnections]
    exact h.carries
  · rw [hconnections, htracks, origins_cons]
    exact fun c hc o ho => List.mem_append_left _ (h.known c hc ho)
  · rw [hconnections, htracks, buffers_cons, hbuffers, List.map_nil, List.append_nil]
    exact h.taken
  · rw [hconnections, htracks, givenUp_cons, hrejected, if_neg Bool.false_ne_true, List.append_nil]
    exact h.rejected
  · rw [hconnected] at hyes
    obtain ⟨c, cs, hcs, hintact, hiff, hdue⟩ := h.last hyes
    refine ⟨c, cs, hconnections.trans hcs, hintact, by rw [hev]; exact hiff, fun hnone => ?_⟩
    have hbefore := hdue hnone
    rw [Due, hhead, if_neg Control.noConfusion] at hbefore
    rw [Due, hsending, if_pos rfl, htracks, List.length_cons, hbefore]

theorem attempt_inv (hinv : Inv header s) (hcontrol : s.player.control = .head) {fileExists : Bool}
    {fopen : Option (List UInt8)} (h : Attempted F s fileExists fopen s') : Inv header s' := by
  cases h with
  | ended =>
      refine hinv.of_player rfl rfl id rfl (fun _ => ?_) fun hstopped => by cases hstopped
      rw [hcontrol]
      exact iff_of_false Control.noConfusion Control.noConfusion
  | removed =>
      exact hinv.of_player rfl rfl id rfl (fun _ => Iff.rfl) fun hsending =>
        Control.noConfusion (hcontrol.symm.trans hsending)
  | begun info reader => exact hinv.begin hcontrol rfl rfl rfl rfl rfl rfl rfl rfl

theorem finish_player (p : Playlist.State) (newPlaylist : Option Lplaylist) :
    (Playlist.finish p newPlaylist).connected = p.connected ∧ (Playlist.finish p newPlaylist).evHeader = p.evHeader ∧
      (Playlist.finish p newPlaylist).icecastSampleRate = p.icecastSampleRate ∧
        (Playlist.finish p newPlaylist).control ≠ .sending := by
  simp only [Playlist.finish]
  split
  · exact ⟨rfl, rfl, rfl, Control.noConfusion⟩
  · cases newPlaylist <;> exact ⟨rfl, rfl, rfl, Control.noConfusion⟩

theorem finish_inv (hinv : Inv header s) (hcontrol : s.player.control = .finished) (newPlaylist : Option Lplaylist) :
    Inv header (finish F s newPlaylist) := by
  obtain ⟨hconnected, hev, -, hnot⟩ := finish_player s.player newPlaylist
  refine hinv.of_player rfl rfl (fun hyes => hconnected ▸ hyes) hev (fun _ => ?_) fun hsending => absurd hsending hnot
  rw [hcontrol]
  exact iff_of_false hnot Control.noConfusion

theorem inv_of_sendable (h : Sendable header s) : Inv header s := by
  obtain ⟨c, cs, hconnections, hintact, hne⟩ := h.connection
  refine ⟨h.toSound, fun _ => ⟨c, cs, hconnections, hintact, ?_, fun hnone => absurd hnone hne⟩, fun _ => h.begun⟩
  rw [h.accepted]
  exact iff_of_false Bool.false_ne_true hne

theorem Sound.modifyLast (h : Sound header s) {c d : Connection} {cs : List Connection} {t u : Track} {ts : List Track}
    (hcs : s.connections = c :: cs) (htracks : s.tracks = t :: ts) (hd : Carries header d ∧ Headed d)
    (hinfo : u.info = t.info) (hheaders : d.headers ⊆ origins (t :: ts)) (read : List (List UInt8))
    (hbuffers : u.buffers = t.buffers ++ read) (htaken : d.taken = c.taken ++ read.map (Prod.mk ⟨ts.length, t.info⟩))
    (refused : List Origin) (hgivenUp : givenUp (u :: ts) = givenUp (t :: ts) ++ refused)
    (hrejected : d.rejected = c.rejected ++ refused) (hcs' : s'.connections = d :: cs) (htracks' : s'.tracks = u :: ts) :
    Sound header s' := by
  have horigins : origins (u :: ts) = origins (t :: ts) := by rw [origins_cons, origins_cons, hinfo]
  refine ⟨?_, ?_, ?_, ?_⟩
  · have hcarries := h.carries
    rw [hcs, List.forall_mem_cons] at hcarries
    rw [hcs', List.forall_mem_cons]
    exact ⟨hd, hcarries.2⟩
  · have hknown := h.known
    rw [hcs, htracks, List.forall_mem_cons] at hknown
    rw [hcs', htracks', horigins, List.forall_mem_cons]
    exact ⟨hheaders, hknown.2⟩
  · have hbefore := h.taken
    rw [hcs, htracks, List.reverse_cons, List.flatMap_append, buffers_cons] at hbefore
    rw [hcs', htracks', List.reverse_cons, List.flatMap_append, buffers_cons, hbuffers, List.map_append, hinfo,
      ← List.append_assoc, hbefore, List.append_assoc]
    simp only [List.flatMap_cons, List.flatMap_nil, List.append_nil, htaken]
  · have hbefore := h.rejected
    rw [hcs, htracks, List.reverse_cons, List.flatMap_append] at hbefore
    rw [hcs', htracks', List.reverse_cons, List.flatMap_append, hgivenUp, hbefore, List.append_assoc]
    simp only [List.flatMap_cons, List.flatMap_nil, List.append_nil, hrejected]

theorem getFrames_inv (hs : Sendable header s) {i : Iteration} (h : getFrames F s i = some s') : Inv header s' := by
  simp only [getFrames, Option.bind_eq_bind, Option.bind_eq_some_iff] at h
  obtain ⟨⟨buf, reader⟩, -, h⟩ := h
  dsimp only at h
  split at h
  next =>
    cases h
    exact inv_of_sendable ⟨hs.toSound.of_eq rfl rfl, hs.connection, hs.begun, hs.accepted⟩
  next =>
    cases h
    obtain ⟨c, cs, hcs, hintact, hne⟩ := hs.connection
    obtain ⟨t, ts, htracks, hinfo, hopen⟩ := hs.begun
    have horigin := origin_eq htracks hinfo
    have hcarries := (hs.carries c (by rw [hcs]; exact List.mem_cons_self)).2
    have hknown := hs.known c (by rw [hcs]; exact List.mem_cons_self)
    rw [htracks] at hknown
    have hbehind : ∀ a ∈ c.announced, a.number ≤ (origin s).number := by
      intro a ha
      have hlt := number_lt (hknown (List.mem_append_left _ (List.mem_append_right _ (Option.mem_toList.mpr ha))))
      rw [horigin]
      exact Nat.le_of_lt_succ hlt
    have hsame : (c.sendBuffer (origin s) buf s.player.connected i.frames).headers = c.headers ∧
        (c.sendBuffer (origin s) buf s.player.connected i.frames).rejected = c.rejected ∧
          (c.sendBuffer (origin s) buf s.player.connected i.frames).announced = c.announced := by
      rw [Connection.sendBuffer]
      split <;> exact ⟨rfl, rfl, rfl⟩
    obtain ⟨hheaders, hrejected, hannounced⟩ := hsame
    have hlast : (onLast (Connection.sendBuffer (origin s) buf s.player.connected i.frames) s).connections =
        c.sendBuffer (origin s) buf s.player.connected i.frames :: cs := by
      rw [onLast, hcs, List.modifyHead_cons]
    have hread : s.tracks.modifyHead (Track.read buf) = t.read buf :: ts := by rw [htracks, List.modifyHead_cons]
    refine ⟨?_, fun hyes => ⟨_, cs, hlast, hintact.sendBuffer hne _ buf hyes, ?_, fun hnone => ?_⟩, fun _ => ?_⟩
    · refine hs.toSound.modifyLast (u := t.read buf) hcs htracks
        ⟨hintact.carries_sendBuffer hne _ buf _ _, hcarries.sendBuffer hintact.lost hbehind buf _ _⟩ rfl
        ?_ [buf] rfl ?_ [] ?_ ?_ hlast hread
      · rw [hheaders]
        exact hknown
      · rw [taken_sendBuffer hintact.lost, horigin]
        rfl
      · rw [givenUp_cons, givenUp_cons, List.append_nil]
        rfl
      · rw [hrejected, List.append_nil]
    · rw [hannounced]
      exact iff_of_false (by simp [hs.accepted]) hne
    · exact absurd (hannounced.symm.trans hnone) hne
    · exact ⟨t.read buf, ts, hread, hinfo, hopen⟩

theorem sendFrames_inv (hs : Sendable header s) {i : Iteration} (h : sendFrames F s i = some s') : Inv header s' := by
  rw [sendFrames] at h
  split at h
  · refine getFrames_inv ?_ h
    exact ⟨hs.toSound.of_eq rfl rfl, hs.connection, hs.begun, hs.accepted⟩
  · exact getFrames_inv hs h

theorem onLast_sendHeader (s : State Reader) (o : Origin) (text : List UInt8) (sending : Sending) :
    onLast (Connection.sendHeader o text false sending) s = s := by
  have hid : Connection.sendHeader o text false sending = id := rfl
  rw [onLast, hid, List.modifyHead_id]
  rfl

section Header

variable {c : Connection} {cs : List Connection} {t : Track} {ts : List Track} {sending : Sending}

theorem Inv.waiting (h : Inv header s) (hcontrol : s.player.control = .sending) (hconnected : s.player.connected = true)
    (hev : s.player.evHeader = true) : ∃ c cs t ts, Waiting header s c cs t ts := by
  obtain ⟨c, cs, hcs, hintact, hiff, hdue⟩ := h.last hconnected
  obtain ⟨t, ts, htracks, hinfo, hkept⟩ := h.begun hcontrol
  have hlength := hdue (hiff.mp hev)
  rw [Due, hcontrol, if_pos rfl] at hlength
  exact ⟨c, cs, t, ts, h.toSound, hcs, htracks, hintact, hiff.mp hev, hinfo, hkept, hlength⟩

theorem Waiting.taken (h : Waiting header s c cs t ts) : c.taken = [] := by
  rw [Connection.taken, h.intact.sent h.announced, h.intact.lost]
  rfl

theorem Waiting.headed (h : Waiting header s c cs t ts) {d : Connection} (hheaders : d.headers = c.rejected ++ [origin s])
    (hduring : d.during = c.during) (htaken : d.taken = []) : Headed d ∧ d.headers ⊆ origins (t :: ts) := by
  have hmem : c ∈ s.connections := by rw [h.connections]; exact List.mem_cons_self
  have hbegun : Begun s := ⟨t, ts, h.tracks, h.info, h.kept⟩
  have hnumber : (origin s).number = c.during.getD 0 + c.headers.length := by
    have hlength := h.due
    rw [h.tracks, List.length_cons] at hlength
    rw [origin_eq h.tracks h.info, h.intact.headers h.announced]
    exact Nat.succ.inj hlength
  rw [← h.intact.headers h.announced] at hheaders
  refine ⟨(h.sound.carries c hmem).2.add hnumber hheaders hduring htaken, ?_⟩
  rw [hheaders, ← h.tracks]
  exact List.append_subset.mpr ⟨h.sound.known c hmem, List.cons_subset.mpr ⟨origin_mem hbegun, List.nil_subset _⟩⟩

theorem Waiting.fail (h : Waiting header s c cs t ts) (hfailed : sending.value = false)
    (hconnections : s'.connections = c.sendHeader (origin s) (header s.info) true sending :: cs)
    (htracks : s'.tracks = s.tracks) : Sound header s' := by
  have hcarries : Carries header (c.sendHeader (origin s) (header s.info) true sending) :=
    h.intact.carries_sendHeader h.announced (origin s) hfailed
  have hsend : c.sendHeader (origin s) (header s.info) true sending =
      { c with peer := c.peer ++ sending.through (header s.info), unsent := some (origin s) } := by
    rw [Connection.sendHeader, if_neg Bool.noConfusion, hfailed]
    rfl
  obtain ⟨hheaded, hknown⟩ := h.headed (d := c.sendHeader (origin s) (header s.info) true sending)
    (by rw [hsend, Connection.headers, h.announced]; simp) (by rw [hsend]) (by rw [hsend]; exact h.taken)
  refine h.sound.modifyLast h.connections h.tracks ⟨hcarries, hheaded⟩ rfl hknown [] (List.append_nil _).symm ?_ []
    (List.append_nil _).symm ?_ hconnections (htracks.trans h.tracks)
  · rw [hsend]
    exact (List.append_nil _).symm
  · rw [hsend]
    exact (List.append_nil _).symm

theorem Waiting.reject (h : Waiting header s c cs t ts) (hsent : sending.value = true)
    (hconnections : s'.connections = (c.sendHeader (origin s) (header s.info) true sending).reject (origin s) :: cs)
    (htracks : s'.tracks = t.reject :: ts) : Sound header s' := by
  have hsend := h.intact.peer_sendHeader h.announced (origin s) hsent
  obtain ⟨hheaded, hknown⟩ := h.headed
    (d := (c.sendHeader (origin s) (header (origin s).info) true sending).reject (origin s))
    (by rw [hsend, Connection.reject, Connection.headers, h.announced]; simp) (by rw [hsend]; rfl)
    (by rw [hsend]; exact h.taken)
  have hintact := h.intact.reject h.announced (origin s) hsent
  refine h.sound.modifyLast (u := t.reject) h.connections h.tracks ⟨hintact.carries, hheaded⟩ rfl hknown []
    (List.append_nil _).symm ?_ [origin s] ?_ ?_ hconnections htracks
  · rw [hsend]
    exact (List.append_nil _).symm
  · rw [givenUp_cons, givenUp_cons, h.kept, if_neg Bool.false_ne_true, List.append_nil, origin_eq h.tracks h.info]
    rfl
  · rw [hsend]
    rfl

theorem Waiting.accept (h : Waiting header s c cs t ts) (hsent : sending.value = true)
    (hconnections : s'.connections = (c.sendHeader (origin s) (header s.info) true sending).accept (origin s) :: cs)
    (htracks : s'.tracks = s.tracks) : Sound header s' := by
  have hsend := h.intact.peer_sendHeader h.announced (origin s) hsent
  obtain ⟨hheaded, hknown⟩ := h.headed
    (d := (c.sendHeader (origin s) (header (origin s).info) true sending).accept (origin s))
    (by rw [hsend, Connection.accept, Connection.headers]; simp) (by rw [hsend]; rfl) (by rw [hsend]; exact h.taken)
  have hintact := h.intact.accept h.announced (origin s) hsent
  refine h.sound.modifyLast h.connections h.tracks ⟨hintact.carries, hheaded⟩ rfl hknown []
    (List.append_nil _).symm ?_ [] (List.append_nil _).symm ?_ hconnections (htracks.trans h.tracks)
  · rw [hsend]
    exact (List.append_nil _).symm
  · rw [hsend]
    exact (List.append_nil _).symm

theorem Waiting.announced_reject (h : Waiting header s c cs t ts) (hsent : sending.value = true) :
    ((c.sendHeader (origin s) (header s.info) true sending).reject (origin s)).announced = none := by
  have hsend : c.sendHeader (origin s) (header s.info) true sending = _ :=
    h.intact.peer_sendHeader h.announced (origin s) hsent
  rw [hsend]
  exact h.announced

/-- On a connection whose header was not accepted that of the next track is due. -/
theorem Waiting.due_reject (h : Waiting header s c cs t ts) (hsent : sending.value = true)
    (htracks : s'.tracks = t.reject :: ts) (hcontrol : s'.player.control ≠ .sending) :
    Due s' ((c.sendHeader (origin s) (header s.info) true sending).reject (origin s)) := by
  have hsend : c.sendHeader (origin s) (header s.info) true sending = _ :=
    h.intact.peer_sendHeader h.announced (origin s) hsent
  have hlength := h.due
  rw [h.tracks] at hlength
  rw [Due, if_neg hcontrol, htracks, hsend, Connection.reject]
  dsimp only
  rw [List.length_append, List.length_singleton]
  exact hlength

end Header

theorem sendHeader_inv (hinv : Inv header s) (hcontrol : s.player.control = .sending)
    (hask : s.player.connected = false → s.player.evHeader = true) {i : Iteration}
    (h : sendHeader F header s i = some s') : Inv header s' := by
  rw [sendHeader] at h
  split at h
  next hev =>
    cases hconnected : s.player.connected with
    | false =>
        rw [hconnected, onLast_sendHeader] at h
        cases h
        exact hinv.of_player rfl rfl (fun hyes => Bool.noConfusion hyes) rfl (fun hyes => Bool.noConfusion hyes)
          fun hsending => ⟨hsending, rfl⟩
    | true =>
        obtain ⟨c, cs, t, ts, hwait⟩ := hinv.waiting hcontrol hconnected hev
        rw [hconnected, onLast, hwait.connections, List.modifyHead_cons] at h
        dsimp only at h
        split at h
        next hfailed =>
          cases h
          exact ⟨hwait.fail hfailed rfl rfl, fun hyes => absurd (hfailed.symm.trans hyes) Bool.false_ne_true,
            fun _ => hinv.begun hcontrol⟩
        next hsent =>
          have hsent : i.header.value = true := (Bool.not_eq_false _).mp hsent
          split at h
          next hfound =>
            have hlast : s.tracks.modifyHead Track.reject = t.reject :: ts := by rw [hwait.tracks, List.modifyHead_cons]
            cases h
            exact ⟨hwait.reject hsent rfl hlast,
              fun _ => ⟨_, cs, rfl, hwait.intact.reject hwait.announced (origin s) hsent,
                iff_of_true hev (hwait.announced_reject hsent),
                fun _ => hwait.due_reject hsent hlast Control.noConfusion⟩, fun hfinished => by cases hfinished⟩
          next hfound =>
            refine sendFrames_inv ?_ h
            exact ⟨hwait.accept hsent rfl rfl,
              ⟨_, cs, rfl, hwait.intact.accept hwait.announced (origin s) hsent, Option.some_ne_none _⟩,
              hinv.begun hcontrol, rfl⟩
  next hev =>
    have hconnected : s.player.connected = true := by
      by_contra hnot
      exact hev (hask (Bool.not_eq_true _ ▸ hnot))
    obtain ⟨c, cs, hcs, hintact, hiff, -⟩ := hinv.last hconnected
    exact sendFrames_inv ⟨hinv.toSound, ⟨c, cs, hcs, hintact, fun hnone => hev (hiff.mpr hnone)⟩, hinv.begun hcontrol,
      Bool.not_eq_true _ ▸ hev⟩ h

theorem askHeader_cases (p : Playlist.State) : p.connected = true ∧ Playlist.askHeader p = p ∨
    p.connected = false ∧ Playlist.askHeader p =
      { p with evHeader := true, icecastSampleRate := -1, attempts := p.attempts.modifyHead Attempt.lose } := by
  rw [Playlist.askHeader]
  cases hconnected : p.connected with
  | true => exact .inl ⟨rfl, if_pos rfl⟩
  | false => exact .inr ⟨rfl, by rw [if_neg Bool.false_ne_true, ← hconnected]⟩

theorem askHeader_inv (hinv : Inv header s) : Inv header (askHeader s) := by
  rcases askHeader_cases s.player with ⟨-, hask⟩ | ⟨hconnected, hask⟩
  · rw [askHeader, hask]
    exact hinv
  · rw [askHeader, hask]
    exact ⟨hinv.toSound.of_eq rfl rfl, fun hyes => absurd (hconnected.symm.trans hyes) Bool.false_ne_true, hinv.begun⟩

theorem askHeader_asks (h : (askHeader s).player.connected = false) : (askHeader s).player.evHeader = true := by
  rw [askHeader] at h ⊢
  dsimp only at h ⊢
  rcases askHeader_cases s.player with ⟨hconnected, hask⟩ | ⟨-, hask⟩
  · rw [hask] at h
    exact absurd (hconnected.symm.trans h) Bool.noConfusion
  · rw [hask]

theorem netConnect_true (c : Connect) : netConnect true c = (true, true) := by
  cases c <;> rfl

theorem connect_of_connected (h : s.player.connected = true) (c : Connect) : connect s c = s := by
  rw [connect, setConnected, h, netConnect_true, if_neg (by simp), ← h]

theorem connect_connected (h : s.player.connected = false) :
    (connect s .connected).connections = opened (some (s.tracks.length - 1)) :: s.connections := by
  rw [connect, h]
  rfl

theorem connect_fails (h : s.player.connected = false) {c : Connect} (hc : c ≠ .connected) :
    (connect s c).connections = s.connections ∧ (connect s c).player.connected = false := by
  rw [connect, setConnected, h]
  cases c with
  | error => exact ⟨rfl, rfl⟩
  | refused => exact ⟨rfl, rfl⟩
  | connected => exact absurd rfl hc

theorem connect_asks {c : Connect} (h : (connect (askHeader s) c).player.connected = false) :
    (connect (askHeader s) c).player.evHeader = true := by
  refine askHeader_asks (s := s) ?_
  by_contra hyes
  rw [connect_of_connected ((Bool.not_eq_false _).mp hyes)] at h
  exact hyes h

theorem connect_inv (hinv : Inv header s) (hcontrol : s.player.control = .sending)
    (hask : s.player.connected = false → s.player.evHeader = true) (c : Connect) : Inv header (connect s c) := by
  cases hconnected : s.player.connected with
  | true =>
      rw [connect_of_connected hconnected]
      exact hinv
  | false =>
      by_cases hc : c = .connected
      · subst hc
        have hnew := connect_connected hconnected
        obtain ⟨t, ts, htracks, -⟩ := hinv.begun hcontrol
        refine ⟨⟨?_, ?_, ?_, ?_⟩,
          fun _ => ⟨_, _, hnew, intact_opened _, iff_of_true (hask hconnected) rfl, fun _ => ?_⟩, hinv.begun⟩
        · rw [hnew, List.forall_mem_cons]
          exact ⟨⟨(intact_opened _).carries, headed_opened _⟩, hinv.carries⟩
        · rw [hnew, List.forall_mem_cons]
          exact ⟨List.nil_subset _, hinv.known⟩
        · rw [hnew, List.reverse_cons, List.flatMap_append]
          exact hinv.taken.trans (List.append_nil _).symm
        · rw [hnew, List.reverse_cons, List.flatMap_append]
          exact hinv.rejected.trans (List.append_nil _).symm
        · have hsending : (connect s .connected).player.control = .sending := hcontrol
          have hsame : (connect s .connected).tracks = s.tracks := rfl
          rw [Due, hsending, if_pos rfl, hsame, htracks]
          rfl
      · obtain ⟨hconnections, hno⟩ := connect_fails hconnected hc
        exact hinv.of_player hconnections rfl (fun hyes => absurd (hno.symm.trans hyes) Bool.false_ne_true) rfl
          (fun _ => Iff.rfl) fun hsending => ⟨hsending, rfl⟩

theorem askHeader_control (s : State Reader) : (askHeader s).player.control = s.player.control := by
  rw [askHeader]
  rcases askHeader_cases s.player with ⟨-, hask⟩ | ⟨-, hask⟩ <;> (dsimp only; rw [hask])

theorem iterate_inv (hinv : Inv header s) (hcontrol : s.player.control = .sending) {i : Iteration}
    (h : iterate F header s i = some s') : Inv header s' := by
  have hsending : (askHeader s).player.control = .sending := (askHeader_control s).trans hcontrol
  have hask := connect_inv (askHeader_inv hinv) hsending askHeader_asks i.connect
  rw [iterate] at h
  dsimp only at h
  split at h
  next hvalue =>
    cases h
    have hno : (connect (askHeader s) i.connect).player.connected = false := netConnect_eq_false hvalue
    exact hask.of_player rfl rfl id rfl (fun hyes => absurd (hno.symm.trans hyes) Bool.false_ne_true)
      fun hfinished => by cases hfinished
  · exact sendHeader_inv hask hsending connect_asks h

theorem step_inv (hinv : Inv header s) {e : Event} (h : step F header s e = some s') : Inv header s' := by
  cases change_of_step h with
  | unfit => exact hinv
  | attempt hcontrol h => exact attempt_inv hinv hcontrol h
  | iterate hcontrol h => exact iterate_inv hinv hcontrol h
  | finish newPlaylist hcontrol => exact finish_inv hinv hcontrol newPlaylist

theorem start_player (playList : Lplaylist) (playfileExists : Bool) (npfile : Option Nat) (c : Connect) :
    ((Playlist.start playList playfileExists npfile c).connected = true →
      (Playlist.start playList playfileExists npfile c).evHeader = true) ∧
      (Playlist.start playList playfileExists npfile c).control ≠ .sending := by
  rw [Playlist.start]
  split
  · exact ⟨Bool.noConfusion, Control.noConfusion⟩
  · generalize (if playfileExists = true then advanceIterator playList npfile else 0) = it
    dsimp only
    split
    · exact ⟨fun _ => rfl, Control.noConfusion⟩
    · exact ⟨Bool.noConfusion, Control.noConfusion⟩

theorem start_inv (playList : Lplaylist) (playfileExists : Bool) (npfile : Option Nat) (c : Connect)
    (reader : Reader) : Inv header (start playList playfileExists npfile c reader) := by
  obtain ⟨hev, hcontrol⟩ := start_player playList playfileExists npfile c
  have hbegun : (start playList playfileExists npfile c reader).player.control = .sending →
      Begun (start playList playfileExists npfile c reader) := fun hsending => absurd hsending hcontrol
  cases hconnected : (Playlist.start playList playfileExists npfile c).connected with
  | true =>
      have hopened : (start playList playfileExists npfile c reader).connections = [opened none] := if_pos hconnected
      refine ⟨⟨?_, ?_, ?_, ?_⟩,
        fun _ => ⟨_, _, hopened, intact_opened none, iff_of_true (hev hconnected) rfl, fun _ => ?_⟩, hbegun⟩
      · rw [hopened, List.forall_mem_singleton]
        exact ⟨(intact_opened none).carries, headed_opened none⟩
      · rw [hopened, List.forall_mem_singleton]
        exact List.nil_subset _
      · rw [hopened]
        rfl
      · rw [hopened]
        rfl
      · change 0 = 0 + 0 + if (Playlist.start playList playfileExists npfile c).control = .sending then 1 else 0
        rw [if_neg hcontrol]
  | false =>
      have hnone : (start playList playfileExists npfile c reader).connections = [] :=
        if_neg (by rw [hconnected]; exact Bool.false_ne_true)
      refine ⟨⟨?_, ?_, ?_, ?_⟩, fun hyes => absurd (hconnected.symm.trans hyes) Bool.false_ne_true, hbegun⟩
      · rw [hnone]
        exact fun d hd => nomatch hd
      · rw [hnone]
        exact fun d hd => nomatch hd
      · rw [hnone]
        rfl
      · rw [hnone]
        rfl

theorem run_inv {playList : Lplaylist} {playfileExists : Bool} {npfile : Option Nat} {c : Connect} {reader : Reader}
    {es : List Event} (h : es.foldlM (step F header) (start playList playfileExists npfile c reader) = some s) :
    Inv header s :=
  foldlM_invariant (Inv header) (fun _ _ _ hstep hinv => step_inv hinv hstep) h
    (start_inv playList playfileExists npfile c reader)

/-- The buffers that are read go out in their order, each on one connection and as a whole, but for the last one of a
connection that broke. In front of them goes the header of the track in which the connection was made, or that of a
later one where it was not accepted. -/
theorem run_carries {playList : Lplaylist} {playfileExists : Bool} {npfile : Option Nat} {c : Connect}
    {reader : Reader} {es : List Event}
    (h : es.foldlM (step F header) (start playList playfileExists npfile c reader) = some s) :
    Sound header s ∧ (s.player.connected = true → ∃ c ∈ s.connections.head?, c.peer = whole header c) := by
  have hinv := run_inv h
  refine ⟨hinv.toSound, fun hconnected => ?_⟩
  obtain ⟨c, cs, hcs, hintact, -⟩ := hinv.last hconnected
  exact ⟨c, by rw [hcs]; rfl, hintact.peer⟩

/-- The connection breaks in the buffer of the first track. The header is answered without a 200 when it is made again,
so the next track is that of a new playlist, and the header is sent once more. -/
def demoEvents : List Event :=
  [.attempt true (some (AacStream.concat [AacStream.demoFrame, AacStream.demoFrame])),
    .iterate ⟨.connected, .whole, .text true, .failed 100⟩, .iterate ⟨.connected, .whole, .text false, .whole⟩,
    .finish (some ["b".toList]),
    .attempt true (some (AacStream.concat [AacStream.demoFrame])), .iterate ⟨.connected, .whole, .text true, .whole⟩]

def demoHeader (info : FileInfo) : List UInt8 := [0x53, info.sr.toNat.toUInt8, 0x0A]

def demoStart : State Aac.Taac := start ["a".toList, "b".toList] false none .connected ⟨none, 0, 0, 0⟩

theorem run_carries_demo : ∃ s, demoEvents.foldlM (step aac demoHeader) demoStart = some s ∧
    Sound demoHeader s ∧ (s.player.connected = true → ∃ c ∈ s.connections.head?, c.peer = whole demoHeader c) := by
  have hsome : (demoEvents.foldlM (step aac demoHeader) demoStart).isSome = true := by decide +kernel
  obtain ⟨s, hs⟩ := Option.isSome_iff_exists.mp hsome
  exact ⟨s, hs, run_carries hs⟩

end Steps

end RadioServices.Station.Broadcast

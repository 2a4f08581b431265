import RadioServices.Lib.Runs
import RadioServices.Accordion.Parameters
import Mathlib.Data.List.Chain

namespace RadioServices.Accordion.Playlist

open Lib.C Lib.Runs

inductive Connect
  | error
  | refused
  | connected

/-- The value of `net_connect` and `f_connected` after it. The early returns
convert -1 to true. -/
def netConnect (fConnected : Bool) (c : Connect) : Bool × Bool :=
  if fConnected = true then (true, true)
  else match c with
  | .error => (true, false)
  | .refused => (false, false)
  | .connected => (true, true)

/-- `net_send` closes the socket when it fails. -/
def netSend (fConnected sent : Bool) : Bool := fConnected && sent

/-- What `recv` gets: the end of the stream, an error, or a text with or without
what is looked for. -/
inductive Reply
  | closed
  | error
  | text (found : Bool)

/-- The value of `net_recv` and `f_connected` after it. An error is converted to true. -/
def netRecv (fConnected : Bool) : Reply → Bool × Bool
  | .closed => (false, false)
  | .error => (true, false)
  | .text found => (found, fConnected)

inductive Outcome
  | pending
  | removed
  | rejected
  | played
  deriving DecidableEq

/-- A track that `get_current_file` gave: the list, its position there, the saved
index, the sample rate of the file if it can be opened, the rate that was kept then,
whether the connection was found lost while it was sent, and what became of it. -/
structure Attempt where
  list : Lplaylist
  index : Nat
  saved : Option Nat
  info : Option Int
  icecast : Int
  lost : Bool
  outcome : Outcome

/-- Where `start` is: at the head of the loop, in the loop over the frames, behind
it, or at its end. -/
inductive Control
  | head
  | sending
  | finished
  | stopped
  deriving DecidableEq

/-- `itPlaylist` is a position, `npfile` the index saved last. `loaded` is the list
as it was loaded, `loadedRate` the rate kept then, and `attempts` are the tracks attempted
since, the latest first. -/
structure State where
  playList : Lplaylist
  itPlaylist : Nat
  connected : Bool
  evHeader : Bool
  icecastSampleRate : Int
  res : Nat
  npfile : Option Nat
  control : Control
  loaded : Lplaylist
  loadedRate : Int
  attempts : List Attempt

def loadIdx (npfile : Option Nat) : Nat := npfile.getD 0

def advanceIterator (playList : Lplaylist) (npfile : Option Nat) : Nat :=
  let idx := loadIdx npfile
  if idx ≠ 0 ∧ idx + 1 < playList.length then idx + 1 else 0

def saveIdx (s : State) : State := { s with npfile := some s.itPlaylist }

def getNextIterator (s : State) : Nat :=
  if s.itPlaylist + 1 < s.playList.length then s.itPlaylist + 1 else 0

def eraseIdx (s : State) : State :=
  let playList := s.playList.eraseIdx s.itPlaylist
  { s with playList := playList, itPlaylist := if s.itPlaylist < playList.length then s.itPlaylist else 0 }

def playlistClear (s : State) : State := { s with playList := [] }

def loadPlaylist (s : State) (pl : Lplaylist) : State :=
  { s with playList := pl, itPlaylist := 0, loaded := pl, loadedRate := s.icecastSampleRate, attempts := [] }

def start (playList : Lplaylist) (playfileExists : Bool) (npfile : Option Nat) (c : Connect) : State :=
  let s : State := ⟨playList, 0, false, false, 0, 0, npfile, .stopped, playList, 0, []⟩
  if playList = [] then s
  else
    let it := if playfileExists = true then advanceIterator playList npfile else 0
    let s := saveIdx { s with itPlaylist := it }
    let (value, connected) := netConnect s.connected c
    if value = true then
      { s with connected := connected, evHeader := true, icecastSampleRate := -1, control := .head, loadedRate := -1 }
    else playlistClear s

structure Iteration where
  connect : Connect
  headerSent : Bool
  reply : Reply
  frames : Nat
  framesSent : Bool

/-- The file information gives the sample rate, if the track can be opened. -/
inductive Event
  | attempt (info : Option Int)
  | iterate (i : Iteration)
  | finish (newPlaylist : Option Lplaylist)

def Attempt.become (outcome : Outcome) (a : Attempt) : Attempt := { a with outcome := outcome }

def Attempt.lose (a : Attempt) : Attempt := { a with lost := true }

def currentAttempt (s : State) (info : Option Int) : Attempt :=
  ⟨s.playList, s.itPlaylist, s.npfile, info, s.icecastSampleRate, false, .pending⟩

def record (s : State) (info : Option Int) : State := { s with attempts := currentAttempt s info :: s.attempts }

def remove (s : State) : State :=
  { eraseIdx s with attempts := s.attempts.modifyHead (Attempt.become .removed) }

def send (s : State) : State := { s with res := 0, control := .sending }

def attempt (s : State) (info : Option Int) : State :=
  if s.playList = [] ∨ s.itPlaylist = s.playList.length then { s with control := .stopped }
  else
    let s := record (saveIdx s) info
    match info with
    | none => remove s
    | some rate =>
        if s.icecastSampleRate = -1 then send { s with icecastSampleRate := rate }
        else if s.icecastSampleRate ≠ rate then remove s
        else send s

def nextTrack (s : State) : State :=
  { s with itPlaylist := getNextIterator s, attempts := s.attempts.modifyHead (Attempt.become .played) }

def getFrames (s : State) (i : Iteration) : State :=
  if i.frames = 0 then { s with res := 0, control := .finished }
  else { s with res := i.frames, connected := netSend s.connected i.framesSent }

/-- The frames of an iteration, once a connection is there and the header sent. -/
def sendFrames (s : State) (i : Iteration) : State :=
  getFrames (if s.res = 0 then nextTrack s else s) i

def sendHeader (s : State) (i : Iteration) : State :=
  if s.evHeader = true then
    let sent := netSend s.connected i.headerSent
    if sent = false then { s with connected := sent }
    else
      let (found, connected) := netRecv sent i.reply
      if found = false then
        { playlistClear s with
          connected := connected
          control := .finished
          attempts := s.attempts.modifyHead (Attempt.become .rejected) }
      else sendFrames { s with connected := connected, evHeader := false } i
  else sendFrames s i

/-- Without a connection the header is to be sent again, and no rate is kept. -/
def askHeader (s : State) : State :=
  if s.connected = true then s
  else { s with evHeader := true, icecastSampleRate := -1, attempts := s.attempts.modifyHead Attempt.lose }

def iterate (s : State) (i : Iteration) : State :=
  let s := askHeader s
  let (value, connected) := netConnect s.connected i.connect
  if value = false then { s with connected := connected, control := .finished }
  else sendHeader { s with connected := connected } i

def finish (s : State) (newPlaylist : Option Lplaylist) : State :=
  if s.connected = false then { s with control := .stopped }
  else match newPlaylist with
  | some pl => { loadPlaylist s pl with control := .head }
  | none => { s with control := .head }

/-- An event that does not fit the place in the code changes nothing. -/
def step (s : State) : Event → State
  | .attempt info => if s.control = .head then attempt s info else s
  | .iterate i => if s.control = .sending then iterate s i else s
  | .finish newPlaylist => if s.control = .finished then finish s newPlaylist else s

namespace Attempt

def listAfter (a : Attempt) : Lplaylist := if a.outcome = .removed then a.list.eraseIdx a.index else a.list

def successor (a : Attempt) : Nat := if a.index + 1 < a.list.length then a.index + 1 else 0

def next (a : Attempt) : Nat :=
  if a.outcome = .removed then (if a.index + 1 < a.list.length then a.index else 0) else a.successor

def Settled (a : Attempt) : Prop := a.outcome = .played ∨ a.outcome = .removed

/-- The file cannot be opened, or a rate is kept and the file has another. -/
def Unplayable (a : Attempt) : Prop := a.info = none ∨ a.icecast ≠ -1 ∧ a.info ≠ some a.icecast

/-- The rate kept behind the attempt. The first file that is opened gives it, and with the connection it is lost. -/
def keptRate (a : Attempt) : Int :=
  if a.lost = true then -1 else if a.icecast = -1 then a.info.getD (-1) else a.icecast

end Attempt

/-- The second attempt is on the successor of the first one's track, which was
played, or removed. -/
structure Follows (a b : Attempt) : Prop where
  settled : a.Settled
  rate : b.icecast = a.keptRate
  list : b.list = a.listAfter
  index : b.index = a.next
  track : b.list[b.index]? = a.list[a.successor]?
  other : a.list.length ≠ 1 → a.successor ≠ a.index

def remaining (s : State) : Lplaylist := (s.attempts.head?.map Attempt.listAfter).getD s.loaded

/-- The cursor is valid, and the attempts go round the list. -/
structure Cyclic (s : State) : Prop where
  cursor : s.control = .head → s.playList ≠ [] → s.itPlaylist < s.playList.length
  saved : ∀ a ∈ s.attempts, a.index < a.list.length ∧ a.saved = some a.index
  removed : ∀ a ∈ s.attempts, a.outcome = .removed ↔ a.Unplayable
  order : s.attempts.IsChain fun b a => Follows a b
  first : ∀ a ∈ s.attempts.getLast?, a.list = s.loaded ∧ a.icecast = s.loadedRate

def Kept (s : State) : Prop := s.playList = remaining s

/-- The connection was refused at the start, or the header of the last track was not accepted. -/
def Cleared (s : State) : Prop :=
  s.playList = [] ∧ (s.attempts = [] ∧ s.control = .stopped ∨ ∃ a ∈ s.attempts.head?, a.outcome = .rejected)

namespace Attempt

theorem next_lt {a : Attempt} (h : a.index < a.list.length) (hne : a.listAfter ≠ []) :
    a.next < a.listAfter.length := by
  have hpos := List.length_pos_iff.mpr hne
  by_cases hr : a.outcome = .removed
  · simp only [next, listAfter, if_pos hr] at hpos ⊢
    rw [List.length_eraseIdx_of_lt h] at hpos ⊢
    split <;> omega
  · simp only [next, listAfter, if_neg hr, successor] at hpos ⊢
    split <;> omega

/-- Erasing a track leaves the cursor on its successor, also at the tail. -/
theorem getElem?_next {a : Attempt} (h : a.index < a.list.length) (hne : a.listAfter ≠ []) :
    a.listAfter[a.next]? = a.list[a.successor]? := by
  by_cases hr : a.outcome = .removed
  · have hpos := List.length_pos_iff.mpr hne
    simp only [next, listAfter, if_pos hr, successor] at hpos ⊢
    rw [List.length_eraseIdx_of_lt h] at hpos
    split
    · rw [List.getElem?_eraseIdx, if_neg (Nat.lt_irrefl _)]
    · rw [List.getElem?_eraseIdx, if_pos (by omega)]
  · simp only [next, listAfter, if_neg hr]

theorem successor_ne_index {a : Attempt} (h : a.index < a.list.length) (hne : a.list.length ≠ 1) :
    a.successor ≠ a.index := by
  rw [successor]
  split <;> omega

end Attempt

def Ready (s : State) : Prop :=
  match s.attempts with
  | [] => s.playList = s.loaded ∧ (s.playList ≠ [] → s.itPlaylist < s.playList.length)
  | a :: _ => a.Settled ∧ s.playList = a.listAfter ∧ s.itPlaylist = a.next

/-- The cursor is on the last track attempted, which has sent no frame yet. -/
def Waiting (s : State) : Prop :=
  ∃ a l, s.attempts = a :: l ∧ s.playList = a.list ∧ a.outcome = .pending ∧ s.itPlaylist = a.index

def Sending (s : State) : Prop :=
  s.res = 0 ∧ Waiting s ∨ s.res ≠ 0 ∧ Ready s ∧ ∃ a ∈ s.attempts.head?, a.outcome = .played

def Place (s : State) : Prop :=
  match s.control with
  | .head => Ready s ∨ Cleared s
  | .sending => Sending s
  | .finished => Ready s ∨ Cleared s ∨ s.connected = false ∧ Kept s
  | .stopped => Kept s ∨ Cleared s

/-- What the attempts made so far satisfy, whatever becomes of the last one. -/
structure Past (loaded : Lplaylist) (loadedRate : Int) (attempts : List Attempt) : Prop where
  saved : ∀ a ∈ attempts, a.index < a.list.length ∧ a.saved = some a.index
  removed : ∀ a ∈ attempts, a.outcome = .removed ↔ a.Unplayable
  order : attempts.IsChain fun b a => Follows a b
  first : ∀ a ∈ attempts.getLast?, a.list = loaded ∧ a.icecast = loadedRate

def Rated (s : State) : Prop := s.icecastSampleRate = (s.attempts.head?.map Attempt.keptRate).getD s.loadedRate

structure Inv (s : State) : Prop where
  place : Place s
  past : Past s.loaded s.loadedRate s.attempts
  rated : Rated s

theorem kept_of_ready {s : State} (h : Ready s) : Kept s := by
  rw [Kept, remaining]
  cases hs : s.attempts with
  | nil => rw [Ready, hs] at h; exact h.1
  | cons a l => rw [Ready, hs] at h; exact h.2.1

theorem kept_of_sending {s : State} (h : Sending s) : Kept s := by
  rcases h with ⟨_, a, l, hs, hl, ho, _⟩ | ⟨_, h, _⟩
  · simp [Kept, remaining, hs, hl, Attempt.listAfter, ho]
  · exact kept_of_ready h

theorem kept_or_cleared {s : State} (h : Place s) : Kept s ∨ Cleared s := by
  rw [Place] at h
  cases hc : s.control with
  | head =>
      rw [hc] at h
      exact h.imp_left kept_of_ready
  | sending =>
      rw [hc] at h
      exact .inl (kept_of_sending h)
  | finished =>
      rw [hc] at h
      rcases h with h | h | ⟨_, h⟩
      · exact .inl (kept_of_ready h)
      · exact .inr h
      · exact .inl h
  | stopped => rwa [hc] at h

theorem itPlaylist_lt {s : State} (h : Ready s) (hp : Past s.loaded s.loadedRate s.attempts) (hne : s.playList ≠ []) :
    s.itPlaylist < s.playList.length := by
  rw [Ready] at h
  cases hs : s.attempts with
  | nil => rw [hs] at h; exact h.2 hne
  | cons a l =>
      rw [hs] at h
      obtain ⟨_, hl, hi⟩ := h
      rw [hl] at hne
      rw [hl, hi]
      exact Attempt.next_lt (hp.saved a (by simp [hs])).1 hne

/-- What becomes of the last attempt does not matter for those before it. -/
theorem past_modify {loaded : Lplaylist} {loadedRate : Int} {a b : Attempt} {l : List Attempt}
    (h : Past loaded loadedRate (a :: l)) (hlist : b.list = a.list) (hindex : b.index = a.index)
    (hsaved : b.saved = a.saved) (hrate : b.icecast = a.icecast) (hremoved : b.outcome = .removed ↔ b.Unplayable) :
    Past loaded loadedRate (b :: l) := by
  constructor
  · intro c hc
    rcases List.mem_cons.mp hc with rfl | hc
    · rw [hlist, hindex, hsaved]
      exact h.saved a List.mem_cons_self
    · exact h.saved c (List.mem_cons_of_mem a hc)
  · intro c hc
    rcases List.mem_cons.mp hc with rfl | hc
    · exact hremoved
    · exact h.removed c (List.mem_cons_of_mem a hc)
  · have ho := h.order
    cases l with
    | nil => exact List.isChain_singleton b
    | cons c l =>
        rw [List.isChain_cons_cons] at ho ⊢
        obtain ⟨hfollows, ho⟩ := ho
        refine ⟨⟨hfollows.settled, hrate.trans hfollows.rate, hlist.trans hfollows.list, hindex.trans hfollows.index, ?_,
          hfollows.other⟩, ho⟩
        rw [hlist, hindex]
        exact hfollows.track
  · have hf := h.first
    cases l with
    | nil =>
        intro c hc
        simp only [List.getLast?_singleton, Option.mem_some_iff] at hc
        subst hc
        rw [hlist, hrate]
        exact hf a rfl
    | cons c l =>
        rw [List.getLast?_cons_cons] at hf ⊢
        exact hf

theorem past_become {loaded : Lplaylist} {loadedRate : Int} {a : Attempt} {l : List Attempt} {outcome : Outcome}
    (h : Past loaded loadedRate (a :: l)) (ha : a.outcome ≠ .removed) (houtcome : outcome ≠ .removed) :
    Past loaded loadedRate (a.become outcome :: l) :=
  past_modify h rfl rfl rfl rfl (iff_of_false houtcome (mt (h.removed a List.mem_cons_self).mpr ha))

theorem past_attempt {s : State} (h : Ready s) (hp : Past s.loaded s.loadedRate s.attempts) (hrated : Rated s)
    (hne : s.playList ≠ []) {info : Option Int} {outcome : Outcome}
    (hremoved : outcome = .removed ↔ (currentAttempt (saveIdx s) info).Unplayable) :
    Past s.loaded s.loadedRate ((currentAttempt (saveIdx s) info).become outcome :: s.attempts) := by
  have hlt := itPlaylist_lt h hp hne
  rw [Ready] at h
  constructor
  · intro b hb
    rcases List.mem_cons.mp hb with rfl | hb
    · exact ⟨hlt, rfl⟩
    · exact hp.saved b hb
  · intro b hb
    rcases List.mem_cons.mp hb with rfl | hb
    · exact hremoved
    · exact hp.removed b hb
  · cases hs : s.attempts with
    | nil => exact List.isChain_singleton _
    | cons a l =>
        rw [hs] at h
        obtain ⟨ha, hl, hi⟩ := h
        have hi' := (hp.saved a (by simp [hs])).1
        have hrate : s.icecastSampleRate = a.keptRate := by
          rw [Rated, hs] at hrated
          exact hrated
        rw [List.isChain_cons_cons]
        constructor
        · refine ⟨ha, hrate, hl, hi, ?_, Attempt.successor_ne_index hi'⟩
          calc s.playList[s.itPlaylist]? = a.listAfter[a.next]? := by rw [hl, hi]
            _ = a.list[a.successor]? := Attempt.getElem?_next hi' (hl ▸ hne)
        · exact hs ▸ hp.order
  · cases hs : s.attempts with
    | nil =>
        rw [Rated, hs] at hrated
        rw [hs] at h
        intro b hb
        simp only [List.getLast?_singleton, Option.mem_some_iff] at hb
        subst hb
        exact ⟨h.1, hrated⟩
    | cons a l =>
        rw [List.getLast?_cons_cons]
        exact hs ▸ hp.first

theorem remove_inv {s : State} (hc : s.control = .head) (h : Ready s) (hp : Past s.loaded s.loadedRate s.attempts)
    (hrated : Rated s) (hne : s.playList ≠ []) {info : Option Int}
    (hremoved : (currentAttempt (saveIdx s) info).Unplayable) : Inv (remove (record (saveIdx s) info)) := by
  have hlt := itPlaylist_lt h hp hne
  refine ⟨?_, past_attempt h hp hrated hne (iff_of_true rfl hremoved), ?_⟩
  · have hn : (eraseIdx s).itPlaylist = ((currentAttempt (saveIdx s) info).become .removed).next := calc
      (eraseIdx s).itPlaylist = if s.itPlaylist + 1 < s.playList.length then s.itPlaylist else 0 := by
        simp only [eraseIdx, List.length_eraseIdx_of_lt hlt, Nat.lt_sub_iff_add_lt]
      _ = ((currentAttempt (saveIdx s) info).become .removed).next := (if_pos rfl).symm
    have hr : Ready (remove (record (saveIdx s) info)) := ⟨.inr rfl, rfl, hn⟩
    have hcontrol : (remove (record (saveIdx s) info)).control = .head := hc
    rw [Place, hcontrol]
    exact .inl hr
  · change s.icecastSampleRate = if s.icecastSampleRate = -1 then info.getD (-1) else s.icecastSampleRate
    split
    next hunset =>
      obtain rfl : info = none := hremoved.resolve_right fun hother => hother.1 hunset
      exact hunset
    · rfl

theorem send_inv {s : State} (h : Ready s) (hp : Past s.loaded s.loadedRate s.attempts) (hrated : Rated s)
    (hne : s.playList ≠ []) {rate : Int} (hkept : ¬ (currentAttempt (saveIdx s) (some rate)).Unplayable) :
    Inv (send { record (saveIdx s) (some rate) with
      icecastSampleRate := if s.icecastSampleRate = -1 then rate else s.icecastSampleRate }) :=
  have hpending : Outcome.pending = .removed ↔ (currentAttempt (saveIdx s) (some rate)).Unplayable :=
    iff_of_false Outcome.noConfusion hkept
  ⟨.inl ⟨rfl, _, s.attempts, rfl, rfl, rfl, rfl⟩, past_attempt h hp hrated hne hpending, rfl⟩

theorem unplayable_some {s : State} {rate : Int} :
    (currentAttempt s (some rate)).Unplayable ↔ s.icecastSampleRate ≠ -1 ∧ s.icecastSampleRate ≠ rate := by
  rw [Attempt.Unplayable, currentAttempt]
  simp only [reduceCtorEq, false_or, ne_eq, Option.some.injEq, eq_comm (a := rate)]

theorem attempt_inv {s : State} (info : Option Int) (hc : s.control = .head) (hinv : Inv s) :
    Inv (attempt s info) := by
  obtain ⟨h, hp, hrated⟩ := hinv
  rw [Place, hc] at h
  rw [attempt]
  split
  next =>
    refine ⟨?_, hp, hrated⟩
    rcases h with h | ⟨hl, hr⟩
    · exact .inl (kept_of_ready h)
    · exact .inr ⟨hl, hr.imp_left fun hr => ⟨hr.1, rfl⟩⟩
  next hne =>
    obtain ⟨hne, -⟩ := not_or.mp hne
    have hr : Ready s := h.resolve_right fun hcl => hne hcl.1
    cases info with
    | none => exact remove_inv hc hr hp hrated hne (.inl rfl)
    | some rate =>
        have hsend := @send_inv s hr hp hrated hne rate
        change Inv (if s.icecastSampleRate = -1 then _ else if s.icecastSampleRate ≠ rate then _ else _)
        split
        next hunset =>
          rw [if_pos hunset] at hsend
          exact hsend fun hother => (unplayable_some.mp hother).1 hunset
        next hset =>
          rw [if_neg hset] at hsend
          split
          next hother => exact remove_inv hc hr hp hrated hne (unplayable_some.mpr ⟨hset, hother⟩)
          next hsame => exact hsend fun hother => hsame (unplayable_some.mp hother).2

theorem rated_become {s t : State} {outcome : Outcome} (h : Rated s) (hrate : t.icecastSampleRate = s.icecastSampleRate)
    (hattempts : t.attempts = s.attempts.modifyHead (Attempt.become outcome)) (hloaded : t.loadedRate = s.loadedRate) :
    Rated t := by
  rw [Rated, hrate, hattempts, hloaded, h]
  cases s.attempts <;> rfl

theorem nextTrack_ready {s : State} (h : Waiting s) :
    Ready (nextTrack s) ∧ ∃ a ∈ (nextTrack s).attempts.head?, a.outcome = .played := by
  obtain ⟨a, l, hs, hl, _, hi⟩ := h
  have hn : (nextTrack s).attempts = a.become .played :: l := by rw [nextTrack, hs]; rfl
  refine ⟨?_, a.become .played, by rw [hn]; rfl, rfl⟩
  rw [Ready, hn]
  refine ⟨.inl rfl, hl, ?_⟩
  calc (nextTrack s).itPlaylist
      = if a.index + 1 < a.list.length then a.index + 1 else 0 := by rw [← hl, ← hi]; rfl
    _ = (a.become .played).next := rfl

theorem nextTrack_past {s : State} (h : Waiting s) (hp : Past s.loaded s.loadedRate s.attempts) :
    Past (nextTrack s).loaded (nextTrack s).loadedRate (nextTrack s).attempts := by
  obtain ⟨a, l, hs, _, hpending, _⟩ := h
  simp only [nextTrack]
  rw [hs] at hp ⊢
  exact past_become hp (by rw [hpending]; exact Outcome.noConfusion) Outcome.noConfusion

theorem getFrames_inv {s : State} (i : Iteration) (hc : s.control = .sending) (h : Ready s)
    (hplayed : ∃ a ∈ s.attempts.head?, a.outcome = .played) (hp : Past s.loaded s.loadedRate s.attempts)
    (hrated : Rated s) : Inv (getFrames s i) := by
  rw [getFrames]
  split
  · exact ⟨.inl h, hp, hrated⟩
  next hf =>
    refine ⟨?_, hp, hrated⟩
    rw [Place, hc]
    exact .inr ⟨hf, h, hplayed⟩

theorem sendFrames_inv {s : State} (i : Iteration) (hc : s.control = .sending) (h : Sending s)
    (hp : Past s.loaded s.loadedRate s.attempts) (hrated : Rated s) : Inv (sendFrames s i) := by
  rw [sendFrames]
  rcases h with ⟨hres, h⟩ | ⟨hres, h, hplayed⟩
  · rw [if_pos hres]
    obtain ⟨hr, hplayed⟩ := nextTrack_ready h
    exact getFrames_inv i hc hr hplayed (nextTrack_past h hp) (rated_become hrated rfl rfl rfl)
  · rw [if_neg hres]
    exact getFrames_inv i hc h hplayed hp hrated

theorem netConnect_eq_false {f : Bool} {c : Connect} (h : (netConnect f c).1 = false) :
    (netConnect f c).2 = false := by
  cases f <;> cases c <;> simp_all [netConnect]

theorem underway_of_sending {s : State} (h : Sending s) :
    ∃ a l, s.attempts = a :: l ∧ (a.outcome = .pending ∨ a.outcome = .played) := by
  rcases h with ⟨_, a, l, hs, _, hpending, _⟩ | ⟨_, _, a, hhead, hplayed⟩
  · exact ⟨a, l, hs, .inl hpending⟩
  · obtain ⟨l, hs⟩ := List.head?_eq_some_iff.mp hhead
    exact ⟨a, l, hs, .inr hplayed⟩

theorem reject_inv {s : State} (connected : Bool) (h : Sending s) (hp : Past s.loaded s.loadedRate s.attempts)
    (hrated : Rated s) :
    Inv { playlistClear s with
      connected := connected
      control := .finished
      attempts := s.attempts.modifyHead (Attempt.become .rejected) } := by
  obtain ⟨a, l, hs, hunderway⟩ := underway_of_sending h
  have hkept : a.outcome ≠ .removed := by rcases hunderway with h | h <;> rw [h] <;> exact Outcome.noConfusion
  refine ⟨.inr (.inl ⟨rfl, .inr ⟨a.become .rejected, ?_, rfl⟩⟩), ?_, rated_become hrated rfl rfl rfl⟩
  · rw [hs]
    rfl
  · rw [hs] at hp
    dsimp only
    rw [hs]
    exact past_become hp hkept Outcome.noConfusion

theorem sendHeader_inv {s : State} (i : Iteration) (hc : s.control = .sending) (h : Sending s)
    (hp : Past s.loaded s.loadedRate s.attempts) (hrated : Rated s) : Inv (sendHeader s i) := by
  rw [sendHeader]
  split
  · simp only
    split
    · refine ⟨?_, hp, hrated⟩
      simp only [Place, hc]
      exact h
    · split
      · exact reject_inv _ h hp hrated
      · exact sendFrames_inv i hc h hp hrated
  · exact sendFrames_inv i hc h hp hrated

theorem askHeader_sending {s : State} (h : Sending s) (hp : Past s.loaded s.loadedRate s.attempts) (hrated : Rated s) :
    Sending (askHeader s) ∧ Past (askHeader s).loaded (askHeader s).loadedRate (askHeader s).attempts ∧
      Rated (askHeader s) := by
  rw [askHeader]
  split
  · exact ⟨h, hp, hrated⟩
  · obtain ⟨a, l, hs, -⟩ := underway_of_sending h
    refine ⟨?_, ?_, ?_⟩
    · rcases h with ⟨hres, b, m, hs, hl, ho, hi⟩ | ⟨hres, hr, b, hhead, hplayed⟩
      · exact .inl ⟨hres, b.lose, m, by rw [hs]; rfl, hl, ho, hi⟩
      · rw [hs] at hhead
        obtain rfl := Option.some.inj hhead
        rw [Ready, hs] at hr
        refine .inr ⟨hres, ?_, a.lose, by rw [hs]; rfl, hplayed⟩
        simp only [Ready, hs, List.modifyHead_cons]
        exact hr
    · rw [hs] at hp
      simp only [hs, List.modifyHead_cons]
      exact past_modify hp rfl rfl rfl rfl (hp.removed a List.mem_cons_self)
    · simp only [Rated, hs, List.modifyHead_cons]
      rfl

theorem iterate_inv {s : State} (i : Iteration) (hc : s.control = .sending) (h : Inv s) :
    Inv (iterate s i) := by
  obtain ⟨h, hp, hrated⟩ := h
  rw [Place, hc] at h
  have hcontrol : (askHeader s).control = .sending := by
    rw [askHeader]
    split <;> exact hc
  obtain ⟨hsending, hp, hrated⟩ := askHeader_sending h hp hrated
  rw [iterate]
  dsimp only
  split
  next hv => exact ⟨.inr (.inr ⟨netConnect_eq_false hv, kept_of_sending hsending⟩), hp, hrated⟩
  · exact sendHeader_inv i hcontrol hsending hp hrated

theorem ready_loadPlaylist (s : State) (pl : Lplaylist) : Ready (loadPlaylist s pl) :=
  ⟨rfl, List.length_pos_iff.mpr⟩

theorem past_nil (loaded : Lplaylist) (loadedRate : Int) : Past loaded loadedRate [] :=
  ⟨by simp, by simp, by simp, by simp⟩

theorem finish_inv {s : State} (newPlaylist : Option Lplaylist) (hc : s.control = .finished) (h : Inv s) :
    Inv (finish s newPlaylist) := by
  obtain ⟨h, hp, hrated⟩ := h
  have hk := kept_or_cleared h
  rw [Place, hc] at h
  simp only [finish]
  split
  next hconn =>
    refine ⟨?_, hp, hrated⟩
    rcases hk with hk | ⟨hl, hr⟩
    · exact .inl hk
    · exact .inr ⟨hl, hr.imp_left fun hr => ⟨hr.1, rfl⟩⟩
  next hconn =>
    cases newPlaylist with
    | some pl => exact ⟨.inl (ready_loadPlaylist s pl), past_nil pl _, rfl⟩
    | none =>
        refine ⟨?_, hp, hrated⟩
        rcases h with h | ⟨hl, hr⟩ | ⟨hf, _⟩
        · exact .inl h
        · rcases hr with ⟨_, hr⟩ | hr
          · simp [hc] at hr
          · exact .inr ⟨hl, .inr hr⟩
        · exact absurd hf hconn

theorem advanceIterator_lt {playList : Lplaylist} (npfile : Option Nat) (h : playList ≠ []) :
    advanceIterator playList npfile < playList.length := by
  have hpos := List.length_pos_iff.mpr h
  simp only [advanceIterator]
  split <;> omega

theorem start_inv (playList : Lplaylist) (playfileExists : Bool) (npfile : Option Nat) (c : Connect) :
    Inv (start playList playfileExists npfile c) := by
  by_cases hne : playList = []
  · subst hne
    exact ⟨.inl rfl, past_nil [] 0, rfl⟩
  · have hpos := List.length_pos_iff.mpr hne
    have hlt : (if playfileExists = true then advanceIterator playList npfile else 0) < playList.length := by
      split
      · exact advanceIterator_lt npfile hne
      · exact hpos
    rw [start, if_neg hne]
    generalize (if playfileExists = true then advanceIterator playList npfile else 0) = it at hlt
    simp only
    split
    · exact ⟨.inl ⟨rfl, fun _ => hlt⟩, past_nil playList (-1), rfl⟩
    · exact ⟨.inr ⟨rfl, .inl ⟨rfl, rfl⟩⟩, past_nil playList 0, rfl⟩

theorem start_attempts (playList : Lplaylist) (playfileExists : Bool) (npfile : Option Nat) (c : Connect) :
    (start playList playfileExists npfile c).attempts = [] := by
  rw [start]
  generalize (if playfileExists = true then advanceIterator playList npfile else 0) = it
  split
  · rfl
  · dsimp only
    split <;> rfl

theorem step_inv (s : State) (e : Event) (h : Inv s) : Inv (step s e) := by
  cases e with
  | attempt info =>
      rw [step]
      split
      next hc => exact attempt_inv info hc h
      · exact h
  | iterate i =>
      rw [step]
      split
      next hc => exact iterate_inv i hc h
      · exact h
  | finish newPlaylist =>
      rw [step]
      split
      next hc => exact finish_inv newPlaylist hc h
      · exact h

theorem cyclic_of_inv {s : State} (h : Inv s) : Cyclic s := by
  obtain ⟨h, hp, -⟩ := h
  refine ⟨?_, hp.saved, hp.removed, hp.order, hp.first⟩
  intro hc hne
  rw [Place, hc] at h
  have hr : Ready s := h.resolve_right fun hcl => hne hcl.1
  exact itPlaylist_lt hr hp hne

theorem run_inv (playList : Lplaylist) (playfileExists : Bool) (npfile : Option Nat) (c : Connect)
    (es : List Event) : Inv (run step (start playList playfileExists npfile c) es) :=
  run_invariant_all Inv step_inv (start_inv playList playfileExists npfile c) es

end RadioServices.Accordion.Playlist

import RadioServices.Station.Broadcast

namespace RadioServices.Station.StreamedTracks

open Lib.C Lib.Runs Accordion Broadcast
open Accordion.Playlist (Attempt Outcome Connect Cyclic netConnect netSend netRecv saveIdx record remove send nextTrack
  currentAttempt loadPlaylist advanceIterator netConnect_eq_false cyclic_of_inv)
open Accordion.Aac (FileInfo)

/-- A reader that is before some bytes gives a piece of them with each call, and nothing only at their end. -/
structure Reads {Reader : Type} (F : Format Reader) (ok : List UInt8 → Prop) where
  Before : Reader → List UInt8 → Prop
  starts : ∀ {r r' : Reader} {fileExists fopen} {info info' : FileInfo},
    F.getFileInfo r fileExists fopen info = some (info', r') → info'.retValue ≠ -1 → ok (fopen.getD []) →
      Before (F.startPlay r').2 (fopen.getD [])
  reads : ∀ {r r' : Reader} {rest buf : List UInt8}, Before r rest → F.getFrames r = some (buf, r') →
    buf <+: rest ∧ Before r' (rest.drop buf.length) ∧ (buf = [] → rest = [])

def path (a : Attempt) : Str := a.list.getD a.index []

/-- The tracks that were sent since the playlist was loaded, the latest first. -/
def sentTracks (s : Playlist.State) : List Str := (s.attempts.filter fun a => a.outcome ≠ .removed).map path

def Played (t : Track) : Prop := t.rejected = true ∨ t.buffers.flatten = t.file

/-- The buffers of one track, over all connections, with those that were lost. -/
def carried {Reader : Type} (s : State Reader) (number : Nat) : List (List UInt8) :=
  ((s.connections.reverse.flatMap Connection.taken).filter fun b => b.1.number = number).map Prod.snd

/-- The tracks go round the playlist, each read as a whole before the next, and what is read of it goes to the
connections. -/
structure Streamed {Reader : Type} (s : State Reader) : Prop where
  cyclic : Cyclic s.player
  paths : sentTracks s.player <+: s.tracks.map Track.path
  pieces : ∀ t ∈ s.tracks, t.buffers.flatten <+: t.file
  earlier : ∀ t ∈ s.tracks.tail, Played t
  carried : ∀ o t, (o, t) ∈ numbered s.tracks → carried s o.number = t.buffers

variable {Reader : Type} {F : Format Reader} {ok : List UInt8 → Prop}

structure Kept (s : State Reader) : Prop where
  paths : sentTracks s.player <+: s.tracks.map Track.path
  pieces : ∀ t ∈ s.tracks, t.buffers.flatten <+: t.file
  earlier : ∀ t ∈ s.tracks.tail, Played t

structure Underway (R : Reads F ok) (s : State Reader) : Prop extends Kept s where
  attempt : ∃ a l, s.player.attempts = a :: l ∧ a.outcome ≠ .removed
  track : ∃ t ts rest, s.tracks = t :: ts ∧ t.file = t.buffers.flatten ++ rest ∧ R.Before s.reader rest

def LatestPlayed (s : State Reader) : Prop := ∀ t ∈ s.tracks.head?, Played t

def Place (R : Reads F ok) (s : State Reader) : Prop :=
  match s.player.control with
  | .head => LatestPlayed s
  | .sending => Underway R s
  | .finished => s.player.connected = false ∨ LatestPlayed s
  | .stopped => True

def Inv (R : Reads F ok) (s : State Reader) : Prop := Kept s ∧ Place R s

section Kept

variable {R : Reads F ok} {s s' : State Reader}

theorem Kept.of_eq (h : Kept s) (hpaths : sentTracks s'.player = sentTracks s.player)
    (htracks : s'.tracks = s.tracks) : Kept s' := by
  refine ⟨?_, ?_, ?_⟩
  · rw [hpaths, htracks]
    exact h.paths
  · rw [htracks]
    exact h.pieces
  · rw [htracks]
    exact h.earlier

theorem Underway.of_eq (h : Underway R s) (hattempts : s'.player.attempts = s.player.attempts)
    (htracks : s'.tracks = s.tracks) (hreader : s'.reader = s.reader) : Underway R s' := by
  refine ⟨h.toKept.of_eq (by rw [sentTracks, hattempts, sentTracks]) htracks, ?_, ?_⟩
  · rw [hattempts]
    exact h.attempt
  · rw [htracks, hreader]
    exact h.track

theorem inv_of_underway (h : Underway R s) (hcontrol : s.player.control = .sending) : Inv R s := by
  refine ⟨h.toKept, ?_⟩
  rw [Place, hcontrol]
  exact h

theorem sentTracks_modify {p p' : Playlist.State} {f : Attempt → Attempt} {a : Attempt} {l : List Attempt}
    (hattempts : p.attempts = a :: l) (ha : a.outcome ≠ .removed) (hf : (f a).outcome ≠ .removed)
    (hpath : path (f a) = path a) (hp : p'.attempts = p.attempts.modifyHead f) : sentTracks p' = sentTracks p := by
  have hkept {b : Attempt} (hb : b.outcome ≠ .removed) : (b :: l).filter (fun a => a.outcome ≠ .removed) =
      b :: l.filter fun a => a.outcome ≠ .removed := List.filter_cons_of_pos (decide_eq_true hb)
  rw [sentTracks, sentTracks, hp, hattempts, List.modifyHead_cons, hkept hf, hkept ha, List.map_cons, List.map_cons, hpath]

theorem Kept.modifyLatest (h : Kept s) {f : Track → Track} (hf : ∀ t, (f t).path = t.path)
    (hpiece : ∀ t ∈ s.tracks.head?, (f t).buffers.flatten <+: (f t).file)
    (hpaths : sentTracks s'.player = sentTracks s.player) (htracks : s'.tracks = s.tracks.modifyHead f) : Kept s' := by
  cases hs : s.tracks with
  | nil =>
      rw [hs, List.modifyHead_nil] at htracks
      refine ⟨?_, fun t ht => ?_, fun t ht => ?_⟩
      · rw [hpaths, htracks, ← hs]
        exact h.paths
      · rw [htracks] at ht
        cases ht
      · rw [htracks] at ht
        cases ht
  | cons t ts =>
      rw [hs, List.modifyHead_cons] at htracks
      have hpaths' := h.paths
      have hearlier := h.earlier
      rw [hs] at hpaths' hearlier
      refine ⟨?_, fun u hu => ?_, ?_⟩
      · rw [hpaths, htracks, List.map_cons, hf, ← List.map_cons]
        exact hpaths'
      · rw [htracks] at hu
        rcases List.mem_cons.mp hu with rfl | hu
        · exact hpiece t (by rw [hs]; rfl)
        · exact h.pieces u (by rw [hs]; exact List.mem_cons_of_mem t hu)
      · rw [htracks]
        exact hearlier

end Kept

section Buffers

variable {o : Origin} {t : Track} {ts : List Track}

theorem number_lt_of_buffers {b : Origin × List UInt8} (h : b ∈ buffers ts) : b.1.number < ts.length := by
  rw [buffers, List.mem_flatMap] at h
  obtain ⟨u, hu, hb⟩ := h
  obtain ⟨buf, -, rfl⟩ := List.mem_map.mp hb
  exact number_lt (List.mem_map_of_mem hu)

theorem buffers_of_track (h : (o, t) ∈ numbered ts) :
    ((buffers ts).filter fun b => b.1.number = o.number).map Prod.snd = t.buffers := by
  induction ts with
  | nil => cases h
  | cons u ts ih =>
      rw [numbered_cons, List.mem_append, List.mem_singleton] at h
      rw [buffers_cons, List.filter_append, List.map_append]
      rcases h with h | h
      · have hlt := number_lt (List.mem_map_of_mem (f := Prod.fst) h)
        have hlast : (u.buffers.map (Prod.mk (⟨ts.length, u.info⟩ : Origin))).filter
            (fun b => b.1.number = o.number) = [] := by
          rw [List.filter_eq_nil_iff]
          intro b hb
          obtain ⟨buf, -, rfl⟩ := List.mem_map.mp hb
          exact mt of_decide_eq_true (Nat.ne_of_gt hlt)
        rw [ih h, hlast, List.map_nil, List.append_nil]
      · obtain ⟨rfl, rfl⟩ := Prod.mk.inj h
        have hearlier : (buffers ts).filter (fun b => b.1.number = ts.length) = [] := by
          rw [List.filter_eq_nil_iff]
          exact fun b hb => mt of_decide_eq_true (Nat.ne_of_lt (number_lt_of_buffers hb))
        have hall : (t.buffers.map (Prod.mk (⟨ts.length, t.info⟩ : Origin))).filter
            (fun b => b.1.number = ts.length) = t.buffers.map (Prod.mk ⟨ts.length, t.info⟩) := by
          rw [List.filter_eq_self]
          intro b hb
          obtain ⟨buf, -, rfl⟩ := List.mem_map.mp hb
          exact decide_eq_true rfl
        rw [hearlier, hall, List.map_nil, List.nil_append, List.map_map]
        exact List.map_id t.buffers

end Buffers

section Steps

variable {R : Reads F ok} {header : FileInfo → List UInt8} {s s' : State Reader}

theorem all_played (h : Kept s) (hlatest : LatestPlayed s) : ∀ t ∈ s.tracks, Played t := by
  cases htracks : s.tracks with
  | nil => exact fun t ht => nomatch ht
  | cons t ts =>
      rw [List.forall_mem_cons]
      have hearlier := h.earlier
      rw [htracks] at hearlier
      exact ⟨hlatest t (by rw [htracks]; rfl), hearlier⟩

theorem sentTracks_remove (p : Playlist.State) (info : Option Int) : sentTracks (remove (record p info)) = sentTracks p := by
  rw [sentTracks, remove, record, List.modifyHead_cons, List.filter_cons_of_neg (by simp [Attempt.become])]
  rfl

theorem sentTracks_record (p : Playlist.State) (info : Option Int) :
    sentTracks (record p info) = p.playList.getD p.itPlaylist [] :: sentTracks p := by
  rw [sentTracks, record, List.filter_cons_of_pos (by simp [currentAttempt])]
  rfl

/-- A track that is begun comes behind tracks that have been played as a whole. -/
theorem attempt_inv (hinv : Inv R s) (hcontrol : s.player.control = .head) {fileExists : Bool}
    {fopen : Option (List UInt8)} (hok : ok (fopen.getD [])) (h : Attempted F s fileExists fopen s') : Inv R s' := by
  obtain ⟨hkept, hplace⟩ := hinv
  rw [Place, hcontrol] at hplace
  cases h with
  | ended => exact ⟨hkept.of_eq rfl rfl, trivial⟩
  | removed info reader rate =>
      refine ⟨hkept.of_eq (sentTracks_remove _ _) rfl, ?_⟩
      have hhead : (remove (record (saveIdx s.player) rate)).control = .head := hcontrol
      rw [Place, hhead]
      exact hplace
  | begun info reader hinfo hret =>
      have hattempts (p : Playlist.State) : sentTracks (send { p with icecastSampleRate := info.sr }) = sentTracks p := rfl
      refine inv_of_underway ⟨⟨?_, ?_, ?_⟩, ?_, ?_⟩ rfl
      · rw [hattempts, sentTracks_record, List.map_cons]
        exact (List.prefix_cons_inj _).mpr hkept.paths
      · exact List.forall_mem_cons.mpr ⟨List.nil_prefix, hkept.pieces⟩
      · exact all_played hkept hplace
      · exact ⟨currentAttempt (saveIdx s.player) info.sr, s.player.attempts, rfl, Outcome.noConfusion⟩
      · exact ⟨_, s.tracks, fopen.getD [], rfl, rfl, R.starts hinfo hret hok⟩

theorem getFrames_inv (hs : Underway R s) (hcontrol : s.player.control = .sending) {i : Iteration}
    (h : getFrames F s i = some s') : Inv R s' := by
  obtain ⟨t, ts, rest, htracks, hfile, hbefore⟩ := hs.track
  simp only [getFrames, Option.bind_eq_bind, Option.bind_eq_some_iff] at h
  obtain ⟨⟨buf, reader⟩, hframes, h⟩ := h
  obtain ⟨hpiece, hnext, hend⟩ := R.reads hbefore hframes
  dsimp only at h
  split at h
  next hbuf =>
    cases h
    refine ⟨hs.toKept.of_eq rfl rfl, .inr ?_⟩
    intro u hu
    rw [htracks] at hu
    obtain rfl := Option.some.inj hu
    exact .inr (by rw [hfile, hend hbuf, List.append_nil])
  next hbuf =>
    cases h
    have hread : t.file = (t.read buf).buffers.flatten ++ rest.drop buf.length := by
      obtain ⟨tail, rfl⟩ := hpiece
      rw [hfile, Track.read, List.flatten_append, List.append_assoc, List.drop_left]
      simp only [List.flatten_cons, List.flatten_nil, List.append_nil]
    refine inv_of_underway ⟨?_, hs.attempt, t.read buf, ts, rest.drop buf.length, ?_, hread, hnext⟩ hcontrol
    · refine hs.toKept.modifyLatest (f := Track.read buf) (fun _ => rfl) (fun u hu => ?_) rfl rfl
      rw [htracks] at hu
      obtain rfl := Option.some.inj hu
      exact ⟨_, hread.symm⟩
    · change s.tracks.modifyHead (Track.read buf) = _
      rw [htracks, List.modifyHead_cons]

theorem underway_nextTrack (hs : Underway R s) : Underway R { s with player := nextTrack s.player } := by
  obtain ⟨a, l, hattempts, ha⟩ := hs.attempt
  refine ⟨hs.toKept.of_eq (sentTracks_modify hattempts ha Outcome.noConfusion rfl rfl) rfl, ?_, hs.track⟩
  refine ⟨a.become .played, l, ?_, Outcome.noConfusion⟩
  rw [nextTrack, hattempts, List.modifyHead_cons]

theorem sendFrames_inv (hs : Underway R s) (hcontrol : s.player.control = .sending) {i : Iteration}
    (h : sendFrames F s i = some s') : Inv R s' := by
  rw [sendFrames] at h
  split at h
  · exact getFrames_inv (underway_nextTrack hs) hcontrol h
  · exact getFrames_inv hs hcontrol h

theorem sendHeader_inv (hs : Underway R s) (hcontrol : s.player.control = .sending) {i : Iteration}
    (h : sendHeader F header s i = some s') : Inv R s' := by
  rw [sendHeader] at h
  split at h
  · dsimp only at h
    split at h
    · cases h
      exact inv_of_underway (hs.of_eq rfl rfl rfl) hcontrol
    · split at h
      · cases h
        obtain ⟨a, l, hattempts, ha⟩ := hs.attempt
        refine ⟨?_, .inr fun t ht => ?_⟩
        · refine hs.toKept.modifyLatest (f := Track.reject) (fun _ => rfl) (fun t ht => ?_)
            (sentTracks_modify hattempts ha Outcome.noConfusion rfl rfl) rfl
          exact hs.pieces t (List.mem_of_mem_head? ht)
        · obtain ⟨t₀, ts, -, htracks, -⟩ := hs.track
          have ht : t ∈ (s.tracks.modifyHead Track.reject).head? := ht
          rw [htracks] at ht
          obtain rfl := Option.some.inj ht
          exact .inl rfl
      · refine sendFrames_inv ?_ ?_ h
        · exact hs.of_eq rfl rfl rfl
        · exact hcontrol
  · exact sendFrames_inv hs hcontrol h

theorem underway_askHeader (hs : Underway R s) : Underway R (askHeader s) := by
  rw [askHeader]
  rcases askHeader_cases s.player with ⟨-, hask⟩ | ⟨-, hask⟩
  · rw [hask]
    exact hs
  · obtain ⟨a, l, hattempts, ha⟩ := hs.attempt
    rw [hask]
    refine ⟨hs.toKept.of_eq (sentTracks_modify hattempts ha ?_ rfl rfl) rfl, ⟨a.lose, l, ?_, ?_⟩, hs.track⟩
    · exact ha
    · dsimp only
      rw [hattempts, List.modifyHead_cons]
    · exact ha

theorem iterate_inv (hinv : Inv R s) (hcontrol : s.player.control = .sending) {i : Iteration}
    (h : iterate F header s i = some s') : Inv R s' := by
  obtain ⟨-, hs⟩ := hinv
  rw [Place, hcontrol] at hs
  -- asking for the header and connecting leave the track where it is
  have hs : Underway R (connect (askHeader s) i.connect) := (underway_askHeader hs).of_eq rfl rfl rfl
  have hsending : (connect (askHeader s) i.connect).player.control = .sending := (askHeader_control s).trans hcontrol
  rw [iterate] at h
  dsimp only at h
  split at h
  next hvalue =>
    cases h
    refine ⟨hs.toKept.of_eq rfl rfl, .inl ?_⟩
    exact netConnect_eq_false hvalue
  next => exact sendHeader_inv hs hsending h

theorem finish_inv (hinv : Inv R s) (hcontrol : s.player.control = .finished) (newPlaylist : Option Lplaylist) :
    Inv R (finish F s newPlaylist) := by
  obtain ⟨hkept, hplace⟩ := hinv
  rw [Place, hcontrol] at hplace
  cases hconnected : s.player.connected with
  | false =>
      have hplayer : (finish F s newPlaylist).player = { s.player with control := .stopped } := by
        cases newPlaylist <;> exact if_pos hconnected
      refine ⟨hkept.of_eq (by rw [hplayer]; rfl) rfl, ?_⟩
      rw [Place, hplayer]
      trivial
  | true =>
      have hlatest : LatestPlayed s := hplace.resolve_left (by rw [hconnected]; exact Bool.noConfusion)
      have hopen : ¬ s.player.connected = false := by rw [hconnected]; exact Bool.noConfusion
      cases newPlaylist with
      | none =>
          have hplayer : (finish F s none).player = { s.player with control := .head } := if_neg hopen
          refine ⟨hkept.of_eq (by rw [hplayer]; rfl) rfl, ?_⟩
          rw [Place, hplayer]
          exact hlatest
      | some pl =>
          have hplayer : (finish F s (some pl)).player =
              { loadPlaylist s.player pl with control := .head } := if_neg hopen
          refine ⟨⟨?_, hkept.pieces, hkept.earlier⟩, ?_⟩
          · rw [hplayer]
            exact List.nil_prefix
          · rw [Place, hplayer]
            exact hlatest

theorem step_inv (hinv : Inv R s) {e : Event} (hok : ∀ fileExists fopen, e = .attempt fileExists fopen →
    ok (fopen.getD [])) (h : step F header s e = some s') : Inv R s' := by
  cases change_of_step h with
  | unfit => exact hinv
  | attempt hcontrol h => exact attempt_inv hinv hcontrol (hok _ _ rfl) h
  | iterate hcontrol h => exact iterate_inv hinv hcontrol h
  | finish newPlaylist hcontrol => exact finish_inv hinv hcontrol newPlaylist

theorem start_inv (playList : Lplaylist) (playfileExists : Bool) (npfile : Option Nat) (c : Connect)
    (reader : Reader) : Inv R (start playList playfileExists npfile c reader) := by
  have hattempts := Playlist.start_attempts playList playfileExists npfile c
  refine ⟨⟨?_, fun t ht => (nomatch ht), fun t ht => (nomatch ht)⟩, ?_⟩
  · rw [sentTracks, start, hattempts]
    exact List.nil_prefix
  · rw [Place]
    cases hcontrol : (start playList playfileExists npfile c reader).player.control with
    | head => exact fun t ht => nomatch ht
    | sending => exact absurd hcontrol (start_player playList playfileExists npfile c).2
    | finished => exact .inr fun t ht => nomatch ht
    | stopped => trivial

theorem run_inv {playList : Lplaylist} {playfileExists : Bool} {npfile : Option Nat} {c : Connect} {reader : Reader}
    {es : List Event} (hok : ∀ fileExists fopen, .attempt fileExists fopen ∈ es → ok (fopen.getD []))
    (h : es.foldlM (step F header) (start playList playfileExists npfile c reader) = some s) :
    Inv R s := by
  refine foldlM_invariant_of_mem (Inv R) (fun t e t' he hstep hinv => ?_) h
    (start_inv playList playfileExists npfile c reader)
  exact step_inv hinv (fun fileExists fopen heq => hok fileExists fopen (heq ▸ he)) hstep

theorem player_inv {playList : Lplaylist} {playfileExists : Bool} {npfile : Option Nat} {c : Connect}
    {reader : Reader} {es : List Event}
    (h : es.foldlM (step F header) (start playList playfileExists npfile c reader) = some s) :
    Playlist.Inv s.player := by
  refine foldlM_invariant (fun t : State Reader => Playlist.Inv t.player) (fun t e t' hstep hinv => ?_) h
    (Playlist.start_inv playList playfileExists npfile c)
  obtain ⟨e', he'⟩ := step_player hstep
  rw [he']
  exact Playlist.step_inv t.player e' hinv

end Steps

section Aac

open AacStream

/-- A reader in front of whole frames, of which at least one is asked for. -/
def FramesBefore (t : Aac.Taac) (rest : List UInt8) : Prop :=
  ∃ frames, rest = concat frames ∧ AacStream.Before t frames ∧ 0 < t.framesToRead

theorem framesBefore_start {t t' : Aac.Taac} {fileExists : Bool} {fopen : Option (List UInt8)} {info info' : FileInfo}
    (hinfo : aac.getFileInfo t fileExists fopen info = some (info', t')) (hret : info'.retValue ≠ -1)
    (h : ∃ frames, fopen.getD [] = concat frames) : FramesBefore (aac.startPlay t').2 (fopen.getD []) := by
  obtain ⟨frames, hframes⟩ := h
  obtain ⟨bytes, -, -, rfl, -⟩ := getFileInfo_ok hinfo hret
  cases fileExists with
  | false =>
      obtain ⟨rfl, -⟩ := Prod.mk.inj (Option.some.inj hinfo)
      exact absurd rfl hret
  | true =>
      obtain rfl : bytes = concat frames := hframes
      obtain ⟨-, hbefore, -, hread⟩ := startPlay_before hinfo hret
      obtain ⟨-, -, -, hpos, -⟩ := getFileInfo_accepted hinfo hret
      exact ⟨frames, rfl, hbefore, hread.symm ▸ hpos⟩

theorem getFrames_framesBefore {t t' : Aac.Taac} {rest buf : List UInt8} (h : FramesBefore t rest)
    (hread : aac.getFrames t = some (buf, t')) :
    buf <+: rest ∧ FramesBefore t' (rest.drop buf.length) ∧ (buf = [] → rest = []) := by
  obtain ⟨frames, rfl, hbefore, hpos⟩ := h
  obtain ⟨u, hframes, hnext, hrequest⟩ := getFrames_before hbefore
  generalize hn : t.framesToRead.toNat = n at hframes hnext
  have hsplit : concat frames = concat (frames.take n) ++ concat (frames.drop n) := by
    rw [concat, concat, concat, ← List.flatMap_append, List.take_append_drop]
  simp only [aac, hframes, Option.bind_some, List.take_length] at hread
  split at hread
  · obtain ⟨rfl, rfl⟩ := Prod.mk.inj (Option.some.inj hread)
    refine ⟨⟨_, hsplit.symm⟩, ⟨frames.drop n, ?_, hnext, hrequest ▸ hpos⟩, fun hnil => ?_⟩
    · rw [hsplit, List.drop_left]
    · -- at least one frame is asked for
      have htake := concat_eq_nil.mp hnil
      rw [List.take_eq_nil_iff] at htake
      rw [concat_eq_nil]
      exact htake.resolve_left (by omega)
  · cases hread

/-- AAC files of whole frames are read as the bytes they are. -/
def readsAac : Reads aac fun bytes => ∃ frames, bytes = concat frames where
  Before := FramesBefore
  starts := framesBefore_start
  reads := getFrames_framesBefore

variable {header : FileInfo → List UInt8} {s : State Aac.Taac}

/-- Files of whole frames are read as they are, one after the other round the playlist, whatever happens to the
connection. Each buffer that is read is given to one connection. -/
theorem run_streamed {playList : Lplaylist} {playfileExists : Bool} {npfile : Option Nat} {c : Connect}
    {reader : Aac.Taac} {es : List Event}
    (h : es.foldlM (step aac header) (start playList playfileExists npfile c reader) = some s)
    (hfiles : ∀ fileExists fopen, .attempt fileExists fopen ∈ es → ∃ frames, fopen.getD [] = concat frames) :
    Streamed s := by
  have hkept := (run_inv (R := readsAac) hfiles h).1
  refine ⟨cyclic_of_inv (player_inv h), hkept.paths, hkept.pieces, hkept.earlier, fun o t ht => ?_⟩
  rw [carried, ← (Broadcast.run_inv h).taken]
  exact buffers_of_track ht

theorem run_streamed_demo : ∃ s, demoEvents.foldlM (step aac demoHeader) demoStart = some s ∧ Streamed s := by
  have hsome : (demoEvents.foldlM (step aac demoHeader) demoStart).isSome = true := by decide +kernel
  obtain ⟨s, hs⟩ := Option.isSome_iff_exists.mp hsome
  refine ⟨s, hs, run_streamed hs ?_⟩
  intro fileExists fopen hmem
  simp only [demoEvents, List.mem_cons, List.not_mem_nil, or_false, Event.attempt.injEq, reduceCtorEq, false_or] at hmem
  rcases hmem with ⟨-, rfl⟩ | ⟨-, rfl⟩
  · exact ⟨[demoFrame, demoFrame], rfl⟩
  · exact ⟨[demoFrame], rfl⟩

end Aac

end RadioServices.Station.StreamedTracks

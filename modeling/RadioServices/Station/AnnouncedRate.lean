import RadioServices.Station.Broadcast

namespace RadioServices.Station.AnnouncedRate

open Lib.C Lib.Runs Accordion Broadcast
open Accordion.Playlist (Connect netConnect netSend netRecv saveIdx record remove send)
open Accordion.Aac (FileInfo)

def rates (c : Connection) : List Int := c.sent.map fun b => b.1.info.sr

/-- The buffers sent on a connection have the sample rate of its header, and from some track on one other rate. Only
a connection that was made in the middle of a track has another. -/
def Announced (c : Connection) : Prop :=
  ∀ a ∈ c.announced, ∃ n m r, rates c = List.replicate n a.info.sr ++ List.replicate m r ∧
    (c.during = none → r = a.info.sr)

/-- The rate that `start` keeps is the one of the buffers sent last. It is -1 from a reconnection up to the next
track. -/
structure Agrees (icecast : Int) (c : Connection) : Prop where
  unset : icecast = -1 → ∀ a ∈ c.announced, c.during ≠ none ∧ ∃ n, rates c = List.replicate n a.info.sr
  set : icecast ≠ -1 → ∀ a ∈ c.announced, ∃ n m, rates c = List.replicate n a.info.sr ++ List.replicate m icecast ∧
    (c.during = none → icecast = a.info.sr)

structure Current (icecast rate : Int) (c : Connection) : Prop where
  unset : icecast = -1 → c.during ≠ none ∧ ∀ a ∈ c.announced, rate = a.info.sr
  set : icecast ≠ -1 → icecast = rate

section Connections

variable {icecast rate : Int} {c : Connection}

theorem Agrees.announced (h : Agrees icecast c) : Announced c := by
  intro a ha
  by_cases hunset : icecast = -1
  · obtain ⟨hduring, n, hn⟩ := h.unset hunset a ha
    refine ⟨n, 0, a.info.sr, by rw [hn, List.replicate_zero, List.append_nil], fun _ => rfl⟩
  · obtain ⟨n, m, hrates, hduring⟩ := h.set hunset a ha
    exact ⟨n, m, icecast, hrates, hduring⟩

theorem agrees_of_announced_none (h : c.announced = none) : Agrees icecast c := by
  refine ⟨fun _ a ha => ?_, fun _ a ha => ?_⟩ <;> (rw [h] at ha; cases ha)

theorem Announced.of_eq {d : Connection} (h : Announced c) (hsent : d.sent = c.sent) (hannounced : d.announced = c.announced)
    (hduring : d.during = c.during) : Announced d := by
  rw [Announced, rates, hsent, hannounced, hduring]
  exact h

theorem Agrees.of_eq {d : Connection} (h : Agrees icecast c) (hsent : d.sent = c.sent)
    (hannounced : d.announced = c.announced) (hduring : d.during = c.during) : Agrees icecast d := by
  refine ⟨?_, ?_⟩
  · rw [rates, hsent, hannounced, hduring]
    exact h.unset
  · rw [rates, hsent, hannounced, hduring]
    exact h.set

theorem Current.of_eq {d : Connection} (h : Current icecast rate c) (hannounced : d.announced = c.announced)
    (hduring : d.during = c.during) : Current icecast rate d := by
  refine ⟨?_, h.set⟩
  rw [hannounced, hduring]
  exact h.unset

theorem Current.accept {o : Origin} (h : Current icecast o.info.sr c) (hsent : c.sent = []) :
    Agrees icecast (c.accept o) ∧ Current icecast o.info.sr (c.accept o) := by
  have hrates : rates (c.accept o) = [] := by rw [rates, Connection.accept, hsent, List.map_nil]
  refine ⟨⟨fun hunset a ha => ?_, fun hset a ha => ?_⟩, ⟨fun hunset => ⟨(h.unset hunset).1, ?_⟩, h.set⟩⟩
  · exact ⟨(h.unset hunset).1, 0, hrates⟩
  · obtain rfl := Option.some.inj ha
    exact ⟨0, 0, hrates, fun _ => h.set hset⟩
  · intro a ha
    obtain rfl := Option.some.inj ha
    rfl

theorem Agrees.send {o : Origin} (h : Agrees icecast c) (hcurrent : Current icecast o.info.sr c) (buf : List UInt8)
    {d : Connection} (hsent : d.sent = c.sent ++ [(o, buf)]) (hannounced : d.announced = c.announced)
    (hduring : d.during = c.during) : Agrees icecast d := by
  have hrates : rates d = rates c ++ List.replicate 1 o.info.sr := by
    rw [rates, hsent, List.map_append]
    rfl
  refine ⟨fun hunset a ha => ?_, fun hset a ha => ?_⟩
  · rw [hannounced] at ha
    obtain ⟨hagain, n, hn⟩ := h.unset hunset a ha
    refine ⟨hduring ▸ hagain, n + 1, ?_⟩
    rw [hrates, hn, (hcurrent.unset hunset).2 a ha, List.replicate_append_replicate]
  · rw [hannounced] at ha
    obtain ⟨n, m, hnm, hyes⟩ := h.set hset a ha
    refine ⟨n, m + 1, ?_, fun hnone => hyes (hduring.symm.trans hnone)⟩
    rw [hrates, hnm, ← hcurrent.set hset, List.append_assoc, List.replicate_append_replicate]

theorem Agrees.next (h : Agrees (-1) c) : Agrees rate c := by
  refine ⟨fun _ a ha => h.unset rfl a ha, fun _ a ha => ?_⟩
  obtain ⟨hagain, n, hn⟩ := h.unset rfl a ha
  exact ⟨n, 0, by rw [hn, List.replicate_zero, List.append_nil], fun hnone => absurd hnone hagain⟩

theorem current_self (h : rate ≠ -1) : Current rate rate c :=
  ⟨fun hunset => absurd hunset h, fun _ => rfl⟩

end Connections

variable {Reader : Type}

structure Inv (s : State Reader) : Prop where
  announced : ∀ c ∈ s.connections, Announced c
  last : s.player.connected = true → ∀ c ∈ s.connections.head?, Agrees s.player.icecastSampleRate c ∧
    (s.player.control = .sending → Current s.player.icecastSampleRate s.info.sr c)

/-- The last connection goes by the track that is sent, whether it is still there or not. -/
def Underway (s : State Reader) : Prop :=
  ∃ c cs, s.connections = c :: cs ∧ Agrees s.player.icecastSampleRate c ∧
    Current s.player.icecastSampleRate s.info.sr c ∧ ∀ d ∈ cs, Announced d

section Steps

variable {F : Format Reader} {header : FileInfo → List UInt8} {s s' : State Reader}

theorem Inv.of_player (h : Inv s) (hconnections : s'.connections = s.connections)
    (hconnected : s'.player.connected = true → s.player.connected = true)
    (hicecast : s'.player.icecastSampleRate = s.player.icecastSampleRate)
    (hcontrol : s'.player.control = .sending → s.player.control = .sending ∧ s'.info = s.info) : Inv s' := by
  refine ⟨?_, fun hyes c hc => ?_⟩
  · rw [hconnections]
    exact h.announced
  · rw [hconnections] at hc
    obtain ⟨hagrees, hcurrent⟩ := h.last (hconnected hyes) c hc
    rw [hicecast]
    refine ⟨hagrees, fun hsending => ?_⟩
    obtain ⟨hbefore, hinfo⟩ := hcontrol hsending
    rw [hinfo]
    exact hcurrent hbefore

theorem inv_of_underway (h : Underway s) : Inv s := by
  obtain ⟨c, cs, hconnections, hagrees, hcurrent, hearlier⟩ := h
  refine ⟨?_, fun _ d hd => ?_⟩
  · rw [hconnections, List.forall_mem_cons]
    exact ⟨hagrees.announced, hearlier⟩
  · rw [hconnections] at hd
    obtain rfl := Option.some.inj hd
    exact ⟨hagrees, fun _ => hcurrent⟩

theorem attempt_inv (hrate : ∀ {r r' : Reader} {fileExists fopen} {info info' : FileInfo},
      F.getFileInfo r fileExists fopen info = some (info', r') → info'.retValue ≠ -1 → info'.sr ≠ -1)
    (hinv : Inv s) (hcontrol : s.player.control = .head) {fileExists : Bool} {fopen : Option (List UInt8)}
    (h : Attempted F s fileExists fopen s') : Inv s' := by
  cases h with
  | ended => exact hinv.of_player rfl id rfl (fun hstopped => by cases hstopped)
  | removed =>
      exact hinv.of_player rfl id rfl fun hsending => absurd (hcontrol.symm.trans hsending) (by decide)
  | begun info reader hinfo hret hkept =>
      refine ⟨hinv.announced, fun hyes c hc => ⟨?_, fun _ => current_self (hrate hinfo hret)⟩⟩
      have hagrees := (hinv.last hyes c hc).1
      rcases hkept with hunset | hsame
      · rw [hunset] at hagrees
        exact hagrees.next
      · rw [hsame] at hagrees
        exact hagrees

theorem getFrames_inv (hs : Underway s) {i : Iteration}
    (h : getFrames F s i = some s') : Inv s' := by
  simp only [getFrames, Option.bind_eq_bind, Option.bind_eq_some_iff] at h
  obtain ⟨⟨buf, reader⟩, -, h⟩ := h
  dsimp only at h
  split at h
  · cases h
    exact (inv_of_underway hs).of_player rfl id rfl fun hfinished => by cases hfinished
  · cases h
    obtain ⟨c, cs, hconnections, hagrees, hcurrent, hearlier⟩ := hs
    have hlast : (onLast (Connection.sendBuffer (origin s) buf s.player.connected i.frames) s).connections =
        c.sendBuffer (origin s) buf s.player.connected i.frames :: cs := by
      rw [onLast, hconnections, List.modifyHead_cons]
    have hsend : Agrees s.player.icecastSampleRate (c.sendBuffer (origin s) buf s.player.connected i.frames) ∧
        Current s.player.icecastSampleRate s.info.sr (c.sendBuffer (origin s) buf s.player.connected i.frames) := by
      rw [Connection.sendBuffer]
      split
      · exact ⟨hagrees.send hcurrent buf rfl rfl rfl, hcurrent.of_eq rfl rfl⟩
      · exact ⟨hagrees.of_eq rfl rfl rfl, hcurrent.of_eq rfl rfl⟩
    exact inv_of_underway ⟨_, cs, hlast, hsend.1, hsend.2, hearlier⟩

theorem sendFrames_inv (hs : Underway s) {i : Iteration} (h : sendFrames F s i = some s') : Inv s' := by
  rw [sendFrames] at h
  split at h
  · refine getFrames_inv ?_ h
    exact hs
  · exact getFrames_inv hs h

theorem sendHeader_inv (hsent : Broadcast.Inv header s) (hinv : Inv s) (hcontrol : s.player.control = .sending)
    (hask : s.player.connected = false → s.player.evHeader = true) {i : Iteration}
    (h : sendHeader F header s i = some s') : Inv s' := by
  rw [sendHeader] at h
  split at h
  next hev =>
    cases hconnected : s.player.connected with
    | false =>
        rw [hconnected, onLast_sendHeader] at h
        cases h
        exact hinv.of_player rfl (fun hyes => Bool.noConfusion hyes) rfl fun hsending => ⟨hsending, rfl⟩
    | true =>
        obtain ⟨c, cs, hconnections, hintact, hiff, -⟩ := hsent.last hconnected
        have hnone := hiff.mp hev
        obtain ⟨hagrees, hcurrent⟩ := hinv.last hconnected c (by rw [hconnections]; rfl)
        have hannounced := hinv.announced
        rw [hconnections, List.forall_mem_cons] at hannounced
        rw [hconnected, onLast, hconnections, List.modifyHead_cons] at h
        dsimp only at h
        split at h
        next hfailed =>
          cases h
          refine ⟨?_, fun hyes => absurd (hfailed.symm.trans hyes) Bool.false_ne_true⟩
          rw [setConnected, List.forall_mem_cons]
          exact ⟨hannounced.1.of_eq rfl rfl rfl, hannounced.2⟩
        next hwhole =>
          split at h
          · cases h
            refine ⟨?_, fun _ d hd => ⟨?_, fun hfinished => by cases hfinished⟩⟩
            · intro d hd
              rcases List.mem_cons.mp hd with rfl | hd
              · exact hannounced.1.of_eq rfl rfl rfl
              · exact hannounced.2 d hd
            · obtain rfl := Option.some.inj hd
              exact hagrees.of_eq rfl rfl rfl
          · have haccept := Current.accept (o := origin s) (c := c.sendHeader (origin s) (header s.info) true i.header)
              ((hcurrent hcontrol).of_eq rfl rfl) (hintact.sent hnone)
            refine sendFrames_inv ?_ h
            exact ⟨_, cs, rfl, haccept.1, haccept.2, hannounced.2⟩
  next hev =>
    have hconnected : s.player.connected = true := by
      by_contra hnot
      exact hev (hask (Bool.not_eq_true _ ▸ hnot))
    obtain ⟨c, cs, hconnections, -, -, -⟩ := hsent.last hconnected
    obtain ⟨hagrees, hcurrent⟩ := hinv.last hconnected c (by rw [hconnections]; rfl)
    have hannounced := hinv.announced
    rw [hconnections, List.forall_mem_cons] at hannounced
    exact sendFrames_inv ⟨c, cs, hconnections, hagrees, hcurrent hcontrol, hannounced.2⟩ h

/-- After asking for the header a connection that is made is one in the middle of the track. -/
theorem connect_askHeader_inv (hinv : Inv s) (c : Connect) : Inv (connect (askHeader s) c) := by
  rcases askHeader_cases s.player with ⟨hconnected, hask⟩ | ⟨hconnected, hask⟩
  · have hsame : askHeader s = s := by rw [askHeader, hask]
    rw [hsame, connect_of_connected hconnected]
    exact hinv
  · have hno : (askHeader s).player.connected = false := by
      rw [askHeader, hask]
      exact hconnected
    have hicecast : (connect (askHeader s) c).player.icecastSampleRate = -1 := by
      rw [askHeader, hask]
      rfl
    by_cases hc : c = .connected
    · subst hc
      refine ⟨?_, fun _ d hd => ?_⟩
      · rw [connect_connected hno, List.forall_mem_cons]
        exact ⟨fun a ha => (by cases ha), hinv.announced⟩
      · rw [connect_connected hno] at hd
        obtain rfl := Option.some.inj hd
        refine ⟨agrees_of_announced_none rfl, fun _ => ⟨fun _ => ⟨Option.some_ne_none _, fun a ha => by cases ha⟩,
          fun hset => ?_⟩⟩
        exact absurd hicecast hset
    · obtain ⟨hsame, hfailed⟩ := connect_fails hno hc
      refine ⟨?_, fun hyes => absurd (hfailed.symm.trans hyes) Bool.false_ne_true⟩
      rw [hsame]
      exact hinv.announced

theorem iterate_inv (hsent : Broadcast.Inv header s) (hinv : Inv s) (hcontrol : s.player.control = .sending)
    {i : Iteration} (h : iterate F header s i = some s') : Inv s' := by
  have hconnect := connect_askHeader_inv hinv i.connect
  have hask : (askHeader s).player.control = .sending := (askHeader_control s).trans hcontrol
  have hsending : (connect (askHeader s) i.connect).player.control = .sending := hask
  rw [iterate] at h
  dsimp only at h
  split at h
  · cases h
    exact hconnect.of_player rfl id rfl fun hfinished => by cases hfinished
  · exact sendHeader_inv (connect_inv (askHeader_inv hsent) hask askHeader_asks i.connect) hconnect hsending connect_asks h

theorem finish_inv (hinv : Inv s) (newPlaylist : Option Lplaylist) : Inv (finish F s newPlaylist) := by
  obtain ⟨hconnected, -, hicecast, hnot⟩ := finish_player s.player newPlaylist
  exact hinv.of_player rfl (fun hyes => hconnected ▸ hyes) hicecast fun hsending => absurd hsending hnot

theorem step_inv (hrate : ∀ {r r' : Reader} {fileExists fopen} {info info' : FileInfo},
      F.getFileInfo r fileExists fopen info = some (info', r') → info'.retValue ≠ -1 → info'.sr ≠ -1)
    (hsent : Broadcast.Inv header s) (hinv : Inv s) {e : Event} (h : step F header s e = some s') : Inv s' := by
  cases change_of_step h with
  | unfit => exact hinv
  | attempt hcontrol h => exact attempt_inv hrate hinv hcontrol h
  | iterate hcontrol h => exact iterate_inv hsent hinv hcontrol h
  | finish newPlaylist => exact finish_inv hinv newPlaylist

theorem start_inv (playList : Lplaylist) (playfileExists : Bool) (npfile : Option Nat) (c : Connect)
    (reader : Reader) : Inv (start playList playfileExists npfile c reader) := by
  obtain ⟨-, hcontrol⟩ := start_player playList playfileExists npfile c
  cases hconnected : (Playlist.start playList playfileExists npfile c).connected with
  | true =>
      have hopened : (start playList playfileExists npfile c reader).connections = [opened none] := if_pos hconnected
      refine ⟨?_, fun _ d hd => ⟨?_, fun hsending => absurd hsending hcontrol⟩⟩
      · rw [hopened, List.forall_mem_singleton]
        exact fun a ha => nomatch ha
      · rw [hopened] at hd
        obtain rfl := Option.some.inj hd
        exact agrees_of_announced_none rfl
  | false =>
      have hnone : (start playList playfileExists npfile c reader).connections = [] :=
        if_neg (by rw [hconnected]; exact Bool.false_ne_true)
      refine ⟨?_, fun hyes => absurd (hconnected.symm.trans hyes) Bool.false_ne_true⟩
      rw [hnone]
      exact fun d hd => nomatch hd

end Steps

section Runs

variable {F : Format Reader} {header : FileInfo → List UInt8} {s : State Reader} {playList : Lplaylist}
variable {playfileExists : Bool} {npfile : Option Nat} {c : Connect} {es : List Event}

theorem run_inv (hrate : ∀ {r r' : Reader} {fileExists fopen} {info info' : FileInfo},
      F.getFileInfo r fileExists fopen info = some (info', r') → info'.retValue ≠ -1 → info'.sr ≠ -1)
    {reader : Reader} (h : es.foldlM (step F header) (start playList playfileExists npfile c reader) = some s) :
    Inv s := by
  have hboth := foldlM_invariant (fun t : State Reader => Broadcast.Inv header t ∧ Inv t)
    (fun t e t' hstep hinv => ⟨Broadcast.step_inv hinv.1 hstep, step_inv hrate hinv.1 hinv.2 hstep⟩) h
    ⟨Broadcast.start_inv playList playfileExists npfile c reader, start_inv playList playfileExists npfile c reader⟩
  exact hboth.2

theorem playInfo_sr (t : Aac.Taac) (info : FileInfo) (fileSize : Nat) (scan : Aac.Scan) :
    (Aac.playInfo t info fileSize scan).1.sr = (Aac.sftable.getD scan.sr.toNat 0 : Nat) := by
  rw [Aac.playInfo]
  dsimp only
  split
  · rfl
  · split <;> rfl

theorem rate_of_aac {t t' : Aac.Taac} {fileExists : Bool} {fopen : Option (List UInt8)} {info info' : FileInfo}
    (h : aac.getFileInfo t fileExists fopen info = some (info', t')) (hret : info'.retValue ≠ -1) : info'.sr ≠ -1 := by
  obtain ⟨bytes, index, scan, -, -, -, -, hplay⟩ := AacStream.getFileInfo_ok h hret
  have hsr := playInfo_sr t { info with retValue := -1, frame := 0 } bytes.length scan
  rw [hplay] at hsr
  have hnonneg : 0 ≤ info'.sr := hsr ▸ Int.natCast_nonneg _
  omega

/-- On each connection the buffers have the rate of its header, but for those behind the track in the middle of
which it was made. The header is that of this track, or of a later one if it was not accepted. -/
theorem run_announced {header : FileInfo → List UInt8} {s : State Aac.Taac} {reader : Aac.Taac}
    (h : es.foldlM (step aac header) (start playList playfileExists npfile c reader) = some s) :
    ∀ c ∈ s.connections, Announced c ∧ Headed c ∧ c.headers ⊆ origins s.tracks := by
  have hsound := (Broadcast.run_inv h).toSound
  exact fun c hc => ⟨(run_inv rate_of_aac h).announced c hc, (hsound.carries c hc).2, hsound.known c hc⟩

def slowFile : List UInt8 := [0xFF, 0xF1, 0x70, 0x80, 70, 0, 0] ++ List.replicate 553 0

/-- The connection breaks off in the only buffer of the first track and is made again before the end of that. -/
def slowEvents : List Event :=
  [.attempt true (some slowFile), .iterate ⟨.connected, .whole, .text true, .failed 100⟩,
    .iterate ⟨.connected, .whole, .text true, .whole⟩, .finish none,
    .attempt true (some AacStream.demoFrame.bytes), .iterate ⟨.connected, .whole, .text true, .whole⟩]

/-- The server is told of 7350 Hz and gets 48 kHz. -/
theorem run_announced_slow : ∃ s, slowEvents.foldlM (step aac demoHeader) demoStart = some s ∧
    (∀ c ∈ s.connections, Announced c ∧ Headed c ∧ c.headers ⊆ origins s.tracks) ∧
      s.connections.head?.map (fun c => (c.announced.map fun a => a.info.sr, rates c)) = some (some 7350, [48000]) := by
  have hvalue : (slowEvents.foldlM (step aac demoHeader) demoStart).map (fun s => s.connections.head?.map
      fun c => (c.announced.map fun a => a.info.sr, rates c)) = some (some (some 7350, [48000])) := by decide +kernel
  obtain ⟨s, hs, hrates⟩ := Option.map_eq_some_iff.mp hvalue
  exact ⟨s, hs, run_announced hs, hrates⟩

end Runs

end RadioServices.Station.AnnouncedRate

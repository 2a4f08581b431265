import RadioServices.Rotator.Termination

namespace RadioServices.Rotator.Completion

open Lib Lib.C TRotatorCtrl Machine Termination

/-- The next pass adds a track to a playlist that has one already. -/
def AddsAnother (env : Env) (m : Machine) : Prop :=
  0 < m.ctrl.size ∧ m.ctrl.size < (tick env m).ctrl.size

/-- A call that begins here keeps its duration, or has a limit above zero. -/
def Measured (c : TRotatorCtrl) : Prop := c.constructionComplete = false ∨ 0 < c.timer.hours24

/-- The call that begins with `c` stops in time, as far as `n` passes of its loops show. -/
structure StopsInTime (env : Env) (c : TRotatorCtrl) (n : Nat) : Prop where
  tracks : 0 < c.maxTracks → (passes env c n).ctrl.size ≤ c.maxTracks
  completed : AddsAnother env (passes env c n) → Measured c →
    (passes env c n).ctrl.playlistConstructionCompleted = false
  duration : AddsAnother env (passes env c n) → Measured c → c.schedule = true ∨ c.generalDuration.isSome = true →
    (passes env c n).ctrl.timer.playlistDuration < c.timer.hours24

def limits (c : TRotatorCtrl) : Int × Bool × Option Str × Int :=
  (c.maxTracks, c.schedule, c.generalDuration, c.timer.hours24)

/-- Between two additions of the call that began with `c` the playlist is not complete. -/
structure Timely (c : TRotatorCtrl) (m : Machine) : Prop where
  limits : limits m.ctrl = limits c
  size : 0 < c.maxTracks → m.ctrl.size ≤ c.maxTracks
  tracks : ¬ Stopped m → 0 < m.ctrl.size → 0 < c.maxTracks → m.ctrl.size < c.maxTracks
  completed : ¬ Stopped m → 0 < m.ctrl.size → Measured c → m.ctrl.playlistConstructionCompleted = false
  measured : ¬ Stopped m → Measured c → Measured m.ctrl

section Step

variable {env : Env} {c d e : TRotatorCtrl} {m : Machine}

theorem limits_of_core (h : d.core = c.core) : limits d = limits c := by
  simp only [core, Core.mk.injEq] at h
  simp only [limits, h]

theorem completed_false_iff : c.playlistConstructionCompleted = false ↔
    (0 < c.maxTracks → c.size < c.maxTracks) ∧
      (c.schedule = true ∨ c.generalDuration.isSome = true → c.timer.playlistDuration < c.timer.hours24) := by
  simp only [playlistConstructionCompleted, TTimer.is24hoursCompleted, Bool.or_eq_false_iff, Bool.and_eq_false_imp,
    decide_eq_true_eq, decide_eq_false_iff_not, not_le, Bool.or_eq_true]

theorem size_of_tally (h : d.tally = c.tally) : d.size = c.size :=
  congrArg (fun l : List HashTable => (l.length : Int)) (congrArg Tally.playList h)

theorem completed_prepare (hnot : c.playlistConstructionCompleted = false) (hc : Measured c) :
    (c.prepare env).2.playlistConstructionCompleted = false := by
  have hcore := core_prepare env c
  simp only [core, Core.mk.injEq] at hcore
  rw [completed_false_iff] at hnot ⊢
  simp only [size, hcore, playList_prepare]
  refine ⟨hnot.1, fun hlimited => ?_⟩
  rcases duration_prepare env c with ⟨hsame, -⟩ | ⟨hzero, -, hcomplete⟩
  · rw [hsame]
    exact hnot.2 hlimited
  · rw [hzero]
    exact hc.resolve_left (by simp [hcomplete])

theorem measured_prepare (hc : Measured c) : Measured (c.prepare env).2 := by
  have hhours : (c.prepare env).2.timer.hours24 = c.timer.hours24 := congrArg Core.hours24 (core_prepare env c)
  rw [Measured, hhours]
  refine hc.imp_left fun hfalse => ?_
  rcases duration_prepare env c with ⟨-, hsame⟩ | ⟨-, hreset, -⟩
  · exact hsame.trans hfalse
  · exact hreset

theorem timely_finish (hlimits : limits d = limits c) (hsize : 0 < c.maxTracks → d.size ≤ c.maxTracks) :
    Timely c (finish d) :=
  ⟨hlimits, hsize, fun h => absurd (.inl rfl) h, fun h => absurd (.inl rfl) h, fun h => absurd (.inl rfl) h⟩

/-- A playlist that is not complete may grow by one more track. -/
theorem timely_going (hlimits : limits m.ctrl = limits c)
    (hnot : 0 < m.ctrl.size → 0 < c.maxTracks → m.ctrl.size < c.maxTracks)
    (hcompleted : 0 < m.ctrl.size → Measured c → m.ctrl.playlistConstructionCompleted = false)
    (hmeasured : Measured c → Measured m.ctrl) : Timely c m := by
  refine ⟨hlimits, fun hmax => ?_, fun _ => hnot, fun _ => hcompleted, fun _ => hmeasured⟩
  rcases Int.lt_or_le 0 m.ctrl.size with hpos | hzero
  · exact (hnot hpos hmax).le
  · omega

theorem timely_endRound (hlimits : limits d = limits c) (hsize : 0 < c.maxTracks → d.size < c.maxTracks)
    (hnot : d.playlistConstructionCompleted = false) (hmeasured : Measured c → Measured d)
    (h : RoundEnd env d m) : Timely c m := by
  have hstop (hmax : 0 < c.maxTracks) : d.size ≤ c.maxTracks := (hsize hmax).le
  have hcounted {grows : Bool} {e : TRotatorCtrl} (he : d.playlistSizeIncrease = (grows, e)) :
      limits e = limits c ∧ e.size = d.size ∧ e.playlistConstructionCompleted = false ∧
        (Measured c → Measured e) := by
    obtain ⟨_, _, _, rfl⟩ := playlistSizeIncrease_frame he
    exact ⟨hlimits, rfl, hnot, hmeasured⟩
  have hsame (e : TRotatorCtrl) : limits (e.prepare env).2 = limits e ∧ (e.prepare env).2.size = e.size :=
    ⟨limits_of_core (core_prepare env e), by rw [size, playList_prepare, size]⟩
  cases h with
  | plain => exact timely_finish hlimits hstop
  | givesUp e hspecial he =>
      obtain ⟨hlim, hsz, -, -⟩ := hcounted he
      exact timely_finish hlim (hsz ▸ hstop)
  | noOrder e hspecial he =>
      obtain ⟨hlim, hsz, -, -⟩ := hcounted he
      obtain ⟨hlim', hsz'⟩ := hsame e
      exact timely_finish (hlim'.trans hlim) (hsz'.trans hsz ▸ hstop)
  | again e ito hspecial he =>
      obtain ⟨hlim, hsz, hnot', hmeasured'⟩ := hcounted he
      obtain ⟨hlim', hsz'⟩ := hsame e
      exact timely_going (hlim'.trans hlim) (fun _ hmax => hsz'.trans hsz ▸ hsize hmax)
        (fun _ hc => completed_prepare hnot' (hmeasured' hc)) fun hc => measured_prepare (hmeasured' hc)

theorem timely_endVisit (hlimits : limits d = limits c) (hsize : 0 < c.maxTracks → d.size ≤ c.maxTracks)
    (hmeasured : Measured c → Measured d) (ito : Int) (toNext : Bool) : Timely c (endVisit env d ito toNext) := by
  have hmax : d.maxTracks = c.maxTracks := congrArg Prod.fst hlimits
  have htracks (hnot : d.playlistConstructionCompleted = false) : 0 < c.maxTracks → d.size < c.maxTracks := by
    rw [← hmax]
    exact (completed_false_iff.mp hnot).1
  have hend := endVisit_end env d ito toNext
  generalize endVisit env d ito toNext = m at hend
  cases hend with
  | completed => exact timely_finish hlimits hsize
  | next k hnot => exact timely_going hlimits (fun _ => htracks hnot) (fun _ _ => hnot) hmeasured
  | round _ hnot _ h => exact timely_endRound hlimits (htracks hnot) hnot hmeasured h

theorem timely_tried {folder : Str} {hf : THFolders} {flNext : Bool}
    (hm : Timely c m) (hgoing : ¬ Stopped m) (hfind : m.ctrl.hfolders.find? folder = some hf)
    (h : Tried m.ctrl folder (rewindFolder hf) flNext d) :
    limits d = limits c ∧ (Measured c → Measured d) ∧ (0 < c.maxTracks → d.size ≤ c.maxTracks) ∧
      (flNext = false → ∀ ito toNext, Timely c ⟨d, .inner ito folder toNext⟩) := by
  have hlimits : limits d = limits m.ctrl := by
    rcases h.core (table_of_find? hfind) with hcore | ⟨data, singer, title, -, hcore⟩
    · exact limits_of_core hcore
    · have hframe := congrArg (fun k : Core => (k.maxTracks, k.schedule, k.generalDuration, k.hours24)) hcore
      exact hframe
  have hcomplete : d.constructionComplete = m.ctrl.constructionComplete := by
    rcases h.tally with heq | ⟨-, data, singer, title, t, -, -, heq⟩
    · exact congrArg Tally.constructionComplete heq
    · exact congrArg Tally.constructionComplete heq
  have hmeasured : Measured c → Measured d := by
    intro hc
    have hhours : d.timer.hours24 = m.ctrl.timer.hours24 := congrArg (·.2.2.2) hlimits
    rw [Measured, hcomplete, hhours]
    exact hm.measured hgoing hc
  refine ⟨hlimits.trans hm.limits, hmeasured, ?_, ?_⟩
  · intro hmax
    rcases h.tally with heq | ⟨-, data, singer, title, t, -, -, heq⟩
    · rw [size_of_tally heq]
      exact hm.size hmax
    · have hsize : d.size = m.ctrl.size + 1 := by
        have hplay := congrArg Tally.playList heq
        simp only [tally] at hplay
        simp [size, hplay]
      rcases Int.lt_or_le 0 m.ctrl.size with hpos | hzero
      · have hlt := hm.tracks hgoing hpos hmax
        omega
      · omega
  · intro hno ito toNext
    have hskip : d = m.ctrl.setFolder folder (advanceFolder (rewindFolder hf)) :=
      (skipped_of_continues (hno ▸ h)).1
    subst hskip
    exact timely_going hm.limits (hm.tracks hgoing) (hm.completed hgoing) hmeasured

theorem timely_tick (hm : Timely c m) : Timely c (tick env m) := by
  have hpass := tick_pass env m
  generalize tick env m = t at hpass ⊢
  cases hpass with
  | stopped => exact hm
  | undefined =>
      exact ⟨hm.limits, hm.size, fun h => absurd (.inr rfl) h, fun h => absurd (.inr rfl) h, fun h => absurd (.inr rfl) h⟩
  | begins _ _ _ hcontrol =>
      have hgoing : ¬ Stopped m := by simp [Stopped, hcontrol]
      exact timely_going hm.limits (hm.tracks hgoing) (hm.completed hgoing) (hm.measured hgoing)
  | stays _ _ _ _ _ hcontrol _ hfind htried =>
      have hgoing : ¬ Stopped m := by simp [Stopped, hcontrol]
      exact (timely_tried hm hgoing hfind htried).2.2.2 rfl _ _
  | leaves _ _ _ _ _ hcontrol _ hfind htried =>
      have hgoing : ¬ Stopped m := by simp [Stopped, hcontrol]
      obtain ⟨hlimits, hmeasured, hsize, -⟩ := timely_tried hm hgoing hfind htried
      exact timely_endVisit hlimits hsize hmeasured _ _

theorem timely_createPlaylist (c : TRotatorCtrl) : Timely c (createPlaylist c) := by
  have hempty (m : Machine) (hlimits : limits m.ctrl = limits c) (hsize : m.ctrl.size = 0)
      (hmeasured : Measured c → Measured m.ctrl) : Timely c m :=
    ⟨hlimits, fun _ => by omega, fun _ h => by omega, fun _ h => by omega, fun _ => hmeasured⟩
  have hstart := createPlaylist_cases c
  generalize createPlaylist c = m at hstart ⊢
  cases hstart with
  | refused | undefined | first => exact hempty _ rfl rfl id
  | nothing => exact timely_finish rfl fun h => h.le

theorem timely_passes (env : Env) (c : TRotatorCtrl) (n : Nat) : Timely c (passes env c n) := by
  induction n with
  | zero => exact timely_createPlaylist c
  | succ n ih =>
      rw [passes, Function.iterate_succ_apply']
      exact timely_tick ih

theorem going_of_adds (h : AddsAnother env m) : ¬ Stopped m := fun hstop => by
  have hlt := h.2
  rw [tick_of_stopped env hstop] at hlt
  exact lt_irrefl _ hlt

end Step

/-- Whatever calls came before, a call of `create_playlist` adds a further track
only while the playlist is not complete. -/
theorem stops_in_time (env : Env) (c : TRotatorCtrl) (n : Nat) : StopsInTime env c n := by
  have ht := timely_passes env c n
  have hcompleted (hadds : AddsAnother env (passes env c n)) (hc : Measured c) :
      (passes env c n).ctrl.playlistConstructionCompleted = false :=
    ht.completed (going_of_adds hadds) hadds.1 hc
  refine ⟨ht.size, hcompleted, fun hadds hc hlimited => ?_⟩
  have hlimits := ht.limits
  simp only [limits, Prod.mk.injEq] at hlimits
  have hduration := (completed_false_iff.mp (hcompleted hadds hc)).2
  rw [hlimits.2.1, hlimits.2.2.1, hlimits.2.2.2] at hduration
  exact hduration hlimited

section Demo

def demoArray : HashTable :=
  [(.str DEFAULT_FOLDERS, .array [
    (.str "A".toList, .array [
      (.str DEFAULT_TRACKS, .array [
        (.long 0, .array (trackRecord "x" "one" (some "-02:00:00"))),
        (.long 1, .array (trackRecord "x" "two" (some "02:00:00")))]),
      (.str DEFAULT_SERVICE, .isTrue)])])]

/-- With a negative general duration a second call clears the duration of its
first track and so is complete when it adds the next one. -/
theorem cleared_duration_completes : ¬ ∀ (env : Env) (arr : HashTable) (arg : Param) (c : TRotatorCtrl)
    (es : List Event) (n : Nat), new env arr arg = some c → (run env c es).control = .idle →
    AddsAnother env (passes env (run env c es).ctrl n) →
    (passes env (run env c es).ctrl n).ctrl.playlistConstructionCompleted = false := by
  intro h
  have hnot := h (Env.at 0) demoArray (.generalDuration "-01:00:00".toList) _
    (.createPlaylist :: List.replicate 4 .tick) 3 rfl rfl ⟨by decide, by decide⟩
  exact absurd hnot (by decide)

end Demo

end RadioServices.Rotator.Completion

import RadioServices.Rotator.Order
import RadioServices.Rotator.Termination
import Mathlib.Algebra.Ring.Int.Defs

namespace RadioServices.Rotator.Duration

open Lib Lib.C TRotatorCtrl Machine Termination

def splitColon (s : Str) : Str × Str := (s.takeWhile (· ≠ ':'), (s.dropWhile (· ≠ ':')).tail)

def hms (s : Str) : Nat :=
  let (hours, rest) := splitColon s
  let (minutes, rest) := splitColon rest
  3600 * decimal hours 0 + 60 * decimal minutes 0 + decimal (splitColon rest).1 0

/-- What a track counts for: its duration, the default when it is missing or zero. -/
def effective (default : Int) : Option Str → Int
  | none => default
  | some s => if hms s = 0 then default else hms s

def IsHms (s : Str) : Prop :=
  ∃ hours minutes seconds : Str, (∀ ds ∈ [hours, minutes, seconds], ds ≠ [] ∧ ∀ c ∈ ds, c.isDigit = true) ∧
    s = hours ++ ':' :: (minutes ++ ':' :: seconds)

/-- A duration that `append_playlist_duration` counts for what it is. -/
def Accounted (default : Int) : Option Str → Prop
  | none => default = 0
  | some s => (hms s : Int) < 2 ^ 31 ∧ (hms s = 0 → i32 default = default)

def total (c : TRotatorCtrl) : Int :=
  (c.playList.map fun data => effective c.timer.defaultTrackDuration (recordDuration data)).sum

/-- Every record carries a duration or none at all. -/
def Timed (k : Core) : Prop :=
  ∀ folder table, k.tables.find? folder = some table → ∀ key data, (key, Zval.array data) ∈ table.1 →
    ∀ s, recordDuration data = some s → IsHms s

/-- The record that the next pass may add is counted for what it is. -/
def AccountsNext (m : Machine) : Prop :=
  ∀ ito folder toNext hf data singer title, m.control = .inner ito folder toNext →
    m.ctrl.hfolders.find? folder = some hf → Offers m.ctrl (rewindFolder hf) folder data singer title →
    Accounted m.ctrl.timer.defaultTrackDuration (recordDuration data)

/-- The calls on the object: those of the loop, and the setter of the default duration. -/
inductive Call
  | event (e : Event)
  | defaultTrackDuration (str : Str)

def callStep (env : Env) (m : Machine) : Call → Machine
  | .event e => step env m e
  | .defaultTrackDuration str =>
      if m.control = .idle then
        match m.ctrl.timer.setDefaultTrackDuration (cstr str) with
        | some t => ⟨{ m.ctrl with timer := t }, .idle⟩
        | none => ⟨m.ctrl, .undefined⟩
      else m

def callRun (env : Env) (c : TRotatorCtrl) (cs : List Call) : Machine :=
  Runs.run (callStep env) (start c) cs

def NoPlaylist (cs : List Call) : Prop := ∀ e ∈ cs, e ≠ .event .createPlaylist

/-- After these calls the next `create_playlist` is the first one, or follows `prepare`. -/
def Ready (env : Env) (c : TRotatorCtrl) (cs : List Call) : Prop :=
  NoPlaylist cs ∨ ∃ before after, cs = before ++ .event .prepare :: after ∧
    (callRun env c before).control = .idle ∧ NoPlaylist after

section Seconds

theorem not_mem_colon {ds : Str} (hds : ∀ c ∈ ds, c.isDigit = true) : ':' ∉ ds := by
  intro hmem
  exact absurd (hds ':' hmem) (by decide)

theorem splitColon_digits {ds rest : Str} (hds : ∀ c ∈ ds, c.isDigit = true) :
    splitColon (ds ++ ':' :: rest) = (ds, rest) := by
  have hcolon := not_mem_colon hds
  rw [splitColon, Cut.takeWhile_ne_append hcolon, Cut.dropWhile_ne_append hcolon, List.tail_cons]

theorem getSeconds_hms {t : TTimer} {s : Str} (hs : IsHms s) :
    ∃ sec, t.getSeconds (some s) = some sec ∧
      ((hms s : Int) < 2 ^ 31 → sec = if hms s = 0 then t.defaultTrackDuration else hms s) := by
  obtain ⟨hours, minutes, seconds, hdigits, rfl⟩ := hs
  simp only [List.mem_cons, List.not_mem_nil, or_false, forall_eq_or_imp, forall_eq] at hdigits
  obtain ⟨hhours, hminutes, hseconds⟩ := hdigits
  have hlast : splitColon seconds = (seconds, []) := by
    have hcolon := not_mem_colon hseconds.2
    rw [splitColon, Cut.takeWhile_ne_of_not_mem hcolon, Cut.dropWhile_ne_of_not_mem hcolon]
    rfl
  have hvalue : hms (hours ++ ':' :: (minutes ++ ':' :: seconds)) =
      3600 * decimal hours 0 + 60 * decimal minutes 0 + decimal seconds 0 := by
    simp only [hms, splitColon_digits hhours.2, splitColon_digits hminutes.2, hlast]
  have hatoi := atoi_digits hseconds noDigit_nil
  rw [List.append_nil] at hatoi
  simp only [TTimer.getSeconds, atoi_digits hhours (TTimer.noDigit_colon _), strchr_append (not_mem_colon hhours.2),
    Option.bind_eq_bind, Option.bind_some, List.tail_cons, atoi_digits hminutes (TTimer.noDigit_colon _),
    strchr_append (not_mem_colon hminutes.2), hatoi, Option.pure_def]
  refine ⟨_, rfl, fun hfits => ?_⟩
  rw [hvalue] at hfits ⊢
  rw [i32_saturate (by omega), i32_saturate (by omega), i32_saturate (by omega),
    i32_of_bounds (by omega) (by omega), i32_of_bounds (by omega) (by omega)]
  split <;> split <;> omega

/-- What an addition adds to the duration of the playlist. -/
def counted (t : TTimer) (sd : Option Str) : Option Int :=
  (t.appendPlaylistDuration sd).map fun t' => t'.playlistDuration - t.playlistDuration

/-- The code counts a track for what it is exactly if it is accounted. -/
theorem counted_eq_effective_iff {t : TTimer} {sd : Option Str} (hsd : ∀ s, sd = some s → IsHms s) :
    counted t sd = some (effective t.defaultTrackDuration sd) ↔ Accounted t.defaultTrackDuration sd := by
  cases sd with
  | none => simp [counted, TTimer.appendPlaylistDuration, effective, Accounted, eq_comm]
  | some s =>
      obtain ⟨sec, hsec, hvalue⟩ := getSeconds_hms (t := t) (hsd s rfl)
      have hcounted : counted t (some s) = some (i32 sec) := by
        simp [counted, TTimer.appendPlaylistDuration, hsec, TTimer.addPlaylistDuration]
      rw [hcounted, Option.some.injEq, effective, Accounted]
      have hbounds := i32_bounds sec
      constructor
      · intro heq
        have hfits : (hms s : Int) < 2 ^ 31 := by
          by_contra hbig
          have hne : hms s ≠ 0 := fun h => by rw [h] at hbig; exact hbig (by decide)
          rw [if_neg hne] at heq
          omega
        refine ⟨hfits, fun hzero => ?_⟩
        have hsec' := hvalue hfits
        rw [if_pos hzero] at heq hsec'
        rwa [hsec'] at heq
      · rintro ⟨hfits, hzero⟩
        rw [hvalue hfits]
        split
        · rename_i h
          exact hzero h
        · exact i32_of_bounds (by omega) hfits

end Seconds

section Call

variable {env : Env} {c d : TRotatorCtrl} {m : Machine}

/-- What the sum is made of, and the flag that lets `prepare` clear it. -/
def account (c : TRotatorCtrl) : List HashTable × Int × Int × Bool :=
  (c.playList, c.timer.defaultTrackDuration, c.timer.playlistDuration, c.constructionComplete)

/-- The duration is the one of the playlist, and a call in progress does not clear it. -/
structure Balanced (m : Machine) : Prop where
  total : m.ctrl.timer.playlistDuration = total m.ctrl
  going : ¬ Stopped m → m.ctrl.constructionComplete = false

theorem balanced_of_account (h : account m.ctrl = account c) (hsum : c.timer.playlistDuration = total c)
    (hflag : c.constructionComplete = false) : Balanced m := by
  simp only [account, Prod.mk.injEq] at h
  obtain ⟨hplay, hdefault, hduration, hcomplete⟩ := h
  refine ⟨?_, fun _ => hcomplete.trans hflag⟩
  rw [hduration, hsum, total, total, hplay, hdefault]

theorem balanced_finish (h : c.timer.playlistDuration = total c) : Balanced (finish c) :=
  ⟨h, fun hgoing => absurd (.inl rfl) hgoing⟩

theorem account_prepare (hflag : c.constructionComplete = false) :
    account (c.prepare env).2 = account c := by
  have hdefault : (c.prepare env).2.timer.defaultTrackDuration = c.timer.defaultTrackDuration :=
    congrArg Core.defaultTrackDuration (core_prepare env c)
  rcases duration_prepare env c with ⟨hduration, hcomplete⟩ | ⟨-, -, hyes⟩
  · simp only [account, Prod.mk.injEq]
    exact ⟨playList_prepare env c, hdefault, hduration, hcomplete⟩
  · cases hflag.symm.trans hyes

theorem balanced_endVisit (hsum : c.timer.playlistDuration = total c) (hflag : c.constructionComplete = false)
    (ito : Int) (toNext : Bool) : Balanced (endVisit env c ito toNext) := by
  have hend := endVisit_end env c ito toNext
  generalize endVisit env c ito toNext = m at hend ⊢
  have hcounted {grows : Bool} {e : TRotatorCtrl} (he : c.playlistSizeIncrease = (grows, e)) :
      account e = account c ∧ e.constructionComplete = false := by
    obtain ⟨_, _, _, rfl⟩ := playlistSizeIncrease_frame he
    exact ⟨rfl, hflag⟩
  cases hend with
  | completed => exact balanced_finish hsum
  | next k => exact balanced_of_account rfl hsum hflag
  | round _ _ _ h =>
      cases h with
      | plain => exact balanced_finish hsum
      | givesUp e _ he =>
          obtain ⟨haccount, -⟩ := hcounted he
          exact balanced_finish (balanced_of_account (m := ⟨e, .idle⟩) haccount hsum hflag).total
      | noOrder e _ he =>
          obtain ⟨haccount, hfalse⟩ := hcounted he
          exact balanced_finish (balanced_of_account (m := ⟨(e.prepare env).2, .idle⟩)
            ((account_prepare hfalse).trans haccount) hsum hflag).total
      | again e k _ he =>
          obtain ⟨haccount, hfalse⟩ := hcounted he
          exact balanced_of_account ((account_prepare hfalse).trans haccount) hsum hflag

theorem total_tried {folder : Str} {hf : THFolders} {flNext : Bool} (htimed : Timed c.core)
    (hfind : c.hfolders.find? folder = some hf)
    (hnext : ∀ data singer title, Offers c (rewindFolder hf) folder data singer title →
      Accounted c.timer.defaultTrackDuration (recordDuration data))
    (hsum : c.timer.playlistDuration = total c) (h : Tried c folder (rewindFolder hf) flNext d) :
    d.timer.playlistDuration = total d ∧ d.constructionComplete = c.constructionComplete := by
  have hdefault : d.timer.defaultTrackDuration = c.timer.defaultTrackDuration := by
    rcases h.core (table_of_find? hfind) with hcore | ⟨data, singer, title, -, hcore⟩
    · exact congrArg Core.defaultTrackDuration hcore
    · exact (congrArg Core.defaultTrackDuration hcore).trans rfl
  rcases h.tally with heq | ⟨-, data, singer, title, t, hoffers, ht, heq⟩
  · simp only [tally, Tally.mk.injEq] at heq
    refine ⟨?_, heq.1⟩
    rw [heq.2.2.2.2, hsum, total, total, heq.2.2.2.1, hdefault]
  · simp only [tally, Tally.mk.injEq] at heq
    refine ⟨?_, heq.1⟩
    have hrecord : ∀ s, recordDuration data = some s → IsHms s := by
      obtain ⟨key, hmem⟩ := mem_of_zendHashIndexFind hoffers.1
      have htable := table_of_find? hfind
      exact htimed folder _ htable key data hmem
    have hcounted := (counted_eq_effective_iff hrecord).mpr (hnext data singer title hoffers)
    rw [counted, ht, Option.map_some, Option.some.injEq] at hcounted
    have htotal : total d = total c + effective c.timer.defaultTrackDuration (recordDuration data) := by
      rw [total, total, heq.2.2.2.1, hdefault, List.map_append, List.sum_append]
      simp
    rw [heq.2.2.2.2, htotal, ← hcounted, hsum]
    omega

theorem balanced_tick (htimed : Timed m.ctrl.core) (hnext : AccountsNext m) (hm : Balanced m) :
    Balanced (tick env m) := by
  have htried {ito : Int} {folder : Str} {toNext flNext : Bool} {hf : THFolders} {d : TRotatorCtrl}
      (hcontrol : m.control = .inner ito folder toNext) (hfind : m.ctrl.hfolders.find? folder = some hf)
      (h : Tried m.ctrl folder (rewindFolder hf) flNext d) :
      d.timer.playlistDuration = total d ∧ d.constructionComplete = false := by
    have hboth := total_tried htimed hfind
      (fun data singer title => hnext ito folder toNext hf data singer title hcontrol hfind) hm.total h
    exact ⟨hboth.1, hboth.2.trans (hm.going (by simp [Stopped, hcontrol]))⟩
  have hpass := tick_pass env m
  generalize tick env m = t at hpass ⊢
  cases hpass with
  | stopped => exact hm
  | undefined _ hgoing => exact balanced_of_account rfl hm.total (hm.going hgoing)
  | begins _ _ _ hcontrol => exact balanced_of_account rfl hm.total (hm.going (by simp [Stopped, hcontrol]))
  | stays _ _ _ _ _ hcontrol _ hfind h =>
      obtain ⟨hsum, hfalse⟩ := htried hcontrol hfind h
      exact ⟨hsum, fun _ => hfalse⟩
  | leaves _ _ _ _ _ hcontrol _ hfind h =>
      obtain ⟨hsum, hfalse⟩ := htried hcontrol hfind h
      exact balanced_endVisit hsum hfalse _ _

theorem balanced_createPlaylist (hzero : c.timer.playlistDuration = 0)
    (hflag : c.constructionComplete = false) : Balanced (createPlaylist c) := by
  have hstart := createPlaylist_cases c
  generalize createPlaylist c = m at hstart ⊢
  cases hstart with
  | refused => exact ⟨hzero, fun hgoing => absurd (.inl rfl) hgoing⟩
  | nothing => exact balanced_finish hzero
  | undefined | first => exact ⟨hzero, fun _ => hflag⟩

theorem balanced_passes (htimed : Timed c.core) (hzero : c.timer.playlistDuration = 0)
    (hflag : c.constructionComplete = false) {n : Nat} (hnext : ∀ k < n, AccountsNext (passes env c k)) :
    Balanced (passes env c n) := by
  induction n with
  | zero => exact balanced_createPlaylist hzero hflag
  | succ n ih =>
      have htables := run_frame Core.tables (fun _ _ _ => rfl) env c (.createPlaylist :: List.replicate n .tick)
      rw [← passes_eq_run] at htables
      rw [passes_add env c n 1]
      refine balanced_tick ?_ (hnext n (Nat.lt_succ_self n)) (ih fun k hk => hnext k (Nat.lt_succ_of_lt hk))
      rw [Timed, htables]
      exact htimed

theorem balanced_of_stopped (hstop : Stopped (createPlaylist c)) (hzero : c.timer.playlistDuration = 0) (n : Nat) :
    Balanced (passes env c n) := by
  obtain ⟨hplay, htimer⟩ := createPlaylist_account c
  rw [passes_of_stopped hstop]
  refine ⟨?_, fun hgoing => absurd hstop hgoing⟩
  rw [total, hplay, htimer, hzero]
  rfl

end Call

section Calls

variable {env : Env} {m : Machine}

/-- Between two calls a playlist that is not complete has no duration. -/
structure Kept (m : Machine) : Prop where
  schedule : m.ctrl.core.schedule = false
  timed : Timed m.ctrl.core
  idle : m.control = .idle → m.ctrl.constructionComplete = false → m.ctrl.timer.playlistDuration = 0
  empty : arraySize m.ctrl.core.array = 0 → Stopped m ∧ m.ctrl.timer.playlistDuration = 0

theorem endVisit_idle {c : TRotatorCtrl} {ito : Int} {toNext : Bool}
    (h : (endVisit env c ito toNext).control = .idle) : (endVisit env c ito toNext).ctrl.constructionComplete = true := by
  have hend := endVisit_end env c ito toNext
  generalize endVisit env c ito toNext = m at hend h ⊢
  cases hend with
  | completed => rfl
  | next k => cases h
  | round _ _ _ hround =>
      cases hround with
      | plain | givesUp | noOrder => rfl
      | again => cases h

theorem tick_idle (hgoing : ¬ Stopped m) (h : (tick env m).control = .idle) :
    (tick env m).ctrl.constructionComplete = true := by
  have hpass := tick_pass env m
  generalize tick env m = t at hpass h ⊢
  cases hpass with
  | stopped hstop => exact absurd hstop hgoing
  | undefined | begins | stays => cases h
  | leaves => exact endVisit_idle h

theorem kept_of_core {t : Machine} (hm : Kept m)
    (hcore : t.ctrl.core.schedule = m.ctrl.core.schedule ∧ t.ctrl.core.tables = m.ctrl.core.tables ∧
      t.ctrl.core.array = m.ctrl.core.array)
    (hidle : t.control = .idle → t.ctrl.constructionComplete = false → t.ctrl.timer.playlistDuration = 0)
    (hempty : arraySize m.ctrl.core.array = 0 → Stopped t ∧ t.ctrl.timer.playlistDuration = 0) : Kept t :=
  ⟨hcore.1.trans hm.schedule, by rw [Timed, hcore.2.1]; exact hm.timed, hidle, hcore.2.2 ▸ hempty⟩

theorem step_limits (env : Env) (m : Machine) (e : Event) :
    (step env m e).ctrl.core.schedule = m.ctrl.core.schedule ∧ (step env m e).ctrl.core.tables = m.ctrl.core.tables ∧
      (step env m e).ctrl.core.array = m.ctrl.core.array := by
  rcases step_core env m e with hcore | ⟨a, h, -, hcore⟩
  · rw [hcore]
    exact ⟨rfl, rfl, rfl⟩
  · rw [hcore]
    exact ⟨rfl, rfl, rfl⟩

theorem kept_prepare (hm : Kept m) (hcontrol : m.control = .idle) :
    Kept { m with ctrl := (m.ctrl.prepare env).2 } := by
  have hcore := core_prepare env m.ctrl
  refine kept_of_core hm (by rw [hcore]; exact ⟨rfl, rfl, rfl⟩) (fun _ hflag => ?_) fun hempty => ⟨.inl hcontrol, ?_⟩
  · rcases duration_prepare env m.ctrl with ⟨hsame, hcomplete⟩ | ⟨hzero, -⟩
    · exact hsame.trans (hm.idle hcontrol (hcomplete.symm.trans hflag))
    · exact hzero
  · rcases duration_prepare env m.ctrl with ⟨hsame, -⟩ | ⟨hzero, -⟩
    · exact hsame.trans (hm.empty hempty).2
    · exact hzero

theorem createPlaylist_stopped {c : TRotatorCtrl} (h : arraySize c.array = 0 ∨ c.error > EMPTY_ERROR ∨ c.order = false) :
    Stopped (createPlaylist c) := by
  have hstart := createPlaylist_cases c
  generalize createPlaylist c = m at hstart ⊢
  cases hstart with
  | refused | nothing => exact .inl rfl
  | undefined => exact .inr rfl
  | first _ harray herror horder =>
      rcases h with h | h | h
      · exact absurd h harray
      · exact absurd h herror
      · cases horder.symm.trans h

theorem kept_createPlaylist (hm : Kept m) (hcontrol : m.control = .idle) : Kept (createPlaylist m.ctrl) := by
  have hcore := core_createPlaylist m.ctrl
  have htimer := (createPlaylist_account m.ctrl).2
  refine kept_of_core hm (by rw [hcore]; exact ⟨rfl, rfl, rfl⟩) ?_ fun hempty => ⟨createPlaylist_stopped (.inl hempty), ?_⟩
  · rw [htimer]
    intro hidle hflag
    refine hm.idle hcontrol ?_
    have hstart := createPlaylist_cases m.ctrl
    generalize createPlaylist m.ctrl = t at hstart hidle hflag
    cases hstart with
    | refused => exact hflag
    | nothing => cases hflag
    | undefined | first => cases hidle
  · rw [htimer]
    exact (hm.empty hempty).2

theorem kept_tick (hm : Kept m) : Kept (tick env m) := by
  by_cases hstop : Stopped m
  · rw [tick_of_stopped env hstop]
    exact hm
  · refine kept_of_core hm (step_limits env m .tick) (fun hidle hflag => ?_) fun hempty => absurd (hm.empty hempty).1 hstop
    simp [tick_idle hstop hidle] at hflag

theorem setDefault_duration {t t' : TTimer} {s : Str} (h : t.setDefaultTrackDuration s = some t') :
    t'.playlistDuration = t.playlistDuration := by
  simp only [TTimer.setDefaultTrackDuration, Option.bind_eq_bind, Option.pure_def, Option.bind_eq_some_iff,
    Option.some.injEq] at h
  obtain ⟨sec, -, rfl⟩ := h
  rfl

/-- What a call other than `create_playlist` does between two calls. -/
inductive Between (env : Env) (m : Machine) : Machine → Prop
  | same : Between env m m
  | prepare (h : m.control = .idle) : Between env m { m with ctrl := (m.ctrl.prepare env).2 }
  | default (t : TTimer) (h : m.control = .idle) (ht : t.playlistDuration = m.ctrl.timer.playlistDuration) :
      Between env m ⟨{ m.ctrl with timer := t }, .idle⟩
  | undefined (h : m.control = .idle) : Between env m ⟨m.ctrl, .undefined⟩

theorem setter_between (m : Machine) (str : Str) : Between env m (callStep env m (.defaultTrackDuration str)) := by
  simp only [callStep]
  split
  · rename_i hcontrol
    split
    · rename_i t ht
      exact .default t hcontrol (setDefault_duration ht)
    · exact .undefined hcontrol
  · exact .same

theorem callStep_between {e : Call} (hm : Stopped m) (he : e ≠ .event .createPlaylist) :
    Between env m (callStep env m e) := by
  cases e with
  | event e =>
      cases e with
      | createPlaylist => exact absurd rfl he
      | prepare =>
          simp only [callStep, step]
          split
          · rename_i hcontrol
            exact .prepare hcontrol
          · exact .same
      | tick =>
          simp only [callStep, step, tick_of_stopped env hm]
          exact .same
  | defaultTrackDuration str => exact setter_between m str

theorem kept_between {t : Machine} (hm : Kept m) (h : Between env m t) : Kept t := by
  cases h with
  | same => exact hm
  | prepare hcontrol => exact kept_prepare hm hcontrol
  | default t hcontrol ht =>
      refine kept_of_core hm ⟨rfl, rfl, rfl⟩ (fun _ hflag => ?_) fun hempty => ⟨.inl rfl, ?_⟩
      · exact ht.trans (hm.idle hcontrol hflag)
      · exact ht.trans (hm.empty hempty).2
  | undefined hcontrol =>
      exact kept_of_core hm ⟨rfl, rfl, rfl⟩ (fun hidle => by cases hidle) fun hempty =>
        ⟨.inr rfl, (hm.empty hempty).2⟩

theorem kept_callStep (hm : Kept m) (e : Call) : Kept (callStep env m e) := by
  cases e with
  | event e =>
      cases e with
      | createPlaylist =>
          simp only [callStep, step]
          split
          · rename_i hcontrol
            exact kept_createPlaylist hm hcontrol
          · exact hm
      | prepare =>
          simp only [callStep, step]
          split
          · rename_i hcontrol
            exact kept_prepare hm hcontrol
          · exact hm
      | tick => exact kept_tick hm
  | defaultTrackDuration str => exact kept_between hm (setter_between m str)

structure Fresh (m : Machine) : Prop where
  stopped : Stopped m
  duration : m.ctrl.timer.playlistDuration = 0
  clean : m.ctrl.constructionComplete = false ∨ m.ctrl.hfolders = .empty ∧ m.ctrl.order = false

structure Prepared (m : Machine) : Prop where
  stopped : Stopped m
  reset : m.ctrl.constructionComplete = false ∨ m.ctrl.error ≠ EMPTY_ERROR ∨ arraySize m.ctrl.array = 0

theorem stopped_between {t : Machine} (hm : Stopped m) (h : Between env m t) : Stopped t := by
  cases h with
  | same => exact hm
  | prepare => exact hm
  | default => exact .inl rfl
  | undefined => exact .inr rfl

theorem fresh_between {t : Machine} (hm : Fresh m) (h : Between env m t) : Fresh t := by
  have hstop := stopped_between hm.stopped h
  cases h with
  | same => exact hm
  | default t hcontrol ht => exact ⟨hstop, ht.trans hm.duration, hm.clean⟩
  | undefined => exact ⟨hstop, hm.duration, hm.clean⟩
  | prepare =>
      have horder : (m.ctrl.prepareOrder env).timer.playlistDuration = 0 :=
        (congrArg Tally.playlistDuration (tally_prepareOrder env m.ctrl)).trans hm.duration
      have hprepare := prepare_cases env m.ctrl
      generalize m.ctrl.prepare env = p at hprepare hstop ⊢
      cases hprepare with
      | refused | noInput => exact ⟨hstop, hm.duration, hm.clean⟩
      | reset => exact ⟨hstop, rfl, .inl rfl⟩
      | ready _ _ hcomplete => exact ⟨hstop, horder, .inl hcomplete⟩

theorem prepared_prepare (hcontrol : m.control = .idle) : Prepared { m with ctrl := (m.ctrl.prepare env).2 } := by
  refine ⟨.inl hcontrol, ?_⟩
  have hprepare := prepare_cases env m.ctrl
  generalize m.ctrl.prepare env = p at hprepare ⊢
  cases hprepare with
  | refused herror => exact .inr (.inl herror)
  | noInput _ harray => exact .inr (.inr harray)
  | reset => exact .inl rfl
  | ready _ _ hcomplete => exact .inl hcomplete

theorem prepared_between {t : Machine} (hm : Prepared m) (h : Between env m t) : Prepared t := by
  have hstop := stopped_between hm.stopped h
  cases h with
  | same => exact hm
  | prepare hcontrol => exact prepared_prepare hcontrol
  | default => exact ⟨hstop, hm.reset⟩
  | undefined => exact ⟨hstop, hm.reset⟩

theorem callRun_between {I : Machine → Prop} (hstop : ∀ t, I t → Stopped t)
    (hstep : ∀ t u, I t → Between env t u → I u) {cs : List Call} (hcs : NoPlaylist cs) (hm : I m) :
    I (Runs.run (callStep env) m cs) := by
  induction cs generalizing m with
  | nil => exact hm
  | cons e cs ih =>
      refine ih (fun f hf => hcs f (List.mem_cons_of_mem _ hf)) (hstep _ _ hm ?_)
      exact callStep_between (hstop _ hm) (hcs e List.mem_cons_self)

theorem kept_callRun {c : TRotatorCtrl} (hc : Kept (start c)) (cs : List Call) : Kept (callRun env c cs) :=
  Runs.run_invariant_all Kept (fun _ e hm => kept_callStep hm e) hc cs

/-- A call that is the first one, or follows `prepare`, starts from zero. -/
theorem ready_cases {c : TRotatorCtrl} {cs : List Call} (hfresh : Fresh (start c)) (hkept : Kept (start c))
    (hready : Ready env c cs) : Fresh (callRun env c cs) ∨ Prepared (callRun env c cs) ∧ Kept (callRun env c cs) := by
  rcases hready with hno | ⟨before, after, rfl, hidle, hno⟩
  · exact .inl (callRun_between (fun _ h => h.stopped) (fun _ _ => fresh_between) hno hfresh)
  · refine .inr ⟨?_, kept_callRun hkept _⟩
    rw [callRun, Runs.run_append, Runs.run_cons]
    refine callRun_between (fun _ h => h.stopped) (fun _ _ => prepared_between) hno ?_
    simp only [callStep, step]
    rw [callRun] at hidle
    rw [if_pos hidle]
    exact prepared_prepare hidle

end Calls

/-- In a run of calls whose additions are all accounted, the duration after a call
that is the first one or follows `prepare` is the one of its playlist. -/
theorem duration_accounted {env : Env} {arr : HashTable} {arg : Param} {c : TRotatorCtrl} {cs : List Call} {n : Nat}
    (hnew : new env arr arg = some c) (hschedule : c.schedule = false) (htimed : Timed c.core)
    (hidle : (callRun env c cs).control = .idle) (hready : Ready env c cs)
    (hclear : (callRun env c cs).ctrl.error = EMPTY_ERROR ∨ (callRun env c cs).ctrl.timer.playlistDuration = 0)
    (hnext : ∀ k < n, AccountsNext (passes env (callRun env c cs).ctrl k)) :
    (passes env (callRun env c cs).ctrl n).ctrl.timer.playlistDuration =
      total (passes env (callRun env c cs).ctrl n).ctrl := by
  have hblank := new_blank hnew
  have hzero := hblank.duration hschedule
  have hfresh : Fresh (start c) := ⟨.inl rfl, hzero, by
    rcases hblank.ready with h | h
    · exact .inr h
    · exact .inl h.1⟩
  have hkept : Kept (start c) := ⟨hschedule, htimed, fun _ _ => hzero, fun _ => ⟨.inl rfl, hzero⟩⟩
  have htables := (@kept_callRun env c hkept cs).timed
  rcases ready_cases hfresh hkept hready with hfresh' | ⟨hprepared, hkept'⟩
  · rcases hfresh'.clean with hflag | ⟨-, horder⟩
    · exact (balanced_passes htables hfresh'.duration hflag hnext).total
    · exact (balanced_of_stopped (createPlaylist_stopped (.inr (.inr horder))) hfresh'.duration n).total
  · rcases hprepared.reset with hflag | herror | hempty
    · exact (balanced_passes htables (hkept'.idle hidle hflag) hflag hnext).total
    · exact (balanced_of_stopped (createPlaylist_stopped (.inr (.inl (Nat.pos_of_ne_zero herror))))
        (hclear.resolve_left herror) n).total
    · exact (balanced_of_stopped (createPlaylist_stopped (.inl hempty)) (hkept'.empty hempty).2 n).total

section Demo

def demoArray (duration : Option String) : HashTable :=
  [(.str DEFAULT_FOLDERS, .array [folderNode "A" [trackRecord "x" "one" duration]])]

def timedOne : TRotatorCtrl := (new (Env.at 0) (demoArray (some "00:03:00")) (.maxTracks 1)).get rfl

theorem timedOne_new : new (Env.at 0) (demoArray (some "00:03:00")) (.maxTracks 1) = some timedOne :=
  (@Option.some_get _ (new (Env.at 0) (demoArray (some "00:03:00")) (.maxTracks 1)) rfl).symm

def untimedOne : TRotatorCtrl := (new (Env.at 0) (demoArray none) (.maxTracks 1)).get rfl

theorem untimedOne_new : new (Env.at 0) (demoArray none) (.maxTracks 1) = some untimedOne :=
  (@Option.some_get _ (new (Env.at 0) (demoArray none) (.maxTracks 1)) rfl).symm

theorem demo_timed {c : TRotatorCtrl} {duration : Option String}
    (hc : c.core.tables.entries = [("A".toList, ([(.long 0, .array (trackRecord "x" "one" duration))], false))])
    (hduration : ∀ s, recordDuration (trackRecord "x" "one" duration) = some s → IsHms s) : Timed c.core := by
  intro folder table hfind key data hdata
  have hmem := SortedMap.mem_entries_of_find? hfind
  rw [hc, List.mem_singleton, Prod.mk.injEq] at hmem
  obtain ⟨-, rfl⟩ := hmem
  simp only [List.mem_singleton, Prod.mk.injEq, Zval.array.injEq] at hdata
  obtain ⟨-, rfl⟩ := hdata
  exact hduration

theorem timedOne_timed : Timed timedOne.core := by
  refine @demo_timed _ (some "00:03:00") rfl fun s hs => ?_
  obtain rfl : "00:03:00".toList = s := Option.some.inj hs
  exact ⟨['0', '0'], ['0', '3'], ['0', '0'],
    by simp only [List.forall_mem_cons, List.not_mem_nil, false_imp_iff, implies_true, and_true]; decide, rfl⟩

theorem timedOne_accounts : ∀ k < 2, AccountsNext (passes (Env.at 0) timedOne k)
  | 0, _ => fun _ _ _ _ _ _ _ h => Control.noConfusion h
  | 1, _ => by
      intro ito folder toNext hf data singer title hcontrol hfind hoffers
      obtain ⟨-, rfl, -⟩ : 0 = ito ∧ "A".toList = folder ∧ true = toNext := Control.inner.inj hcontrol
      obtain rfl : THFolders.mk _ 0 false 1 = hf := Option.some.inj hfind
      obtain rfl : trackRecord "x" "one" (some "00:03:00") = data := Zval.array.inj (Option.some.inj hoffers.1)
      exact ⟨by decide, by decide⟩

theorem duration_accounted_demo :
    (passes (Env.at 0) (callRun (Env.at 0) timedOne []).ctrl 2).ctrl.timer.playlistDuration =
      total (passes (Env.at 0) (callRun (Env.at 0) timedOne []).ctrl 2).ctrl :=
  duration_accounted timedOne_new rfl timedOne_timed rfl (.inl fun _ h => by simp at h) (.inl rfl) timedOne_accounts

/-- A track without a duration is not counted. -/
theorem missing_duration_not_counted : ¬ ∀ (env : Env) (arr : HashTable) (arg : Param) (c : TRotatorCtrl)
    (cs : List Call) (n : Nat), new env arr arg = some c → c.schedule = false → Timed c.core →
    (callRun env c cs).control = .idle → Ready env c cs →
    (passes env (callRun env c cs).ctrl n).control = .idle →
    (passes env (callRun env c cs).ctrl n).ctrl.timer.playlistDuration =
      total (passes env (callRun env c cs).ctrl n).ctrl := by
  intro h
  have hduration := h (Env.at 0) (demoArray none) (.maxTracks 1) untimedOne [] 2 untimedOne_new rfl
    (@demo_timed _ none rfl fun s hs => by cases hs) rfl (.inl fun _ h => by simp at h) rfl
  exact absurd hduration (by decide)

end Demo

end RadioServices.Rotator.Duration

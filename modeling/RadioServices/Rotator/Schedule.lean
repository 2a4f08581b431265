import RadioServices.Rotator.Construction

namespace RadioServices.Rotator.Schedule

open Lib Lib.C TRotatorCtrl Machine
open TTimer hiding new

/-- The hour at which a slot ends: the next key, midnight after the last one. -/
def slotEnd (c : TRotatorCtrl) (h : Int) : Int := (c.sSchedule.upperBound h).getD DEFAULT_DAY

/-- The folder is one of the active slot, and the playlist has come to that
slot and not past it. -/
def InForce (c : TRotatorCtrl) (folder : Str) : Prop :=
  ∃ h order, c.it = some h ∧ c.sSchedule.find? h = some order ∧ folder ∈ order.values ∧
    HOUR_INTERVAL * h ≤ c.timer.playlistDuration ∧
    c.timer.playlistDuration < HOUR_INTERVAL * slotEnd c h

/-- The first call of `create_playlist`, after `n` passes of its loops. -/
def firstRun (env : Env) (c : TRotatorCtrl) (n : Nat) : Machine :=
  Machine.run env c (.createPlaylist :: List.replicate n .tick)

/-- The next pass, if it adds a track, takes it from the slot in force. -/
def FollowsClock (env : Env) (c : TRotatorCtrl) (n : Nat) : Prop :=
  ∀ a, (firstRun env c (n + 1)).ctrl.added = (firstRun env c n).ctrl.added ++ [a] →
    InForce (firstRun env c n).ctrl a.folder

/-- An object built at a fixed instant, with a schedule whose hours have begun
and tracks that carry durations. -/
structure ScheduleInput (env : Env) (c : TRotatorCtrl) : Prop where
  schedule : c.schedule = true
  instant : env.clock.intervalReading = env.clock.hourReading ∧
    env.clock.midnightReading = env.clock.hourReading
  hours : ∀ k ∈ c.sSchedule.keys, 0 ≤ k ∧ k < DEFAULT_DAY
  reached : ∃ k ∈ c.sSchedule.keys, k ≤ env.clock.getCurrentHour
  durations : ∀ folder table, c.core.tables.find? folder = some table →
    ∀ key data, (key, Zval.array data) ∈ table.1 →
      ∃ s, findDataInNode data DEFAULT_DURATION = some (.string s) ∧ ValidDuration s

def CompletesWith (c : TRotatorCtrl) (sec : Int) : Prop :=
  0 < c.maxTracks ∧ c.maxTracks ≤ c.size + 1 ∨ c.timer.hours24 ≤ c.timer.playlistDuration + sec

/-- A track of this length ends before the slot does, or with it when another
slot follows, or it is the last one. -/
def EndsInSlot (c : TRotatorCtrl) (sec : Int) : Prop :=
  ∀ h, c.it = some h →
    c.timer.playlistDuration + sec < HOUR_INTERVAL * slotEnd c h ∨
    c.timer.playlistDuration + sec = HOUR_INTERVAL * slotEnd c h ∧ (c.sSchedule.upperBound h).isSome ∨
    CompletesWith c sec

/-- The pass ends a round and calls `prepare` before the playlist is complete. -/
def callsPrepare (m : Machine) : Bool :=
  match m.control with
  | .inner ito folder toNext =>
      match m.ctrl.globalAnalize folder toNext with
      | some (true, toNext, c) =>
          !c.playlistConstructionCompleted && ((Machine.nextFolder c ito).isNone || !toNext) &&
            c.specialConditions && c.playlistSizeIncrease.1
      | _ => false
  | _ => false

structure KeepsClock (m : Machine) : Prop where
  noPrepare : callsPrepare m = false
  inSlot : ∀ ito folder toNext hf data singer title sec,
    m.control = .inner ito folder toNext → m.ctrl.hfolders.find? folder = some hf →
    Offers m.ctrl (rewindFolder hf) folder data singer title →
    m.ctrl.timer.getSeconds (recordDuration data) = some sec → EndsInSlot m.ctrl sec

structure Fixed (k : Core) : Prop where
  schedule : k.schedule = true
  hours : ∀ j ∈ k.sSchedule.keys, 0 ≤ j ∧ j < DEFAULT_DAY
  durations : ∀ folder table, k.tables.find? folder = some table →
    ∀ key data, (key, Zval.array data) ∈ table.1 →
      ∃ s, findDataInNode data DEFAULT_DURATION = some (.string s) ∧ ValidDuration s
  default : k.defaultTrackDuration = 180

/-- The remaining interval counts down to the end of the active slot. -/
structure Clocked (c : TRotatorCtrl) (h : Int) (order : Order) : Prop where
  slot : c.it = some h
  entry : c.sSchedule.find? h = some order
  folders : c.foldersOrder = order
  begun : HOUR_INTERVAL * h ≤ c.timer.playlistDuration
  ends : c.timer.playlistDuration < HOUR_INTERVAL * slotEnd c h
  remained : c.timer.remainedInterval = HOUR_INTERVAL * slotEnd c h - c.timer.playlistDuration

structure OnClock (m : Machine) (h : Int) (order : Order) : Prop where
  clocked : Clocked m.ctrl h order
  visited : ∀ ito folder toNext, m.control = .inner ito folder toNext → folder ∈ order.values

section Step

variable {c d : TRotatorCtrl} {h : Int} {order : Order}

theorem clocked_congr (hc : Clocked c h order) (hit : d.it = c.it) (hs : d.sSchedule = c.sSchedule)
    (ho : d.foldersOrder = c.foldersOrder) (ht : d.timer = c.timer) : Clocked d h order := by
  have hend : slotEnd d h = slotEnd c h := by rw [slotEnd, hs, slotEnd]
  exact ⟨hit.trans hc.slot, hs ▸ hc.entry, ho.trans hc.folders, ht ▸ hc.begun,
    by rw [ht, hend]; exact hc.ends, by rw [ht, hend]; exact hc.remained⟩

theorem recordDuration_valid {data : HashTable} {s : Str}
    (hs : findDataInNode data DEFAULT_DURATION = some (.string s)) (hv : ValidDuration s) :
    recordDuration data = some s := by
  obtain ⟨h₁, h₂, m₁, m₂, s₁, s₂, hdigit, rfl⟩ := hv
  have hne {e : Char} (he : e.isDigit = true) : e ≠ '\x00' := fun h => by rw [h] at he; simp at he
  simp only [List.mem_cons, List.not_mem_nil, or_false, forall_eq_or_imp, forall_eq] at hdigit
  obtain ⟨hh₁, hh₂, hm₁, hm₂, hs₁, hs₂⟩ := hdigit
  simp [recordDuration, hs, cstr, hne hh₁, hne hh₂, hne hm₁, hne hm₂, hne hs₁, hne hs₂]

theorem slot_bounds (hc : Fixed c.core) {k : Int} (hk : k ∈ c.sSchedule.keys) :
    0 ≤ k ∧ k < slotEnd c k ∧ slotEnd c k ≤ DEFAULT_DAY := by
  obtain ⟨hlow, hhigh⟩ := hc.hours k hk
  rw [slotEnd]
  cases hub : c.sSchedule.upperBound k with
  | none => exact ⟨hlow, hhigh, le_rfl⟩
  | some j =>
      obtain ⟨hj, hlt⟩ := SortedMap.upperBound_eq_some hub
      exact ⟨hlow, hlt, (hc.hours j hj).2.le⟩

theorem clocked_enterSlot (hc : Fixed c.core) {k : Int} (hk : k ∈ c.sSchedule.keys)
    (hD : c.timer.playlistDuration = HOUR_INTERVAL * k) :
    ∃ order, Clocked (c.enterSlot (some k)) k order := by
  obtain ⟨hlow, hlt, hhigh⟩ := slot_bounds hc hk
  obtain ⟨order, horder⟩ := SortedMap.mem_keys_iff.mp hk
  have hend : slotEnd (c.enterSlot (some k)) k = slotEnd c k := rfl
  refine ⟨order, rfl, horder, ?_, hD.symm.le, ?_, ?_⟩
  · simp [enterSlot, horder]
  · rw [hend]
    have hD' : (c.enterSlot (some k)).timer.playlistDuration = HOUR_INTERVAL * k := hD
    unfold HOUR_INTERVAL at *
    omega
  · rw [hend]
    have hremained : (c.enterSlot (some k)).timer.remainedInterval =
        i32 (HOUR_INTERVAL * (slotEnd c k - k)) := rfl
    have hD' : (c.enterSlot (some k)).timer.playlistDuration = HOUR_INTERVAL * k := hD
    rw [hremained, hD', i32_of_bounds] <;> unfold HOUR_INTERVAL DEFAULT_DAY at * <;> omega

/-- The charge of a track of `sec` seconds, already counted in the playlist,
keeps the clock when the track ends in its slot. -/
theorem clocked_chargeInterval (hc : Clocked c h order) {p e : TRotatorCtrl}
    {sd : Option Str} {sec : Int} (hpcore : Fixed p.core) (hit : p.it = c.it) (hs : p.sSchedule = c.sSchedule)
    (ho : p.foldersOrder = c.foldersOrder) (ht : p.timer = c.timer.addPlaylistDuration sec)
    (hsec : c.timer.getSeconds sd = some sec) (hbounds : 0 < sec ∧ sec < 2 ^ 31)
    (hends : c.timer.playlistDuration + sec < HOUR_INTERVAL * slotEnd c h ∨
      c.timer.playlistDuration + sec = HOUR_INTERVAL * slotEnd c h ∧ (c.sSchedule.upperBound h).isSome)
    (he : p.chargeInterval sd = some e) : ∃ k order', Clocked e k order' := by
  have hi32 : i32 sec = sec := i32_of_bounds (by omega) hbounds.2
  have hremained := hc.remained
  have hbegun := hc.begun
  have hgetSeconds : p.timer.getSeconds sd = c.timer.getSeconds sd := by rw [ht]; cases sd <;> rfl
  have hpD : p.timer.playlistDuration = c.timer.playlistDuration + sec := by
    rw [ht, TTimer.addPlaylistDuration, hi32]
  have hpr : p.timer.remainedInterval = c.timer.remainedInterval := by rw [ht]; rfl
  rcases chargeInterval_cases he with ⟨hno, -⟩ | ⟨-, sec', hsec', hcase⟩
  · exact absurd (hno.symm.trans hpcore.schedule) (by simp)
  · obtain rfl : sec = sec' := Option.some.inj (hsec.symm.trans (hgetSeconds.symm.trans hsec'))
    rw [hi32, hpr, hremained] at hcase
    have hend : slotEnd p h = slotEnd c h := by rw [slotEnd, hs, slotEnd]
    rcases hcase with ⟨hgt, rfl⟩ | ⟨hle, rfl⟩
    · refine ⟨h, order, hit.trans hc.slot, hs ▸ hc.entry, ho.trans hc.folders, ?_, ?_, ?_⟩
      · simp only [TTimer.subRemainedInterval, hpD]
        omega
      · show p.timer.playlistDuration < HOUR_INTERVAL * slotEnd p h
        rw [hpD, hend]
        omega
      · show p.timer.remainedInterval - i32 sec = HOUR_INTERVAL * slotEnd p h - p.timer.playlistDuration
        rw [hpD, hend, hpr, hi32, hremained]
        omega
    · have hnext : (c.sSchedule.upperBound h).isSome ∧
          c.timer.playlistDuration + sec = HOUR_INTERVAL * slotEnd c h := by
        rcases hends with hlt | ⟨heq, hnext⟩
        · omega
        · exact ⟨hnext, heq⟩
      obtain ⟨k, hk⟩ := Option.isSome_iff_exists.mp hnext.1
      have hslotEnd : slotEnd c h = k := by rw [slotEnd, hk, Option.getD_some]
      have hnextSlot : p.nextSlot = some k := by rw [nextSlot, hit, hc.slot, hs]; exact hk
      have hkeys : k ∈ p.sSchedule.keys := hs ▸ (SortedMap.upperBound_eq_some hk).1
      rw [hnextSlot]
      obtain ⟨order', hclocked⟩ := clocked_enterSlot (c := { p with
          timer := p.timer.subRemainedInterval sec }) hpcore hkeys (by
        rw [← hslotEnd, ← hnext.2]; exact hpD)
      exact ⟨k, order', clocked_congr hclocked rfl rfl rfl rfl⟩

theorem clocked_addFromFolder (hfixed : Fixed c.core) (hc : Clocked c h order) {hf : THFolders}
    {folder singer title s : Str} {data : HashTable} {sec : Int}
    (hvalid : validRecord data = some (singer, title)) (hduration : recordDuration data = some s)
    (hsec : c.timer.getSeconds (some s) = some sec) (hbounds : 0 < sec ∧ sec < 2 ^ 31)
    (hends : EndsInSlot c sec) (hadd : c.addFromFolder hf folder singer title data = some d) :
    d.playlistConstructionCompleted = true ∨ ∃ k order', Clocked d k order' := by
  obtain ⟨t, e, ht, he, rfl⟩ := addFromFolder_cases hvalid hadd
  rw [hduration] at ht he
  obtain rfl : t = c.timer.addPlaylistDuration sec := by
    simpa [TTimer.appendPlaylistDuration, hsec] using ht.symm
  have hfinish (hend : c.timer.playlistDuration + sec < HOUR_INTERVAL * slotEnd c h ∨
      c.timer.playlistDuration + sec = HOUR_INTERVAL * slotEnd c h ∧ (c.sSchedule.upperBound h).isSome) :
      ∃ k order', Clocked { e with
        added := e.added ++ [⟨folder, hf.service, singer, title, data⟩] } k order' := by
    obtain ⟨k, order', hclocked⟩ := clocked_chargeInterval hc
      (p := c.recorded data ⟨singer, title, hf.statistics + 1⟩ (c.timer.addPlaylistDuration sec))
      ⟨hfixed.schedule, hfixed.hours, hfixed.durations, hfixed.default⟩ rfl rfl rfl rfl hsec hbounds hend he
    exact ⟨k, order', clocked_congr hclocked rfl rfl rfl rfl⟩
  rcases hends h hc.slot with hin | hat | hcompletes
  · exact .inr (hfinish (.inl hin))
  · exact .inr (hfinish (.inr hat))
  · refine .inl ((completed_chargeInterval he).trans ?_)
    have hi32 : i32 sec = sec := i32_of_bounds (by omega) hbounds.2
    have hschedule : c.schedule = true := hfixed.schedule
    simp only [playlistConstructionCompleted, recorded, hschedule, TTimer.is24hoursCompleted, size,
      TTimer.addPlaylistDuration, hi32, List.length_append, List.length_singleton, Bool.true_or, Bool.true_and,
      Bool.or_eq_true, Bool.and_eq_true, decide_eq_true_eq, Int.natCast_add, Int.natCast_one]
    exact hcompletes

theorem clocked_tried (hfixed : Fixed c.core) (hc : Clocked c h order) {folder : Str} {hf : THFolders}
    {flNext : Bool} (hfind : c.hfolders.find? folder = some hf)
    (hends : ∀ data singer title sec, Offers c (rewindFolder hf) folder data singer title →
      c.timer.getSeconds (recordDuration data) = some sec → EndsInSlot c sec)
    (htried : Tried c folder (rewindFolder hf) flNext d) :
    (flNext = true ∧ d.playlistConstructionCompleted = true) ∨
      ∃ k order', Clocked d k order' ∧ (flNext = false → order' = order) := by
  cases htried with
  | missing => exact .inr ⟨h, order, clocked_congr hc rfl rfl rfl rfl, fun _ => rfl⟩
  | skipped => exact .inr ⟨h, order, clocked_congr hc rfl rfl rfl rfl, fun _ => rfl⟩
  | added data singer title e hoffers hadd =>
      have htable := table_of_find? hfind
      have hvalid := hoffers.2.1
      obtain ⟨key, hkey⟩ := mem_of_zendHashIndexFind hoffers.1
      obtain ⟨s, hs, hv⟩ := hfixed.durations folder _ htable key data hkey
      have hduration := recordDuration_valid hs hv
      obtain ⟨sec, hsec, hbounds⟩ := getSeconds_valid (t := c.timer) hv hfixed.default
      have hend := hends data singer title sec hoffers (by rw [hduration]; exact hsec)
      have hset : Clocked (c.setFolder folder (rewindFolder hf)) h order := clocked_congr hc rfl rfl rfl rfl
      have hfixedSet : Fixed (c.setFolder folder (rewindFolder hf)).core := by
        rw [core_setFolder htable]; exact hfixed
      rcases clocked_addFromFolder hfixedSet hset hvalid hduration hsec hbounds hend hadd with
        hdone | ⟨k, order', hclocked⟩
      · exact .inl ⟨rfl, hdone⟩
      · exact .inr ⟨k, order', clocked_congr hclocked rfl rfl rfl rfl, fun hno => by simp at hno⟩

end Step

theorem onClock_endVisit {env : Env} {m : Machine} {c : TRotatorCtrl} {ito k : Int} {folder : Str}
    {toNext toNext' : Bool} {order : Order} (hk : KeepsClock m)
    (hcontrol : m.control = .inner ito folder toNext)
    (hana : m.ctrl.globalAnalize folder toNext = some (true, toNext', c)) (hc : Clocked c k order) :
    Stopped (Machine.endVisit env c ito toNext') ∨
      ∃ k order, OnClock (Machine.endVisit env c ito toNext') k order := by
  have hprepare := hk.noPrepare
  simp only [callsPrepare, hcontrol, hana] at hprepare
  rcases Machine.endVisit_cases env c ito toNext' with
    hstop | ⟨hcompleted, ⟨j, -, -, heq⟩ | ⟨hlast, heq⟩⟩
  · exact .inl hstop
  · rw [heq]
    exact .inr ⟨k, order, hc, by simp⟩
  · rw [heq]
    left
    apply endRound_stopped
    rintro ⟨hspecial, hincrease⟩
    rcases hlast with hnone | hflag
    · simp [hcompleted, hspecial, hincrease, hnone] at hprepare
    · simp [hcompleted, hspecial, hincrease, hflag] at hprepare

theorem onClock_tick {env : Env} {m : Machine} {h : Int} {order : Order} (hfixed : Fixed m.ctrl.core)
    (hm : OnClock m h order) (hk : KeepsClock m) :
    Stopped (Machine.tick env m) ∨ ∃ k order', OnClock (Machine.tick env m) k order' := by
  have htried {ito : Int} {folder : Str} {toNext flNext : Bool} {hf : THFolders} {c : TRotatorCtrl}
      (hcontrol : m.control = .inner ito folder toNext) (hfind : m.ctrl.hfolders.find? folder = some hf)
      (htried : Tried m.ctrl folder (rewindFolder hf) flNext c) :=
    clocked_tried hfixed hm.clocked hfind
      (fun data singer title sec => hk.inSlot ito folder toNext hf data singer title sec hcontrol hfind) htried
  have hpass := Machine.tick_pass env m
  generalize Machine.tick env m = t at hpass ⊢
  cases hpass with
  | stopped hstop => exact .inl hstop
  | undefined => exact .inl (.inr rfl)
  | begins _ _ _ _ _ hfolder =>
      refine .inr ⟨h, order, clocked_congr hm.clocked rfl rfl rfl rfl, ?_⟩
      intro ito' folder' toNext' heq
      simp only [Control.inner.injEq] at heq
      obtain ⟨-, rfl, -⟩ := heq
      have hmem := SortedMap.mem_entries_of_find? hfolder
      rw [hm.clocked.folders] at hmem
      exact List.mem_map_of_mem hmem
  | stays ito folder toNext _ _ hcontrol _ hfind h =>
      rcases htried hcontrol hfind h with ⟨hno, -⟩ | ⟨k, order', hc, horder⟩
      · cases hno
      · obtain rfl := horder rfl
        refine .inr ⟨k, order', hc, fun ito' folder' toNext'' heq => ?_⟩
        simp only [Control.inner.injEq] at heq
        obtain ⟨-, rfl, -⟩ := heq
        exact hm.visited ito folder toNext hcontrol
  | leaves ito _ toNext hf c hcontrol hana hfind h =>
      rcases htried hcontrol hfind h with ⟨-, hcompleted⟩ | ⟨k, order', hc, -⟩
      · rcases Machine.endVisit_cases env c ito (m.ctrl.endOfFolder hf toNext) with hstop | ⟨hno, -⟩
        · exact .inl hstop
        · rw [hcompleted] at hno
          cases hno
      · exact onClock_endVisit hk hcontrol hana hc

section Construction

theorem slotOfHour_split (hour : Int) (l : List Int) (m : Int) :
    ∃ before after, l = before ++ after ∧ (∀ k ∈ before, k ≤ hour) ∧
      (∀ k, after.head? = some k → hour < k) ∧ slotOfHour hour l m = (before.getLastD m, after.head?) := by
  induction l generalizing m with
  | nil => exact ⟨[], [], rfl, by simp, by simp, rfl⟩
  | cons k l ih =>
      by_cases hlt : hour < k
      · exact ⟨[], k :: l, rfl, by simp, by simp [hlt], by simp [slotOfHour, hlt]⟩
      · obtain ⟨before, after, rfl, hbefore, hafter, heq⟩ := ih k
        refine ⟨k :: before, after, rfl, ?_, hafter, ?_⟩
        · intro j hj
          rcases List.mem_cons.mp hj with rfl | hj
          · exact not_lt.mp hlt
          · exact hbefore j hj
        · rw [slotOfHour, if_neg hlt, heq, List.getLastD_cons]

theorem slotOfHour_reached {ν : Type*} {m : SortedMap Int ν} {hour : Int} (h : ∃ k ∈ m.keys, k ≤ hour) :
    ∃ k ∈ m.keys, k ≤ hour ∧ slotOfHour hour m.keys 0 = (k, m.upperBound k) ∧
      ∀ j, m.upperBound k = some j → hour < j := by
  obtain ⟨before, after, hkeys, hbefore, hafter, heq⟩ := slotOfHour_split hour m.keys 0
  have hsorted : (before ++ after).Pairwise (· < ·) := hkeys ▸ List.pairwise_map.mpr m.sorted
  obtain ⟨-, hsortedAfter, hcross⟩ := List.pairwise_append.mp hsorted
  rcases List.eq_nil_or_concat before with rfl | ⟨older, k, rfl⟩
  · obtain ⟨j, hj, hle⟩ := h
    rw [hkeys, List.nil_append] at hj
    cases after with
    | nil => simp at hj
    | cons first rest =>
        have hfirst := hafter first rfl
        rcases List.mem_cons.mp hj with rfl | hj
        · omega
        · have hlt := List.rel_of_pairwise_cons hsortedAfter hj
          omega
  · simp only [List.concat_eq_append] at hkeys hbefore heq hsorted hcross
    have hbound : m.upperBound k = after.head? := by
      have hold : (older ++ [k]).find? (fun a => decide (k < a)) = none := by
        rw [List.find?_eq_none]
        intro j hj
        rcases List.mem_append.mp hj with hj | hj
        · have hlt := (List.pairwise_append.mp (List.pairwise_append.mp hsorted).1).2.2 j hj k (by simp)
          simpa using hlt.le
        · simp [List.mem_singleton.mp hj]
      rw [SortedMap.upperBound, hkeys, List.find?_append, hold, Option.none_or]
      cases after with
      | nil => rfl
      | cons first rest =>
          have hlt : k < first := hcross k (by simp) first List.mem_cons_self
          simp [hlt]
    refine ⟨k, by simp [hkeys], hbefore k (by simp), ?_, ?_⟩
    · rw [heq, hbound]; simp
    · rw [hbound]; exact hafter

theorem slot_of_clock {clock : Clock} {m : Schedule} (hhours : ∀ k ∈ m.keys, 0 ≤ k ∧ k < DEFAULT_DAY)
    (hreached : ∃ k ∈ m.keys, k ≤ clock.getCurrentHour) :
    ∃ k ∈ m.keys, slotOfHour clock.getCurrentHour m.keys 0 = (k, m.upperBound k) ∧
      HOUR_INTERVAL * k ≤ clock.hourReading.val ∧
      (clock.hourReading.val : Int) < HOUR_INTERVAL * (m.upperBound k).getD DEFAULT_DAY ∧
      (m.upperBound k).getD DEFAULT_DAY ≤ DEFAULT_DAY := by
  obtain ⟨k, hk, hle, hslot, hnext⟩ := slotOfHour_reached hreached
  have hnow := clock.hourReading.isLt
  have hhour : clock.getCurrentHour = (clock.hourReading.val : Int) / 3600 := by simp [Clock.getCurrentHour]
  refine ⟨k, hk, hslot, ?_, ?_⟩
  · rw [HOUR_INTERVAL]
    omega
  · cases hub : m.upperBound k with
    | none =>
        simp only [Option.getD_none, HOUR_INTERVAL, DEFAULT_DAY]
        omega
    | some j =>
        have hj := hhours j (SortedMap.upperBound_eq_some hub).1
        have hlt := hnext j hub
        simp only [Option.getD_some, HOUR_INTERVAL, DEFAULT_DAY] at hj ⊢
        omega

/-- With the clock read at one instant inside the slot from `k` to `e`, the
timer starts at that instant and has the rest of the slot before it. -/
theorem definePlaylistDuration_slot {t : TTimer} {clock : Clock} {k e : Int} (hD : t.playlistDuration = 0)
    (hinterval : clock.intervalReading = clock.hourReading)
    (hmidnight : clock.midnightReading = clock.hourReading) (hk : 0 ≤ k)
    (hlow : HOUR_INTERVAL * k ≤ clock.hourReading.val) (hhigh : (clock.hourReading.val : Int) < HOUR_INTERVAL * e)
    (he : e ≤ DEFAULT_DAY) :
    ((t.setInterval (e - k)).definePlaylistDuration clock k).playlistDuration = clock.hourReading.val ∧
      ((t.setInterval (e - k)).definePlaylistDuration clock k).remainedInterval =
        HOUR_INTERVAL * e - clock.hourReading.val := by
  have hnow := clock.hourReading.isLt
  simp only [HOUR_INTERVAL, DEFAULT_DAY] at hlow hhigh he
  have htoday : i32 (secondsBetweenTimes clock.midnightReading 0) = clock.hourReading.val := by
    rw [hmidnight, secondsBetweenTimes, i32_of_bounds] <;> omega
  have hspent : i32 (secondsBetweenTimes clock.intervalReading k) =
      clock.hourReading.val - HOUR_INTERVAL * k := by
    rw [hinterval, secondsBetweenTimes, HOUR_INTERVAL, i32_of_bounds] <;> omega
  have hlength : i32 (HOUR_INTERVAL * (e - k)) = HOUR_INTERVAL * (e - k) := by
    rw [HOUR_INTERVAL, i32_of_bounds] <;> omega
  simp only [definePlaylistDuration, setInterval, subRemainedInterval, addPlaylistDuration, hD, htoday,
    hspent, hlength]
  rw [HOUR_INTERVAL]
  constructor <;> omega

theorem clocked_startSchedule {env : Env} {c : TRotatorCtrl} {m : Schedule}
    (hD : c.timer.playlistDuration = 0)
    (hinstant : env.clock.intervalReading = env.clock.hourReading ∧
      env.clock.midnightReading = env.clock.hourReading)
    (hhours : ∀ k ∈ m.keys, 0 ≤ k ∧ k < DEFAULT_DAY)
    (hreached : ∃ k ∈ m.keys, k ≤ env.clock.getCurrentHour) :
    ∃ h order, Clocked (c.startSchedule env m) h order := by
  obtain ⟨k, hk, hslot, hlow, hhigh, hday⟩ := slot_of_clock hhours hreached
  obtain ⟨order, horder⟩ := SortedMap.mem_keys_iff.mp hk
  have hstart : c.startSchedule env m = { c with
      sSchedule := m
      schedule := 0 < m.size
      it := some k
      timer := (c.timer.setInterval (slotLength (m.upperBound k) k)).definePlaylistDuration env.clock k
      foldersOrder := order
      order := 0 < order.size } := by
    simp only [startSchedule, hslot, horder]
  have hend : slotEnd (c.startSchedule env m) k = (m.upperBound k).getD DEFAULT_DAY := by
    rw [hstart, slotEnd]
  obtain ⟨hplaylist, hremained⟩ := definePlaylistDuration_slot (t := c.timer) hD hinstant.1 hinstant.2
    (hhours k hk).1 hlow hhigh hday
  have htimer : (c.startSchedule env m).timer =
      (c.timer.setInterval ((m.upperBound k).getD DEFAULT_DAY - k)).definePlaylistDuration env.clock k := by
    rw [hstart, slotLength]
  rw [← htimer] at hplaylist hremained
  refine ⟨k, order, by rw [hstart], by rw [hstart]; exact horder, by rw [hstart], ?_, ?_, ?_⟩
  · rw [hplaylist]
    exact hlow
  · rw [hplaylist, hend]
    exact hhigh
  · rw [hremained, hplaylist, hend]

theorem searchSchedule_eq {env : Env} {c : TRotatorCtrl} {arr : HashTable}
    (h : (c.searchSchedule env arr).schedule = true) :
    ∃ m, c.searchSchedule env arr = c.startSchedule env m := by
  rw [searchSchedule] at h ⊢
  cases hnode : getNodePtr arr DEFAULT_SCHEDULE with
  | none => simp [hnode] at h
  | some ht =>
      by_cases hsize : arraySize ht = 0
      · simp [hnode, hsize] at h
      · exact ⟨ht.foldl c.searchScheduleEntry c.sSchedule, if_neg hsize⟩

theorem orderFolders_eq {env : Env} {c : TRotatorCtrl} {arr : HashTable}
    (h : (c.orderFolders env arr).schedule = true) :
    ∃ m, c.orderFolders env arr = c.startSchedule env m := by
  unfold orderFolders at h ⊢
  simp only at h ⊢
  split at h
  · rename_i hyes
    rw [if_pos hyes]
    exact searchSchedule_eq hyes
  · rename_i hno
    have hcore := congrArg Core.schedule (core_searchOrder env (c.searchSchedule env arr) arr)
    exact absurd (hcore.symm.trans h) hno

theorem startSchedule_sSchedule (env : Env) (c : TRotatorCtrl) (m : Schedule) :
    (c.startSchedule env m).sSchedule = m := by
  rw [startSchedule]
  simp only
  split <;> rfl

end Construction

theorem new_clocked {env : Env} {arr : HashTable} {arg : Param} {c : TRotatorCtrl}
    (hnew : new env arr arg = some c) (hin : ScheduleInput env c) :
    Fixed c.core ∧ ∃ h order, Clocked c h order := by
  obtain ⟨n, g, s, t, ht, h⟩ := new_init hnew
  obtain ⟨hD, hdefault⟩ := new_timer ht
  rcases onInit_stages h with ⟨-, rfl⟩ | ⟨-, ⟨-, rfl⟩ | ⟨-, ht, e, history, hfold, -, rfl⟩⟩
  · exact absurd hin.schedule Bool.false_ne_true
  · exact absurd hin.schedule Bool.false_ne_true
  · have htimer : e.timer = t := congrArg TRotatorCtrl.timer (foldlM_searchFolder_frame hfold)
    obtain ⟨m, hm⟩ := orderFolders_eq hin.schedule
    have hmap := startSchedule_sSchedule env e m
    have hstart : (e.orderFolders env (init env arr n g t).array).sSchedule = m := by rw [hm, hmap]
    obtain ⟨k, order, hclocked⟩ := clocked_startSchedule (by rw [htimer]; exact hD)
      hin.instant (hstart ▸ hin.hours) (hstart ▸ hin.reached)
    have hdefault' : (e.orderFolders env (init env arr n g t).array).timer.defaultTrackDuration = 180 := by
      rw [hm, ← hdefault, ← htimer, startSchedule]
      simp only
      split <;> rfl
    rw [← hm] at hclocked
    exact ⟨⟨hin.schedule, hin.hours, hin.durations, hdefault'⟩, k, order,
      clocked_congr hclocked rfl rfl rfl rfl⟩

section Run

theorem firstRun_succ (env : Env) (c : TRotatorCtrl) (n : Nat) :
    firstRun env c (n + 1) = Machine.tick env (firstRun env c n) := by
  rw [firstRun, Machine.run]
  rw [List.replicate_succ', ← List.cons_append, Runs.run_append]
  rfl

theorem onClock_createPlaylist {c : TRotatorCtrl} {h : Int} {order : Order} (hc : Clocked c h order) :
    Stopped (Machine.createPlaylist c) ∨ OnClock (Machine.createPlaylist c) h order := by
  have hstart := Machine.createPlaylist_cases c
  generalize Machine.createPlaylist c = m at hstart ⊢
  cases hstart with
  | refused | nothing => exact .inl (.inl rfl)
  | undefined => exact .inl (.inr rfl)
  | first => exact .inr ⟨clocked_congr hc rfl rfl rfl rfl, by simp⟩

theorem fixed_firstRun {env : Env} {c : TRotatorCtrl} (hc : Fixed c.core) (n : Nat) :
    Fixed (firstRun env c n).ctrl.core :=
  ⟨(Machine.run_frame Core.schedule (fun _ _ _ => rfl) env c _).trans hc.schedule,
    (Machine.run_frame Core.sSchedule (fun _ _ _ => rfl) env c _).symm ▸ hc.hours,
    (Machine.run_frame Core.tables (fun _ _ _ => rfl) env c _).symm ▸ hc.durations,
    (Machine.run_frame Core.defaultTrackDuration (fun _ _ _ => rfl) env c _).trans hc.default⟩

theorem onClock_firstRun {env : Env} {c : TRotatorCtrl} (hfixed : Fixed c.core) {h : Int} {order : Order}
    (hc : Clocked c h order) (n : Nat) (hk : ∀ i < n, KeepsClock (firstRun env c i)) :
    Stopped (firstRun env c n) ∨ ∃ k order', OnClock (firstRun env c n) k order' := by
  induction n with
  | zero => exact (onClock_createPlaylist hc).imp id fun hm => ⟨h, order, hm⟩
  | succ n ih =>
      rw [firstRun_succ]
      rcases ih fun i hi => hk i (Nat.lt_succ_of_lt hi) with hstop | ⟨k, order', hm⟩
      · exact .inl (by rw [tick_of_stopped env hstop]; exact hstop)
      · exact onClock_tick (fixed_firstRun hfixed n) hm (hk n (Nat.lt_succ_self n))

/-- While tracks end in their slots and no `prepare` comes between, every track
is taken from the slot in force when it starts. -/
theorem tracks_follow_clock {env : Env} {arr : HashTable} {arg : Param} {c : TRotatorCtrl}
    (hnew : new env arr arg = some c) (hin : ScheduleInput env c) (n : Nat)
    (hk : ∀ i < n, KeepsClock (firstRun env c i)) : FollowsClock env c n := by
  obtain ⟨hfixed, h, order, hc⟩ := new_clocked hnew hin
  intro a hadded
  rw [firstRun_succ] at hadded
  rcases Machine.step_core env (firstRun env c n) .tick with hsame | ⟨b, x, hadds, hcore⟩
  · have hlist : (firstRun env c n).ctrl.added = (firstRun env c n).ctrl.added ++ [a] :=
      (congrArg Core.added hsame).symm.trans hadded
    simp at hlist
  · have hlist : (firstRun env c n).ctrl.added ++ [b] = (firstRun env c n).ctrl.added ++ [a] :=
      (congrArg Core.added hcore).symm.trans hadded
    obtain rfl : b = a := by simpa using hlist
    obtain ⟨ito, folder, toNext, hf, data, hcontrol, -, -, rfl⟩ := hadds
    rcases onClock_firstRun hfixed hc n hk with hstop | ⟨k, order', hm⟩
    · rcases hstop with hstop | hstop <;> simp [hstop] at hcontrol
    · exact ⟨k, order', hm.clocked.slot, hm.clocked.entry, hm.visited ito folder toNext hcontrol,
        hm.clocked.begun, hm.clocked.ends⟩

end Run

section Demo

def demoArray (duration : String) : HashTable :=
  [(.str DEFAULT_FOLDERS, .array [folderNode "A"
      [trackRecord "x" "one" (some duration), trackRecord "y" "two" (some duration)]]),
    (.str DEFAULT_SCHEDULE, .array ([0, 1, 2].map fun h =>
      (.long h, .array [(.long 0, .string "A".toList)])))]

def demo (duration : String) (h : (new (Env.at 0) (demoArray duration) .none).isSome) : TRotatorCtrl :=
  (new (Env.at 0) (demoArray duration) .none).get h

def half : TRotatorCtrl := demo "00:30:00" rfl

def double : TRotatorCtrl := demo "02:00:00" rfl

theorem demo_input {c : TRotatorCtrl} {duration : String} (hv : ValidDuration duration.toList)
    (hc : c.schedule = true ∧ c.sSchedule.keys = [0, 1, 2] ∧ c.core.tables.entries = [("A".toList,
      ([(.long 0, .array (trackRecord "x" "one" (some duration))),
        (.long 1, .array (trackRecord "y" "two" (some duration)))], false))]) :
    ScheduleInput (Env.at 0) c where
  schedule := hc.1
  instant := ⟨rfl, rfl⟩
  hours := by rw [hc.2.1]; decide
  reached := by rw [hc.2.1]; exact ⟨0, by decide, by decide⟩
  durations := by
    intro folder table hfind key data hdata
    have hmem := SortedMap.mem_entries_of_find? hfind
    rw [hc.2.2, List.mem_singleton, Prod.mk.injEq] at hmem
    obtain ⟨-, rfl⟩ := hmem
    simp only [List.mem_cons, List.not_mem_nil, or_false, Prod.mk.injEq, Zval.array.injEq] at hdata
    rcases hdata with ⟨-, rfl⟩ | ⟨-, rfl⟩
    · exact ⟨duration.toList, rfl, hv⟩
    · exact ⟨duration.toList, rfl, hv⟩

theorem half_new : new (Env.at 0) (demoArray "00:30:00") .none = some half :=
  (@Option.some_get _ (new (Env.at 0) (demoArray "00:30:00") .none) rfl).symm

theorem double_new : new (Env.at 0) (demoArray "02:00:00") .none = some double :=
  (@Option.some_get _ (new (Env.at 0) (demoArray "02:00:00") .none) rfl).symm

theorem half_input : ScheduleInput (Env.at 0) half :=
  demo_input ⟨'0', '0', '3', '0', '0', '0', List.all_eq_true.mp rfl, rfl⟩ ⟨rfl, rfl, rfl⟩

theorem double_input : ScheduleInput (Env.at 0) double :=
  demo_input ⟨'0', '2', '0', '0', '0', '0', List.all_eq_true.mp rfl, rfl⟩ ⟨rfl, rfl, rfl⟩

theorem half_keepsClock : ∀ i < 3, KeepsClock (firstRun (Env.at 0) half i)
  | 0, _ => ⟨rfl, fun _ _ _ _ _ _ _ _ h => Control.noConfusion h⟩
  | 1, _ => by
      refine ⟨rfl, fun ito folder toNext hf data singer title sec hcontrol hfind hoffers hsec h hit => ?_⟩
      obtain ⟨-, rfl, -⟩ : 0 = ito ∧ "A".toList = folder ∧ true = toNext := Control.inner.inj hcontrol
      obtain rfl : THFolders.mk _ 0 false 1 = hf := Option.some.inj hfind
      obtain rfl : trackRecord "x" "one" (some "00:30:00") = data := Zval.array.inj (Option.some.inj hoffers.1)
      obtain rfl : (1800 : Int) = sec := Option.some.inj hsec
      obtain rfl : (0 : Int) = h := Option.some.inj hit
      exact .inl (by decide)
  | 2, _ => ⟨rfl, fun _ _ _ _ _ _ _ _ h => Control.noConfusion h⟩

theorem tracks_follow_clock_demo : FollowsClock (Env.at 0) half 3 :=
  tracks_follow_clock half_new half_input 3 half_keepsClock

/-- A track of two hours leads into the slot of hour 1, when hour 2 has come. -/
theorem overrun_leaves_clock : ¬ ∀ (env : Env) (arr : HashTable) (arg : Param) (c : TRotatorCtrl),
    new env arr arg = some c → ScheduleInput env c → ∀ n, FollowsClock env c n := by
  intro h
  have hclock := h (Env.at 0) (demoArray "02:00:00") .none double double_new double_input 3
  obtain ⟨k, order, hit, -, -, -, hend⟩ := hclock
    ⟨"A".toList, false, "y".toList, "two".toList, trackRecord "y" "two" (some "02:00:00")⟩ rfl
  obtain rfl : (1 : Int) = k := Option.some.inj hit
  exact absurd hend (by decide)

end Demo

end RadioServices.Rotator.Schedule

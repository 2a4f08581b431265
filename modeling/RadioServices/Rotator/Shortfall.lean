import RadioServices.Rotator.Stock

namespace RadioServices.Rotator.Shortfall

open Lib Lib.C TRotatorCtrl Machine Termination FolderOrder Stock

/-- The playlist has all its tracks, or an error is set. -/
def Reported (N : Int) (c : TRotatorCtrl) : Prop := c.size = N ∨ c.error ≠ EMPTY_ERROR

/-- The greater one of the common limits of the rules. -/
def greaterLimit (c : TRotatorCtrl) : Int := max c.sRules.singerLimit c.sRules.trackLimit

/-- How a call ends, beside the loops without a limit: with all its tracks, or short of them in the same state. -/
inductive Ended (N : Int) (m u : Machine) : Prop
  | full (hsize : m.ctrl.size = N) (hu : N ≤ u.ctrl.size)
  | short (hlt : m.ctrl.size < N) (hu : u = withoutLimit m)
      (herror : m.ctrl.error ≠ EMPTY_ERROR ↔ m.ctrl.size ≤ greaterLimit m.ctrl)

section Visit

variable {env : Env} {N : Int} {c d : TRotatorCtrl} {m : Machine}

/-- An object that can fill a playlist of `N` tracks, as far as its order goes. -/
structure Limited (env : Env) (N : Int) (c : TRotatorCtrl) : Prop where
  array : arraySize c.array ≠ 0
  special : c.specialConditions = true
  tracks : c.maxTracks = N
  duration : c.generalDuration = none
  order : 0 < c.foldersOrder.size
  steady : Steady env c

theorem limited_congr (hc : Limited env N c) (hd : Steady env d) (hview : orderView d = orderView c)
    (h : (d.array, d.specialConditions, d.maxTracks, d.generalDuration) =
      (c.array, c.specialConditions, c.maxTracks, c.generalDuration)) : Limited env N d := by
  simp only [Prod.mk.injEq] at h
  obtain ⟨harray, hspecial, htracks, hduration⟩ := h
  have horder : d.foldersOrder = c.foldersOrder := congrArg Prod.fst hview
  exact ⟨harray ▸ hc.array, hspecial.trans hc.special, htracks.trans hc.tracks, hduration.trans hc.duration,
    horder ▸ hc.order, hd⟩

theorem limited_of_core (hc : Limited env N c) (hview : orderView d = orderView c) (hcore : d.core = c.core) :
    Limited env N d :=
  limited_congr hc (steady_of_core hc.steady hview hcore) hview
    (congrArg (fun k : Core => (k.array, k.specialConditions, k.maxTracks, k.generalDuration)) hcore)

theorem limited_tried {folder : Str} {hf : THFolders} {flNext : Bool} (hc : Limited env N c)
    (hfind : c.hfolders.find? folder = some hf) (h : Tried c folder (rewindFolder hf) flNext d) : Limited env N d := by
  refine limited_congr hc (steady_tried hc.steady hfind h) (orderView_tried hc.steady.schedule h) ?_
  rcases h.core (table_of_find? hfind) with hcore | ⟨data, singer, title, -, hcore⟩
  · exact congrArg (fun k : Core => (k.array, k.specialConditions, k.maxTracks, k.generalDuration)) hcore
  · exact congrArg (fun k : Core => (k.array, k.specialConditions, k.maxTracks, k.generalDuration)) hcore

theorem error_tried {folder : Str} {hf : THFolders} {flNext : Bool} (h : Tried c folder hf flNext d) :
    d.error = c.error := by
  rcases h.tally with heq | ⟨-, data, singer, title, t, -, -, heq⟩
  · exact congrArg Tally.error heq
  · exact congrArg Tally.error heq

theorem error_prepare (herror : c.error = EMPTY_ERROR) (harray : arraySize c.array ≠ 0) :
    (c.prepare env).2.error = EMPTY_ERROR := by
  have hprepare := prepare_cases env c
  generalize c.prepare env = p at hprepare ⊢
  cases hprepare with
  | refused h => exact absurd herror h
  | noInput _ h => exact absurd h harray
  | reset => rfl
  | ready => exact (congrArg Tally.error (tally_prepareOrder env c)).trans herror

theorem flags_ne_empty {error : Nat} {a b : Prop} [Decidable a] [Decidable b] (herror : error = EMPTY_ERROR) :
    (if b then (if a then EXECUTOR_ERROR else error) ||| TRACK_ERROR else if a then EXECUTOR_ERROR else error) ≠
      EMPTY_ERROR ↔ a ∨ b := by
  subst herror
  by_cases ha : a <;> by_cases hb : b <;> simp [ha, hb, EMPTY_ERROR, EXECUTOR_ERROR, TRACK_ERROR]

/-- The round that ends a call sets an error unless the playlist is longer than both limits. -/
theorem playlistSizeIncrease_error {grows : Bool} (herror : c.error = EMPTY_ERROR)
    (h : c.playlistSizeIncrease = (grows, d)) :
    grows = true ∧ d.error = EMPTY_ERROR ∨
      grows = false ∧ (d.error ≠ EMPTY_ERROR ↔ c.size ≤ greaterLimit c) := by
  rw [playlistSizeIncrease] at h
  split at h
  · simp only [Prod.mk.injEq] at h
    obtain ⟨rfl, rfl⟩ := h
    exact .inl ⟨rfl, herror⟩
  · simp only at h
    split at h
    · simp only [Prod.mk.injEq] at h
      obtain ⟨rfl, rfl⟩ := h
      refine .inr ⟨rfl, ?_⟩
      rw [greaterLimit, le_max_iff]
      exact flags_ne_empty herror
    · simp only [Prod.mk.injEq] at h
      obtain ⟨rfl, rfl⟩ := h
      exact .inl ⟨rfl, herror⟩

theorem completed_iff (hc : Limited env N c) (hN : 0 < N) : c.playlistConstructionCompleted = true ↔ N ≤ c.size := by
  simp [playlistConstructionCompleted, hc.tracks, hc.steady.schedule, hc.duration, hN]

/-- The end of a visit goes on as it does without a limit, or it ends the call. -/
theorem endVisit_ends (hc : Limited env N c) (hN : 0 < N) (herror : c.error = EMPTY_ERROR) (hsize : c.size ≤ N)
    (ito : Int) (toNext : Bool) :
    (endVisit env c ito toNext).ctrl.error = EMPTY_ERROR ∧ ¬ Stopped (endVisit env c ito toNext) ∧
        endVisit env (unlimited c) ito toNext = withoutLimit (endVisit env c ito toNext) ∨
      (endVisit env c ito toNext).control = .idle ∧
        Ended N (endVisit env c ito toNext) (endVisit env (unlimited c) ito toNext) := by
  have hsame := endVisit_unlimited hc.steady.schedule hc.duration env ito toNext
  have hkept : (endVisit env (unlimited c) ito toNext).ctrl.size = c.size := by
    rw [size, playList_endVisit]
    rfl
  have hend := endVisit_end env c ito toNext
  generalize endVisit env c ito toNext = m at hend hsame ⊢
  cases hend with
  | completed hcompleted =>
      have hfull : c.size = N := le_antisymm hsize ((completed_iff hc hN).mp hcompleted)
      exact .inr ⟨rfl, .full hfull (by rw [hkept, hfull])⟩
  | next k hnot => exact .inl ⟨herror, by simp [Stopped], hsame hnot⟩
  | round _ hnot _ h _ =>
      have hlt : c.size < N := by
        by_contra hle
        have hcompleted := (completed_iff hc hN).mpr (not_lt.mp hle)
        simp [hnot] at hcompleted
      cases h with
      | plain hspecial => simp [hc.special] at hspecial
      | givesUp d hspecial hd =>
          rcases playlistSizeIncrease_error herror hd with ⟨hgrows, -⟩ | ⟨-, hflags⟩
          · simp at hgrows
          · refine .inr ⟨rfl, .short ?_ (hsame hnot) ?_⟩
            · obtain ⟨_, _, _, rfl⟩ := playlistSizeIncrease_frame hd
              exact hlt
            · obtain ⟨_, _, _, rfl⟩ := playlistSizeIncrease_frame hd
              exact hflags
      | noOrder d hspecial hd hbegin =>
          have hlimited : Limited env N d := by
            obtain ⟨_, _, _, rfl⟩ := playlistSizeIncrease_frame hd
            exact limited_of_core hc rfl rfl
          obtain ⟨k, hk⟩ := SortedMap.begin?_of_size
            (limited_of_core hlimited (orderView_prepare hlimited.steady.settled hlimited.steady.schedule)
              (core_prepare env d)).order
          simp [hbegin] at hk
      | again d k hspecial hd hbegin =>
          rcases playlistSizeIncrease_error herror hd with ⟨-, hempty⟩ | ⟨hgrows, -⟩
          · have harray : arraySize d.array ≠ 0 := by
              obtain ⟨_, _, _, rfl⟩ := playlistSizeIncrease_frame hd
              exact hc.array
            exact .inl ⟨error_prepare hempty harray, by simp [Stopped], hsame hnot⟩
          · simp at hgrows

/-- A pass goes on as it does without a limit, reads what it must not read, or ends the call. -/
theorem tick_ends (hc : Limited env N m.ctrl) (hN : 0 < N) (herror : m.ctrl.error = EMPTY_ERROR)
    (hm : Completion.Timely c m) (htracks : c.maxTracks = N) (hgoing : ¬ Stopped m) :
    (tick env m).ctrl.error = EMPTY_ERROR ∧ ¬ Stopped (tick env m) ∧
        tick env (withoutLimit m) = withoutLimit (tick env m) ∨
      (tick env m).control = .undefined ∨
      (tick env m).control = .idle ∧ Ended N (tick env m) (tick env (withoutLimit m)) := by
  have houter {ito : Int} (hcontrol : m.control = .outer ito) := tick_outer_withoutLimit (m := m) env hcontrol
  have hinner {ito : Int} {folder : Str} {toNext last next : Bool} {d : TRotatorCtrl}
      (hcontrol : m.control = .inner ito folder toNext)
      (hana : m.ctrl.globalAnalize folder toNext = some (last, next, d)) :=
    tick_inner_withoutLimit hc.steady.schedule env hcontrol hana
  have hpass := tick_pass env m
  generalize tick env m = t at hpass houter ⊢
  cases hpass with
  | stopped hstop => exact absurd hstop hgoing
  | undefined => exact .inr (.inl rfl)
  | begins _ _ _ hcontrol => exact .inl ⟨herror, by simp [Stopped], houter hcontrol⟩
  | stays _ _ _ _ _ hcontrol hana _ htried =>
      exact .inl ⟨(error_tried htried).trans herror, by simp [Stopped], hinner hcontrol hana⟩
  | leaves _ _ _ _ _ hcontrol hana hfind htried =>
      have hsize := (Completion.timely_tried hm hgoing hfind htried).2.2.1
      rw [htracks] at hsize
      rw [hinner hcontrol hana, if_pos rfl]
      exact (endVisit_ends (limited_tried hc hfind htried) hN ((error_tried htried).trans herror) (hsize hN)
        _ _).imp_right .inr

end Visit

section Run

variable {env : Env} {N : Int} {c : TRotatorCtrl}

theorem limited_passes (hc : Limited env N c) (n : Nat) : Limited env N (passes env c n).ctrl := by
  have horder := orderView_run hc.steady (.createPlaylist :: List.replicate n .tick)
  have hframe := run_frame (fun k : Core => (k.array, k.specialConditions, k.maxTracks, k.generalDuration))
    (fun _ _ _ => rfl) env c (.createPlaylist :: List.replicate n .tick)
  rw [← passes_eq_run] at horder hframe
  exact limited_congr hc horder.2 horder.1 hframe

/-- What the first `n` passes of a call have shown, beside those without a limit. -/
structure Shown (env : Env) (N : Int) (c : TRotatorCtrl) (n : Nat) : Prop where
  going : ¬ Stopped (passes env c n) → (passes env c n).ctrl.error = EMPTY_ERROR ∧
    passes env (unlimited c) n = withoutLimit (passes env c n)
  idle : (passes env c n).control = .idle → Ended N (passes env c n) (passes env (unlimited c) n)

theorem Ended.tick {m u : Machine} (h : Ended N m u) (hidle : m.control = .idle) : Ended N m (tick env u) := by
  cases h with
  | full hsize hu => exact .full hsize (hu.trans (size_tick_le env u))
  | short hlt hu herror =>
      have hstop : Stopped u := .inl (by rw [hu]; exact hidle)
      exact .short hlt ((tick_of_stopped env hstop).trans hu) herror

theorem shown_succ (hc : Limited env N c) (hN : 0 < N) {n : Nat} (h : Shown env N c n) :
    Shown env N c (n + 1) := by
  have hsucc : passes env c (n + 1) = tick env (passes env c n) := passes_add env c n 1
  have hsucc' : passes env (unlimited c) (n + 1) = tick env (passes env (unlimited c) n) := passes_add env _ n 1
  by_cases hstop : Stopped (passes env c n)
  · rw [tick_of_stopped env hstop] at hsucc
    refine ⟨fun hrun => absurd (hsucc ▸ hstop) hrun, fun hend => ?_⟩
    rw [hsucc] at hend ⊢
    rw [hsucc']
    exact (h.idle hend).tick hend
  · obtain ⟨herror, hsame⟩ := h.going hstop
    have htick := tick_ends (limited_passes hc n) hN herror (Completion.timely_passes env c n) hc.tracks hstop
    rw [← hsame, ← hsucc, ← hsucc'] at htick
    rcases htick with ⟨herror', hgoing, hsame'⟩ | hundefined | ⟨hidle, hended⟩
    · exact ⟨fun _ => ⟨herror', hsame'⟩, fun hend => absurd (.inl hend) hgoing⟩
    · exact ⟨fun hrun => absurd (.inr hundefined) hrun, fun hend => by simp [hundefined] at hend⟩
    · exact ⟨fun hrun => absurd (.inl hidle) hrun, fun _ => hended⟩

theorem shown_passes (hc : Limited env N c) (hN : 0 < N) (herror : c.error = EMPTY_ERROR) (n : Nat) :
    Shown env N c n := by
  induction n with
  | zero =>
      obtain ⟨ito, hstart⟩ := createPlaylist_outer hc.steady hc.order hc.array herror
      have hzero : passes env c 0 = _ := hstart
      have hsame : passes env (unlimited c) 0 = withoutLimit (passes env c 0) := createPlaylist_unlimited c
      refine ⟨fun _ => ⟨?_, hsame⟩, fun hend => ?_⟩
      · rw [hzero]
        exact herror
      · rw [hzero] at hend
        cases hend
  | succ n ih => exact shown_succ hc hN ih

/-- Where the loops without a limit have stopped, they supply what they have added by then. -/
theorem supplies_iff_of_stopped {n : Nat} (hstop : Stopped (passes env (unlimited c) n)) (x : Int) :
    Supplies env c x ↔ x ≤ (passes env (unlimited c) n).ctrl.size := by
  constructor
  · rintro ⟨k, hk⟩
    rcases Nat.le_total k n with hle | hle
    · exact hk.trans (size_passes_mono env _ hle)
    · obtain ⟨i, rfl⟩ := Nat.exists_eq_add_of_le hle
      rw [passes_add, Function.iterate_fixed (tick_of_stopped env hstop)] at hk
      exact hk
  · exact fun h => ⟨n, h⟩

theorem reported_of_ended {n : Nat} (hidle : (passes env c n).control = .idle)
    (h : Ended N (passes env c n) (passes env (unlimited c) n)) :
    Reported N (passes env c n).ctrl ↔ Supplies env c N ∨ ¬ Supplies env c (greaterLimit c + 1) := by
  have hrules : (passes env c n).ctrl.sRules = c.sRules := by
    rw [passes_eq_run]
    exact run_frame Core.sRules (fun _ _ _ => rfl) env c _
  have hlimit : greaterLimit (passes env c n).ctrl = greaterLimit c := by rw [greaterLimit, hrules, greaterLimit]
  cases h with
  | full hsize hu => exact iff_of_true (.inl hsize) (.inl ⟨n, hu⟩)
  | short hlt hu herror =>
      have hstop : Stopped (passes env (unlimited c) n) := .inl (by rw [hu]; exact hidle)
      have hsize : (passes env (unlimited c) n).ctrl.size = (passes env c n).ctrl.size := by
        rw [hu]
        rfl
      rw [supplies_iff_of_stopped hstop, supplies_iff_of_stopped hstop, hsize, Reported, herror, hlimit]
      omega

end Run

theorem new_limited {env : Env} {arr : HashTable} {N : Int} {c : TRotatorCtrl} (hN : i32 N ≠ 0)
    (hnew : new env arr (.maxTracks N) = some c) (hschedule : c.schedule = false) (hsome : arraySize arr ≠ 0)
    (horder : 0 < c.foldersOrder.size) : Limited env (i32 N) c := by
  have hargs := new_arguments hnew
  simp only [arguments, Prod.mk.injEq, Param.limits] at hargs
  obtain ⟨harray, htracks, hduration, -, -⟩ := hargs
  have hsteady := new_steady hnew hschedule
  refine ⟨harray ▸ hsome, ?_, htracks, hduration, horder, hsteady⟩
  rcases (new_blank hnew).ready with ⟨-, hnone⟩ | ⟨-, hspecial⟩
  · rw [order_of_settled hsteady.settled] at hnone
    exact absurd horder (of_decide_eq_false hnone)
  · rw [hspecial, hasSpecialConditions, htracks]
    simp [hN]

theorem reported_iff_of_order {env : Env} {arr : HashTable} {N : Int} {c : TRotatorCtrl} {n : Nat} (hpos : 1 ≤ N)
    (hint : N < 2 ^ 31) (hnew : new env arr (.maxTracks N) = some c) (hschedule : c.schedule = false)
    (hreturns : (passes env c n).control = .idle) (hsome : arraySize arr ≠ 0) (horder : 0 < c.foldersOrder.size) :
    Reported N (passes env c n).ctrl ↔ Supplies env c N ∨ ¬ Supplies env c (greaterLimit c + 1) := by
  have hN : i32 N = N := i32_of_bounds (by omega) hint
  have hargs := new_arguments hnew
  simp only [arguments, Prod.mk.injEq] at hargs
  obtain ⟨-, -, -, herror, -⟩ := hargs
  rw [if_neg hsome] at herror
  have hlimited := new_limited (by omega) hnew hschedule hsome horder
  rw [hN] at hlimited
  exact reported_of_ended hreturns ((shown_passes hlimited (by omega) herror n).idle hreturns)

/-- A playlist of no more tracks than the greater limit and one is always reported. -/
theorem reported_of_le {env : Env} {arr : HashTable} {N : Int} {c : TRotatorCtrl} {n : Nat} (hpos : 1 ≤ N)
    (hint : N < 2 ^ 31) (hnew : new env arr (.maxTracks N) = some c) (hschedule : c.schedule = false)
    (hreturns : (passes env c n).control = .idle) (hsome : arraySize arr ≠ 0) (horder : 0 < c.foldersOrder.size)
    (hle : N ≤ greaterLimit c + 1) : Reported N (passes env c n).ctrl := by
  rw [reported_iff_of_order hpos hint hnew hschedule hreturns hsome horder]
  by_cases hsupplies : Supplies env c (greaterLimit c + 1)
  · exact .inl (hsupplies.mono hle)
  · exact .inr hsupplies

section Demo

def filledArray : HashTable :=
  [(.str DEFAULT_FOLDERS, .array [folderNode "A" [trackRecord "x" "one" none, trackRecord "y" "two" none]])]

def filled : TRotatorCtrl := (new (Env.at 0) filledArray (.maxTracks 2)).get rfl

end Demo

end RadioServices.Rotator.Shortfall

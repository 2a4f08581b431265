import RadioServices.Rotator.Construction
import Mathlib.Data.Prod.Lex
import Mathlib.Order.WellFounded

namespace RadioServices.Rotator.Termination

open Lib Lib.C TRotatorCtrl Machine

def passes (env : Env) (c : TRotatorCtrl) (n : Nat) : Machine := (tick env)^[n] (createPlaylist c)

/-- A folder of the order in force is as long as the longest one, so that a
round over the order comes to an end. -/
def Covered (c : TRotatorCtrl) : Prop :=
  ∃ k folder hf, c.foldersOrder.find? k = some folder ∧ c.hfolders.find? folder = some hf ∧
    c.maxHtSize ≤ arraySize hf.ht

/-- A record of the order is allowed by the rules once its folder has weight enough. -/
def Unblocked (c : TRotatorCtrl) : Prop :=
  ∃ k folder hf i data singer title w, c.foldersOrder.find? k = some folder ∧
    c.hfolders.find? folder = some hf ∧ i < arraySize hf.ht ∧
    ∀ w' ≥ w, Offers c { hf with index := i, statistics := w' } folder data singer title

def Advances (c : TRotatorCtrl) (data : HashTable) : Prop :=
  0 < c.maxTracks ∨ (c.schedule = true ∨ c.generalDuration.isSome = true) ∧
    ∃ s sec, recordDuration data = some s ∧ c.timer.getSeconds (some s) = some sec ∧ 0 < i32 sec

structure Progresses (m : Machine) : Prop where
  ends : ¬ Stopped m → Covered m.ctrl ∨ m.ctrl.specialConditions = true ∧ Unblocked m.ctrl
  nearer : ∀ ito folder toNext hf data singer title, m.control = .inner ito folder toNext →
    m.ctrl.hfolders.find? folder = some hf → Offers m.ctrl (rewindFolder hf) folder data singer title →
    m.ctrl.specialConditions = true → Advances m.ctrl data

section Effort

def additionsLeft (c : TRotatorCtrl) : Nat :=
  if 0 < c.maxTracks then (c.maxTracks - c.size).toNat
  else (c.timer.hours24 - c.timer.playlistDuration).toNat

/-- One while the playlist has grown since the last round ended. -/
def grown (c : TRotatorCtrl) : Nat := if c.previosPlaylistSize < c.size then 1 else 0

def triesLeft (c : TRotatorCtrl) : Nat := (4 - c.increaseCounter).toNat

/-- What special conditions leave to do: reset a playlist that was complete, add
tracks, end the round after an addition, try again without one. -/
def effort (c : TRotatorCtrl) : Nat ×ₗ Nat ×ₗ Nat ×ₗ Nat :=
  if c.specialConditions then
    toLex (c.constructionComplete.toNat, toLex (additionsLeft c, toLex (grown c, triesLeft c)))
  else toLex (0, toLex (0, toLex (0, 0)))

variable {c d : TRotatorCtrl}

theorem effort_lt (hc : c.specialConditions = true) (hd : d.specialConditions = true)
    (h : d.constructionComplete.toNat < c.constructionComplete.toNat ∨
      d.constructionComplete = c.constructionComplete ∧ (additionsLeft d < additionsLeft c ∨
        additionsLeft d = additionsLeft c ∧ (grown d < grown c ∨
          grown d = grown c ∧ triesLeft d < triesLeft c))) : effort d < effort c := by
  simp only [effort, hc, hd, if_true, Prod.Lex.toLex_lt_toLex]
  rcases h with h | ⟨hcomplete, h⟩
  · exact .inl h
  · exact .inr ⟨by rw [hcomplete], h⟩

theorem effort_chargeInterval {sd : Option Str} (h : c.chargeInterval sd = some d) : effort d = effort c := by
  rcases chargeInterval_cases h with ⟨-, rfl⟩ | ⟨-, sec, -, ⟨-, rfl⟩ | ⟨-, rfl⟩⟩
  · rfl
  · rfl
  · cases c.nextSlot with
    | none => rfl
    | some k => rfl

theorem effort_addFromFolder {hf : THFolders} {folder singer title : Str} {data : HashTable}
    (hspecial : c.specialConditions = true) (hvalid : validRecord data = some (singer, title))
    (hadvances : Advances c data) (hadd : c.addFromFolder hf folder singer title data = some d)
    (hnot : d.playlistConstructionCompleted = false) : effort d < effort c := by
  obtain ⟨t, e, ht, he, rfl⟩ := addFromFolder_cases hvalid hadd
  have hsame : effort { e with added := e.added ++ [⟨folder, hf.service, singer, title, data⟩] } =
      effort (c.recorded data ⟨singer, title, hf.statistics + 1⟩ t) :=
    (effort_chargeInterval he : effort e = _)
  have hcompleted : (c.recorded data ⟨singer, title, hf.statistics + 1⟩ t).playlistConstructionCompleted = false :=
    (completed_chargeInterval he).symm.trans hnot
  have hsize : (c.recorded data ⟨singer, title, hf.statistics + 1⟩ t).size = c.size + 1 := by
    simp [recorded, size]
  have h24 := (appendPlaylistDuration_fixed ht).1
  rw [hsame]
  have hleft : additionsLeft (c.recorded data ⟨singer, title, hf.statistics + 1⟩ t) < additionsLeft c := by
    simp only [playlistConstructionCompleted, hsize, Bool.or_eq_false_iff, Bool.and_eq_false_iff,
      decide_eq_false_iff_not, TTimer.is24hoursCompleted] at hcompleted
    obtain ⟨htracks, hduration⟩ := hcompleted
    simp only [additionsLeft]
    rw [hsize]
    simp only [recorded] at htracks hduration ⊢
    by_cases hmax : 0 < c.maxTracks
    · simp only [hmax, if_true]
      omega
    · simp only [hmax, if_false]
      rcases hadvances with hpos | ⟨hlimited, s, sec, hs, hsec, hpos⟩
      · exact absurd hpos hmax
      · have hD : t.playlistDuration = c.timer.playlistDuration + i32 sec := by
          rw [hs] at ht
          simp only [TTimer.appendPlaylistDuration, hsec, Option.bind_eq_bind, Option.bind_some,
            Option.pure_def, Option.some.injEq] at ht
          rw [← ht]; rfl
        have hlt : ¬ t.hours24 ≤ t.playlistDuration := by
          rcases hduration with hno | hlt
          · rcases hlimited with h | h <;> simp [h] at hno
          · exact hlt
        omega
  exact effort_lt hspecial hspecial (.inr ⟨rfl, .inl hleft⟩)

theorem effort_playlistSizeIncrease (hspecial : c.specialConditions = true)
    (h : c.playlistSizeIncrease = (true, d)) : effort d < effort c := by
  rw [playlistSizeIncrease] at h
  split at h
  · rename_i hgrown
    simp only [Prod.mk.injEq, true_and] at h
    subst h
    refine effort_lt hspecial hspecial (.inr ⟨rfl, .inr ⟨rfl, .inl ?_⟩⟩)
    have hc : grown c = 1 := if_pos hgrown
    have hd : grown { c with previosPlaylistSize := c.size, increaseCounter := 0 } = 0 :=
      if_neg (lt_irrefl c.size)
    rw [hc, hd]
    exact Nat.zero_lt_one
  · simp only at h
    split at h
    · simp at h
    · rename_i hcounter
      simp only [Prod.mk.injEq, true_and] at h
      subst h
      refine effort_lt hspecial hspecial (.inr ⟨rfl, .inr ⟨rfl, .inr ⟨rfl, ?_⟩⟩⟩)
      simp only [triesLeft, MAX_INCREASE_COUNTER] at hcounter ⊢
      omega

theorem effort_enterSlot (c : TRotatorCtrl) (slot : Option Int) : effort (c.enterSlot slot) = effort c := by
  cases slot <;> rfl

theorem effort_of_not_special (hc : c.specialConditions = false) : effort c = toLex (0, toLex (0, toLex (0, 0))) := by
  rw [effort, hc, if_neg Bool.false_ne_true]

theorem effort_prepareOrder (env : Env) (hcomplete : c.constructionComplete = false) :
    effort (c.prepareOrder env) = effort c := by
  rw [prepareOrder, hcomplete]
  split
  · exact effort_enterSlot c c.nextSlot
  · rfl

/-- `prepare` resets a complete playlist; otherwise it only moves the slot. -/
theorem effort_prepare (env : Env) (c : TRotatorCtrl) : effort (c.prepare env).2 ≤ effort c := by
  have hspecial : (c.prepare env).2.specialConditions = c.specialConditions :=
    congrArg Core.specialConditions (core_prepare env c)
  have hcomplete : (c.prepareOrder env).constructionComplete = c.constructionComplete :=
    congrArg Tally.constructionComplete (tally_prepareOrder env c)
  cases hc : c.specialConditions with
  | false => rw [effort_of_not_special hc, effort_of_not_special (hspecial.trans hc)]
  | true =>
      have hprepare := prepare_cases env c
      generalize c.prepare env = p at hprepare hspecial ⊢
      cases hprepare with
      | refused => exact le_rfl
      | noInput => exact le_rfl
      | reset _ _ h =>
          refine (effort_lt hc (hspecial.trans hc) (.inl ?_)).le
          rw [hcomplete.symm.trans h]
          exact Nat.zero_lt_one
      | ready _ _ h => exact (effort_prepareOrder env (hcomplete.symm.trans h)).le

theorem effort_endRound (env : Env) (c : TRotatorCtrl) :
    Stopped (endRound env c) ∨ effort (endRound env c).ctrl < effort c := by
  have hend := endRound_cases env c
  generalize endRound env c = m at hend ⊢
  cases hend with
  | plain | givesUp | noOrder => exact .inl (.inl rfl)
  | again d _ hspecial hd => exact .inr ((effort_prepare env d).trans_lt (effort_playlistSizeIncrease hspecial hd))

end Effort

section Visit

variable {env : Env} {m : Machine} {c d : TRotatorCtrl}

/-- A try that adds nothing, or adds where no limit counts. -/
structure Quiet (c : TRotatorCtrl) (folder : Str) (hf : THFolders) (d : TRotatorCtrl) : Prop where
  order : d.foldersOrder = c.foldersOrder
  maxHtSize : d.maxHtSize = c.maxHtSize
  setStartFolder : d.setStartFolder = c.setStartFolder
  special : d.specialConditions = c.specialConditions
  folders : d.hfolders = c.hfolders.insert folder (advanceFolder hf)
  effort : effort d = effort c
  core : c.specialConditions = true → d.core = c.core
  blocked : c.specialConditions = true → ∀ data singer title, ¬ Offers c hf folder data singer title

theorem quiet_of_tried {folder : Str} {hf : THFolders} {flNext : Bool}
    (hconsistent : c.specialConditions = false → c.schedule = false)
    (htable : c.core.tables.find? folder = some hf.table)
    (hnearer : ∀ data singer title, Offers c hf folder data singer title →
      c.specialConditions = true → Advances c data)
    (hnot : flNext = true → d.playlistConstructionCompleted = false)
    (h : Tried c folder hf flNext d) : Quiet c folder hf d ∨ effort d < effort c := by
  have hset : (c.setFolder folder (advanceFolder hf)).core = c.core :=
    core_setFolder (by rw [htable, THFolders.table_advanceFolder])
  cases h with
  | missing hrecord =>
      exact .inl ⟨rfl, rfl, rfl, rfl, rfl, rfl, fun _ => hset, fun _ data _ _ ho => hrecord data ho.1⟩
  | skipped hrecord => exact .inl ⟨rfl, rfl, rfl, rfl, rfl, rfl, fun _ => hset, fun _ => hrecord⟩
  | added data singer title e hoffers hadd =>
      cases hspecial : c.specialConditions with
      | true =>
          have hlt : effort e < effort (c.setFolder folder hf) :=
            effort_addFromFolder hspecial hoffers.2.1 (hnearer data singer title hoffers hspecial) hadd
              (hnot rfl)
          exact .inr hlt
      | false =>
          obtain ⟨t, b, -, hb, rfl⟩ := addFromFolder_cases hoffers.2.1 hadd
          rcases chargeInterval_cases hb with ⟨-, rfl⟩ | ⟨hyes, -⟩
          · refine .inl ⟨rfl, rfl, rfl, rfl, ?_, ?_, fun h => ?_, fun h => ?_⟩
            · exact SortedMap.insert_insert _ _ _ _
            · rw [effort_of_not_special hspecial]
              exact effort_of_not_special hspecial
            · simp [hspecial] at h
            · simp [hspecial] at h
          · have hno := hconsistent hspecial
            exact absurd (hyes.symm.trans hno) (by simp)

end Visit

section Invariant

variable {env : Env} {m : Machine}

structure Visiting (c : TRotatorCtrl) (ito : Int) (folder : Str) (toNext : Bool) : Prop where
  entry : c.foldersOrder.find? ito = some folder
  started : c.setStartFolder = false
  last : toNext = false → ∃ hf, c.hfolders.find? folder = some hf ∧ hf.index < arraySize hf.ht

structure Inv (m : Machine) : Prop where
  consistent : m.ctrl.specialConditions = false → m.ctrl.schedule = false
  visiting : ∀ ito folder toNext, m.control = .inner ito folder toNext → Visiting m.ctrl ito folder toNext

theorem consistent_tick (hm : Inv m) :
    (tick env m).ctrl.specialConditions = false → (tick env m).ctrl.schedule = false := by
  have hsame : (tick env m).ctrl.core.specialConditions = m.ctrl.core.specialConditions ∧
      (tick env m).ctrl.core.schedule = m.ctrl.core.schedule := by
    rcases step_core env m .tick with hcore | ⟨a, h, -, hcore⟩
    · exact ⟨congrArg Core.specialConditions hcore, congrArg Core.schedule hcore⟩
    · exact ⟨(congrArg Core.specialConditions hcore).trans rfl, (congrArg Core.schedule hcore).trans rfl⟩
  intro hspecial
  exact hsame.2.trans (hm.consistent (hsame.1.symm.trans hspecial))

theorem skipped_of_continues {c d : TRotatorCtrl} {folder : Str} {hf : THFolders}
    (h : Tried c folder hf false d) :
    d = c.setFolder folder (advanceFolder hf) ∧ (advanceFolder hf).index < arraySize hf.ht := by
  generalize hb : false = b at h
  cases h with
  | missing => simp at hb
  | skipped => exact ⟨rfl, by simpa using hb⟩
  | added => simp at hb

theorem not_inner_of_stopped (h : Stopped m) {ito : Int} {folder : Str} {toNext : Bool} :
    m.control ≠ .inner ito folder toNext := by
  rcases h with h | h <;> simp [h]

theorem endRound_control (env : Env) (c : TRotatorCtrl) {ito : Int} {folder : Str} {toNext : Bool} :
    (endRound env c).control ≠ .inner ito folder toNext := by
  have hend := endRound_cases env c
  generalize endRound env c = m at hend ⊢
  cases hend with
  | plain | givesUp | noOrder => exact not_inner_of_stopped (.inl rfl)
  | again => simp

theorem endVisit_control (env : Env) (c : TRotatorCtrl) (k : Int) (b : Bool) {ito : Int} {folder : Str}
    {toNext : Bool} : (endVisit env c k b).control ≠ .inner ito folder toNext := by
  rcases endVisit_cases env c k b with hstop | ⟨-, ⟨j, -, -, heq⟩ | ⟨-, heq⟩⟩
  · exact not_inner_of_stopped hstop
  · simp [heq]
  · rw [heq]; exact endRound_control env c

theorem inv_tick (hm : Inv m) : Inv (tick env m) := by
  refine ⟨consistent_tick hm, fun ito folder toNext heq => ?_⟩
  have hpass := tick_pass env m
  generalize tick env m = t at hpass heq ⊢
  cases hpass with
  | stopped hstop => exact absurd heq (not_inner_of_stopped hstop)
  | undefined => cases heq
  | begins _ _ _ _ _ hname =>
      cases heq
      exact ⟨hname, rfl, by simp⟩
  | stays _ _ b _ _ hcontrol _ _ htried =>
      cases heq
      obtain ⟨rfl, hlt⟩ := skipped_of_continues htried
      have hv := hm.visiting _ _ b hcontrol
      exact ⟨hv.entry, hv.started, fun _ => ⟨_, SortedMap.find?_insert_self _ _ _, hlt⟩⟩
  | leaves => exact absurd heq (endVisit_control _ _ _ _)

end Invariant

section Phase

variable {env : Env} {s t : Machine}

def lastVisit (m : Machine) : Bool :=
  match m.control with
  | .inner _ _ false => true
  | _ => false

def rank (m : Machine) : (Nat ×ₗ Nat ×ₗ Nat ×ₗ Nat) ×ₗ Nat :=
  toLex (effort m.ctrl, if lastVisit m then 0 else 1)

theorem rank_lt_of_effort (h : effort t.ctrl < effort s.ctrl) : rank t < rank s :=
  Prod.Lex.toLex_lt_toLex.mpr (.inl h)

theorem rank_lt_of_lastVisit (h : effort t.ctrl = effort s.ctrl) (hs : lastVisit s = false)
    (ht : lastVisit t = true) : rank t < rank s := by
  refine Prod.Lex.toLex_lt_toLex.mpr (.inr ⟨h, ?_⟩)
  simp [hs, ht]

def visitLeft (hf : THFolders) : Nat :=
  if arraySize hf.ht ≤ hf.index then arraySize hf.ht + 1 else arraySize hf.ht - hf.index

theorem ht_rewindFolder (hf : THFolders) : (rewindFolder hf).ht = hf.ht :=
  congrArg Prod.fst (THFolders.table_rewindFolder hf)

theorem lt_advanceFolder (hf : THFolders) : hf.index < (advanceFolder hf).index :=
  le_searchNextHashIndex hf.ht (hf.index + 1)

theorem visitLeft_advance {hf : THFolders}
    (h : (advanceFolder (rewindFolder hf)).index < arraySize hf.ht) :
    visitLeft (advanceFolder (rewindFolder hf)) < visitLeft hf := by
  have hht : (advanceFolder (rewindFolder hf)).ht = hf.ht := ht_rewindFolder hf
  have hlt := lt_advanceFolder (rewindFolder hf)
  simp only [visitLeft]
  rw [hht, if_neg (not_le.mpr h)]
  split
  · omega
  · rename_i hbefore
    rw [rewindFolder, if_neg hbefore] at hlt ⊢
    omega

def recordsLeft (m : Machine) : Nat :=
  match m.control with
  | .inner _ folder _ => ((m.ctrl.hfolders.find? folder).map visitLeft).getD 0
  | _ => 0

theorem find?_insert_advance (c : TRotatorCtrl) (folder : Str) (hf : THFolders) :
    (c.setFolder folder hf).hfolders.find? folder = some hf := SortedMap.find?_insert_self _ _ _

theorem recordsLeft_continue {c : TRotatorCtrl} {ito : Int} {folder : Str} {toNext toNext' : Bool}
    {hf : THFolders} (hcontrol : t.control = .inner ito folder toNext)
    (hfind : t.ctrl.hfolders.find? folder = some hf)
    (hindex : (advanceFolder (rewindFolder hf)).index < arraySize hf.ht) :
    recordsLeft ⟨c.setFolder folder (advanceFolder (rewindFolder hf)), .inner ito folder toNext'⟩ <
      recordsLeft t := by
  simp only [recordsLeft, hcontrol, hfind, find?_insert_advance, Option.map_some, Option.getD_some]
  exact visitLeft_advance hindex

theorem quiet_or_effort (hinv : Inv t) (hprog : Progresses t) {c : TRotatorCtrl} {ito : Int} {folder : Str}
    {toNext flNext : Bool} {hf : THFolders} (hcontrol : t.control = .inner ito folder toNext)
    (hfind : t.ctrl.hfolders.find? folder = some hf)
    (htried : Tried t.ctrl folder (rewindFolder hf) flNext c)
    (hnot : flNext = true → c.playlistConstructionCompleted = false) :
    Quiet t.ctrl folder (rewindFolder hf) c ∨ effort c < effort t.ctrl :=
  quiet_of_tried hinv.consistent (table_of_find? hfind)
    (fun data singer title => hprog.nearer ito folder toNext hf data singer title hcontrol hfind) hnot htried

theorem endRound_step {c : TRotatorCtrl} (heffort : effort t.ctrl = effort s.ctrl)
    (hc : effort c ≤ effort t.ctrl) :
    Stopped (endRound env c) ∨ rank (endRound env c) < rank s := by
  rcases effort_endRound env c with hstop | hlt
  · exact .inl hstop
  · exact .inr (rank_lt_of_effort (heffort ▸ hlt.trans_le hc))

theorem lastVisit_step (hinv : Inv t) (hprog : Progresses t) (hlast : lastVisit t = true)
    (heffort : effort t.ctrl = effort s.ctrl) :
    Stopped (tick env t) ∨ rank (tick env t) < rank s ∨
      (lastVisit (tick env t) = true ∧ effort (tick env t).ctrl = effort s.ctrl) ∧
        recordsLeft (tick env t) < recordsLeft t := by
  have hcontrol : ∃ ito folder, t.control = .inner ito folder false := by
    rw [lastVisit] at hlast
    split at hlast
    · exact ⟨_, _, ‹_›⟩
    · simp at hlast
  obtain ⟨ito, folder, hcontrol⟩ := hcontrol
  obtain ⟨hf', hfind', hlt⟩ := (hinv.visiting ito folder false hcontrol).last rfl
  rcases tick_inner env hcontrol with hundefined | ⟨hf, flNext, c, hfind, htried, hcase⟩
  · exact .inl (.inr hundefined)
  · obtain rfl : hf = hf' := Option.some.inj (hfind.symm.trans hfind')
    have hflag : t.ctrl.endOfFolder hf false = false := if_neg (not_le.mpr hlt)
    rw [hflag] at hcase
    rcases hcase with ⟨rfl, htick⟩ | ⟨rfl, htick⟩
    · obtain ⟨rfl, hindex⟩ := skipped_of_continues htried
      rw [ht_rewindFolder] at hindex
      rw [htick]
      exact .inr (.inr ⟨⟨rfl, heffort⟩, recordsLeft_continue hcontrol hfind hindex⟩)
    · rw [htick]
      rcases endVisit_cases env c ito false with hstop | ⟨hnot, ⟨k, hk, -⟩ | ⟨-, hround⟩⟩
      · exact .inl hstop
      · simp at hk
      · have hle : effort c ≤ effort t.ctrl := by
          rcases quiet_or_effort hinv hprog hcontrol hfind htried (fun _ => hnot) with hquiet | hlt
          · exact hquiet.effort.le
          · exact hlt.le
        rw [hround]
        exact (endRound_step heffort hle).imp id .inl

/-- What the tries of a folder have used up of it, towards the weight `W`. -/
def clock (W : Int) (hf : THFolders) : Nat ×ₗ Nat :=
  toLex ((W - hf.statistics).toNat, arraySize hf.ht + 2 - hf.index)

/-- A folder in which no try can go on for ever: each one that ends neither the
round nor, under special conditions, in an addition uses up some of it. -/
def Target (s : TRotatorCtrl) (folder : Str) (W : Int) (Before : THFolders → Prop) : Prop :=
  ∀ c hf, c.maxHtSize = s.maxHtSize → (s.specialConditions = true → c.core = s.core) → Before hf →
    c.endOfFolder hf true = true →
    (s.specialConditions = true → ∀ data singer title, ¬ Offers c (rewindFolder hf) folder data singer title) →
    Before (advanceFolder (rewindFolder hf)) ∧ clock W (advanceFolder (rewindFolder hf)) < clock W hf

/-- The state of a phase that goes towards a target. -/
structure Towards (s : Machine) (folder : Str) (Before : THFolders → Prop) (t : Machine) : Prop where
  going : lastVisit t = false
  effort : effort t.ctrl = effort s.ctrl
  order : t.ctrl.foldersOrder = s.ctrl.foldersOrder
  maxHtSize : t.ctrl.maxHtSize = s.ctrl.maxHtSize
  special : t.ctrl.specialConditions = s.ctrl.specialConditions
  core : s.ctrl.specialConditions = true → t.ctrl.core = s.ctrl.core
  before : ∃ hf, t.ctrl.hfolders.find? folder = some hf ∧ Before hf

def position (m : Machine) : Int :=
  match m.control with
  | .outer ito => if m.ctrl.setStartFolder then (m.ctrl.foldersOrder.begin?).getD ito else ito
  | .inner ito _ _ => ito
  | _ => 0

def atHead (m : Machine) : Nat :=
  match m.control with
  | .outer _ => 1
  | _ => 0

def folderClock (W : Int) (folder : Str) (c : TRotatorCtrl) : Nat ×ₗ Nat :=
  ((c.hfolders.find? folder).map (clock W)).getD (toLex (0, 0))

def distance (W : Int) (folder : Str) (target : Int) (m : Machine) :
    (Nat ×ₗ Nat) ×ₗ Nat ×ₗ Nat ×ₗ Nat :=
  toLex (folderClock W folder m.ctrl,
    toLex (m.ctrl.foldersOrder.roundDistance target (position m), toLex (atHead m, recordsLeft m)))

variable {W : Int} {folder : Str} {target : Int} {Before : THFolders → Prop}

theorem distance_lt_of_clock (h : folderClock W folder t.ctrl < folderClock W folder s.ctrl) :
    distance W folder target t < distance W folder target s :=
  Prod.Lex.toLex_lt_toLex.mpr (.inl h)

theorem distance_lt_of_round (hclock : folderClock W folder t.ctrl = folderClock W folder s.ctrl)
    (h : t.ctrl.foldersOrder.roundDistance target (position t) <
      s.ctrl.foldersOrder.roundDistance target (position s)) :
    distance W folder target t < distance W folder target s :=
  Prod.Lex.toLex_lt_toLex.mpr (.inr ⟨hclock, Prod.Lex.toLex_lt_toLex.mpr (.inl h)⟩)

theorem distance_lt_of_visit (hclock : folderClock W folder t.ctrl = folderClock W folder s.ctrl)
    (hround : t.ctrl.foldersOrder.roundDistance target (position t) =
      s.ctrl.foldersOrder.roundDistance target (position s))
    (h : atHead t < atHead s ∨ atHead t = atHead s ∧ recordsLeft t < recordsLeft s) :
    distance W folder target t < distance W folder target s :=
  Prod.Lex.toLex_lt_toLex.mpr (.inr ⟨hclock, Prod.Lex.toLex_lt_toLex.mpr (.inr ⟨hround,
    Prod.Lex.toLex_lt_toLex.mpr h⟩)⟩)

theorem towards_outer {ito : Int} (ht : Towards s folder Before t) (hcontrol : t.control = .outer ito) :
    Stopped (tick env t) ∨ Towards s folder Before (tick env t) ∧
      distance W folder target (tick env t) < distance W folder target t := by
  rcases tick_outer env hcontrol with hundefined | ⟨k, name, hk, -, htick⟩
  · exact .inl (.inr hundefined)
  · rw [htick]
    refine .inr ⟨⟨rfl, ht.effort, ht.order, ht.maxHtSize, ht.special, ht.core, ht.before⟩, ?_⟩
    have hposition : position t = k := by
      simp only [position, hcontrol]
      split at hk
      · rename_i hstart
        rw [if_pos hstart, hk, Option.getD_some]
      · rename_i hstart
        rw [if_neg hstart]
        exact Option.some.inj hk
    refine distance_lt_of_visit rfl ?_ (.inl ?_)
    · rw [hposition]; rfl
    · simp [atHead, hcontrol]

/-- A quiet try uses up some of the target folder, or leaves it as it is. -/
theorem folderClock_quiet (htarget : Target s.ctrl folder W Before) (ht : Towards s folder Before t)
    {name : Str} {hf : THFolders} {c : TRotatorCtrl} (hfind : t.ctrl.hfolders.find? name = some hf)
    (hflag : t.ctrl.endOfFolder hf true = true) (hquiet : Quiet t.ctrl name (rewindFolder hf) c) :
    (∃ hf', c.hfolders.find? folder = some hf' ∧ Before hf') ∧
      (name = folder ∧ folderClock W folder c < folderClock W folder t.ctrl ∨
        name ≠ folder ∧ folderClock W folder c = folderClock W folder t.ctrl) := by
  obtain ⟨hf', hfind', hbefore⟩ := ht.before
  simp only [folderClock]
  rw [hquiet.folders]
  by_cases hname : name = folder
  · subst hname
    obtain rfl : hf = hf' := Option.some.inj (hfind.symm.trans hfind')
    obtain ⟨hnext, hlt⟩ := htarget t.ctrl hf ht.maxHtSize ht.core hbefore hflag
      (fun h => hquiet.blocked (ht.special.trans h))
    rw [SortedMap.find?_insert_self, hfind]
    exact ⟨⟨_, rfl, hnext⟩, .inl ⟨rfl, hlt⟩⟩
  · rw [SortedMap.find?_insert_of_ne _ (Ne.symm hname)]
    exact ⟨⟨hf', hfind', hbefore⟩, .inr ⟨hname, rfl⟩⟩

theorem towards_quiet (ht : Towards s folder Before t) {name : Str} {hf : THFolders} {c : TRotatorCtrl}
    (hquiet : Quiet t.ctrl name hf c) {control : Control} (hgoing : lastVisit ⟨c, control⟩ = false)
    (hbefore : ∃ hf', c.hfolders.find? folder = some hf' ∧ Before hf') :
    Towards s folder Before ⟨c, control⟩ :=
  ⟨hgoing, hquiet.effort.trans ht.effort, hquiet.order.trans ht.order,
    hquiet.maxHtSize.trans ht.maxHtSize, hquiet.special.trans ht.special,
    fun h => (hquiet.core (ht.special.trans h)).trans (ht.core h), hbefore⟩

theorem towards_continue (htarget : Target s.ctrl folder W Before) (hs : lastVisit s = false)
    (ht : Towards s folder Before t) {ito : Int} {name : Str} {hf : THFolders} {c : TRotatorCtrl}
    (hcontrol : t.control = .inner ito name true) (hfind : t.ctrl.hfolders.find? name = some hf)
    (htried : Tried t.ctrl name (rewindFolder hf) false c) (hquiet : Quiet t.ctrl name (rewindFolder hf) c) :
    rank ⟨c, .inner ito name (t.ctrl.endOfFolder hf true)⟩ < rank s ∨
      Towards s folder Before ⟨c, .inner ito name (t.ctrl.endOfFolder hf true)⟩ ∧
        distance W folder target ⟨c, .inner ito name (t.ctrl.endOfFolder hf true)⟩ <
          distance W folder target t := by
  cases hflag : t.ctrl.endOfFolder hf true with
  | false => exact .inl (rank_lt_of_lastVisit (hquiet.effort.trans ht.effort) hs rfl)
  | true =>
      obtain ⟨hbefore, hclock⟩ := folderClock_quiet htarget ht hfind hflag hquiet
      refine .inr ⟨towards_quiet ht hquiet rfl hbefore, ?_⟩
      rcases hclock with ⟨-, hlt⟩ | ⟨-, heq⟩
      · exact distance_lt_of_clock hlt
      · refine distance_lt_of_visit heq ?_ (.inr ⟨?_, ?_⟩)
        · have hposition : position t = ito := by simp only [position, hcontrol]
          rw [hquiet.order, hposition]
          rfl
        · simp only [atHead, hcontrol]
        · obtain ⟨rfl, hindex⟩ := skipped_of_continues htried
          rw [ht_rewindFolder] at hindex
          exact recordsLeft_continue hcontrol hfind hindex

theorem towards_next (htarget : Target s.ctrl folder W Before)
    (horder : s.ctrl.foldersOrder.find? target = some folder) (ht : Towards s folder Before t)
    {ito k : Int} {name : Str} {hf : THFolders} {c : TRotatorCtrl} {toNext : Bool}
    (hcontrol : t.control = .inner ito name toNext) (hvisit : Visiting t.ctrl ito name toNext)
    (hfind : t.ctrl.hfolders.find? name = some hf) (hflag : t.ctrl.endOfFolder hf true = true)
    (hquiet : Quiet t.ctrl name (rewindFolder hf) c) (hk : nextFolder c ito = some k) :
    Towards s folder Before ⟨c, .outer k⟩ ∧
      distance W folder target ⟨c, .outer k⟩ < distance W folder target t := by
  obtain ⟨hbefore, hclock⟩ := folderClock_quiet htarget ht hfind hflag hquiet
  refine ⟨towards_quiet ht hquiet rfl hbefore, ?_⟩
  rcases hclock with ⟨-, hlt⟩ | ⟨hname, heq⟩
  · exact distance_lt_of_clock hlt
  · apply distance_lt_of_round heq
    have hposition : position t = ito := by simp only [position, hcontrol]
    have hnext : position ⟨c, .outer k⟩ = k := by
      simp only [position, hquiet.setStartFolder, hvisit.started, Bool.false_eq_true, if_false]
    have hreach : t.ctrl.foldersOrder.find? target = some folder := by rw [ht.order]; exact horder
    have hne : ito ≠ target := fun h => hname (Option.some.inj (hvisit.entry.symm.trans (h ▸ hreach)))
    have hsuccessor : t.ctrl.foldersOrder.successor ito = some k := by rw [← hquiet.order]; exact hk
    rw [hnext, hposition, hquiet.order]
    exact SortedMap.roundDistance_successor (SortedMap.mem_keys_iff.mpr ⟨_, hreach⟩) hne hsuccessor

theorem towards_inner (htarget : Target s.ctrl folder W Before)
    (horder : s.ctrl.foldersOrder.find? target = some folder) (hs : lastVisit s = false)
    (hinv : Inv t) (hprog : Progresses t) (ht : Towards s folder Before t) {ito : Int} {name : Str}
    (hcontrol : t.control = .inner ito name true) :
    Stopped (tick env t) ∨ rank (tick env t) < rank s ∨ Towards s folder Before (tick env t) ∧
      distance W folder target (tick env t) < distance W folder target t := by
  rcases tick_inner env hcontrol with hundefined | ⟨hf, flNext, c, hfind, htried, hcase⟩
  · exact .inl (.inr hundefined)
  · rcases hcase with ⟨rfl, htick⟩ | ⟨rfl, htick⟩
    · rw [htick]
      rcases quiet_or_effort hinv hprog hcontrol hfind htried (by simp) with hquiet | hlt
      · exact .inr (towards_continue htarget hs ht hcontrol hfind htried hquiet)
      · exact .inr (.inl (rank_lt_of_effort (ht.effort ▸ hlt)))
    · rw [htick]
      rcases endVisit_cases env c ito (t.ctrl.endOfFolder hf true) with hstop | ⟨hnot, hrest⟩
      · exact .inl hstop
      · rcases quiet_or_effort hinv hprog hcontrol hfind htried (fun _ => hnot) with hquiet | hlt
        · rcases hrest with ⟨k, hflag, hk, heq⟩ | ⟨-, heq⟩
          · rw [heq]
            exact .inr (.inr (towards_next htarget horder ht hcontrol
              (hinv.visiting ito name true hcontrol) hfind hflag hquiet hk))
          · rw [heq]
            exact (endRound_step ht.effort hquiet.effort.le).imp id .inl
        · rcases hrest with ⟨k, -, -, heq⟩ | ⟨-, heq⟩
          · rw [heq]
            exact .inr (.inl (rank_lt_of_effort (ht.effort ▸ hlt)))
          · rw [heq]
            exact (endRound_step ht.effort hlt.le).imp id .inl

theorem towards_step (htarget : Target s.ctrl folder W Before)
    (horder : s.ctrl.foldersOrder.find? target = some folder) (hs : lastVisit s = false)
    (hinv : Inv t) (hprog : Progresses t) (ht : Towards s folder Before t) :
    Stopped (tick env t) ∨ rank (tick env t) < rank s ∨ Towards s folder Before (tick env t) ∧
      distance W folder target (tick env t) < distance W folder target t := by
  cases hcontrol : t.control with
  | idle =>
      have hstop : Stopped t := .inl hcontrol
      exact .inl (by rw [tick_of_stopped env hstop]; exact hstop)
  | undefined =>
      have hstop : Stopped t := .inr hcontrol
      exact .inl (by rw [tick_of_stopped env hstop]; exact hstop)
  | outer ito => exact (towards_outer ht hcontrol).imp id .inr
  | inner ito name toNext =>
      cases toNext with
      | true => exact towards_inner htarget horder hs hinv hprog ht hcontrol
      | false =>
          have hgoing := ht.going
          simp [lastVisit, hcontrol] at hgoing

end Phase

section Targets

theorem clock_lt_of_statistics {W : Int} {hf hf' : THFolders} (h : hf.statistics < hf'.statistics)
    (hW : hf.statistics < W) : clock W hf' < clock W hf :=
  Prod.Lex.toLex_lt_toLex.mpr (.inl (by omega))

theorem clock_lt_of_index {W : Int} {hf hf' : THFolders} (hstatistics : hf'.statistics = hf.statistics)
    (hht : hf'.ht = hf.ht) (h : hf.index < hf'.index) (hlt : hf.index < arraySize hf.ht) :
    clock W hf' < clock W hf := by
  refine Prod.Lex.toLex_lt_toLex.mpr (.inr ⟨by rw [hstatistics], ?_⟩)
  rw [hht]
  omega

theorem rewindFolder_of_lt {hf : THFolders} (h : hf.index < arraySize hf.ht) : rewindFolder hf = hf :=
  if_neg (not_le.mpr h)

/-- A longest folder is a target: its end ends the round. -/
theorem target_of_longest (s : TRotatorCtrl) (folder : Str) (W : Int) :
    Target s folder W (fun hf => s.maxHtSize ≤ arraySize hf.ht) := by
  intro c hf hmax _ hbefore hflag _
  have hlt : hf.index < arraySize hf.ht := by
    by_contra hge
    rw [endOfFolder, if_pos (not_lt.mp hge), hmax, decide_eq_true_eq] at hflag
    omega
  rw [rewindFolder_of_lt hlt]
  exact ⟨hbefore, clock_lt_of_index rfl rfl (lt_advanceFolder hf) hlt⟩

/-- The folder `hf₀` before its record `i` is tried with the weight `W`. -/
structure BeforeRecord (hf₀ : THFolders) (i : Nat) (W : Int) (hf : THFolders) : Prop where
  table : hf.table = hf₀.table
  reached : hf.statistics < W ∨ hf.statistics = W ∧ hf.index ≤ i

theorem offers_congr {s c : TRotatorCtrl} {hf hf' : THFolders} {folder singer title : Str}
    {data : HashTable} (hcore : c.core = s.core) (htable : hf'.table = hf.table)
    (hindex : hf'.index = hf.index) (hstatistics : hf'.statistics = hf.statistics)
    (h : Offers s hf folder data singer title) : Offers c hf' folder data singer title := by
  have hhf : hf' = hf := by
    cases hf; cases hf'
    simp only [THFolders.table, Prod.mk.injEq] at htable hindex hstatistics
    simp [htable, hindex, hstatistics]
  subst hhf
  refine ⟨h.1, h.2.1, Eq.trans ?_ h.2.2⟩
  have hmRules : c.mRules = s.mRules := congrArg Core.mRules hcore
  have hsRules : c.sRules = s.sRules := congrArg Core.sRules hcore
  have hmHistory : c.mHistory = s.mHistory := congrArg Core.mHistory hcore
  simp only [whatToDo, getCurrentRules, hmRules, hsRules, hmHistory]

/-- A folder with a record the rules allow with the weight `W` is a target. -/
theorem target_of_record {s : TRotatorCtrl} {folder singer title : Str} {data : HashTable}
    {hf₀ : THFolders} {i : Nat} {W : Int} (hspecial : s.specialConditions = true)
    (hi : i < arraySize hf₀.ht)
    (hoffers : Offers s { hf₀ with index := i, statistics := W } folder data singer title) :
    Target s folder W (BeforeRecord hf₀ i W) := by
  intro c hf _ hcore hbefore _ hblocked
  have hcore := hcore hspecial
  have hht : hf.ht = hf₀.ht := congrArg Prod.fst hbefore.table
  have hexists : zendHashIndexExists hf.ht i = true := by
    rw [hht, zendHashIndexExists, hoffers.1, Option.isSome_some]
  have hpass : (rewindFolder hf).statistics = W → (rewindFolder hf).index ≤ i →
      (advanceFolder (rewindFolder hf)).index ≤ i := by
    intro hstatistics hindex
    have htable : (rewindFolder hf).table = ({ hf₀ with index := i, statistics := W } : THFolders).table :=
      (THFolders.table_rewindFolder hf).trans hbefore.table
    have hne : (rewindFolder hf).index ≠ i := fun heq =>
      hblocked hspecial data singer title (offers_congr hcore htable heq hstatistics hoffers)
    have hle := searchNextHashIndex_le_of_exists (j := (rewindFolder hf).index + 1) hexists
      (by rw [hht]; exact hi) (by omega)
    simp only [advanceFolder, ht_rewindFolder]
    exact hle
  have htable : (advanceFolder (rewindFolder hf)).table = hf₀.table := by
    rw [THFolders.table_advanceFolder, THFolders.table_rewindFolder]; exact hbefore.table
  by_cases hlt : hf.index < arraySize hf.ht
  · rw [rewindFolder_of_lt hlt] at hpass htable ⊢
    refine ⟨⟨htable, ?_⟩, clock_lt_of_index rfl rfl (lt_advanceFolder hf) hlt⟩
    exact hbefore.reached.imp id fun h => ⟨h.1, hpass h.1 h.2⟩
  · have hless : hf.statistics < W := by
      rcases hbefore.reached with h | ⟨-, h⟩
      · exact h
      · rw [hht] at hlt
        omega
    have hrewound : (rewindFolder hf).statistics = hf.statistics + 1 ∧
        (rewindFolder hf).index = searchNextHashIndex hf.ht START_INDEX := by
      rw [rewindFolder, if_pos (not_lt.mp hlt)]
      exact ⟨rfl, rfl⟩
    have hstart : (rewindFolder hf).index ≤ i := by
      rw [hrewound.2]
      exact searchNextHashIndex_le_of_exists hexists (by rw [hht]; exact hi) (Nat.zero_le i)
    refine ⟨⟨htable, ?_⟩, clock_lt_of_statistics ?_ hless⟩
    · have hkept : (advanceFolder (rewindFolder hf)).statistics = hf.statistics + 1 := hrewound.1
      rw [hkept]
      by_cases hW : hf.statistics + 1 = W
      · exact .inr ⟨hW, hpass (hrewound.1.trans hW) hstart⟩
      · exact .inl (by omega)
    · have hkept : (advanceFolder (rewindFolder hf)).statistics = hf.statistics + 1 := hrewound.1
      omega

end Targets

section Run

theorem stops_of_progresses (env : Env) (m : Machine) (hm : Inv m)
    (hprog : ∀ n, Progresses ((tick env)^[n] m)) : ∃ n, Stopped ((tick env)^[n] m) := by
  refine Runs.exists_iterate_stopped_phases (β := (Nat ×ₗ Nat) ×ₗ Nat ×ₗ Nat ×ₗ Nat) (tick env) Stopped
    (fun t => Inv t ∧ ∀ n, Progresses ((tick env)^[n] t)) rank
    (fun t ht => ⟨inv_tick ht.1, fun n => ht.2 (n + 1)⟩) (fun s hs hgoing => ?_) m ⟨hm, hprog⟩
  cases hlast : lastVisit s with
  | true =>
      refine ⟨fun t => lastVisit t = true ∧ effort t.ctrl = effort s.ctrl,
        fun t => toLex (toLex (0, 0), toLex (0, toLex (0, recordsLeft t))), ⟨hlast, rfl⟩, fun t ht hQ => ?_⟩
      refine (lastVisit_step ht.1 (ht.2 0) hQ.1 hQ.2).imp id (Or.imp id fun h => ⟨h.1, ?_⟩)
      simpa [Prod.Lex.toLex_lt_toLex] using h.2
  | false =>
      have hphase {k W : Int} {folder : Str} {hf : THFolders} {Before : THFolders → Prop}
          (horder : s.ctrl.foldersOrder.find? k = some folder)
          (hfind : s.ctrl.hfolders.find? folder = some hf) (hbefore : Before hf)
          (htarget : Target s.ctrl folder W Before) :
          ∃ (Q : Machine → Prop) (measure : Machine → (Nat ×ₗ Nat) ×ₗ Nat ×ₗ Nat ×ₗ Nat), Q s ∧
            ∀ t, (Inv t ∧ ∀ n, Progresses ((tick env)^[n] t)) → Q t →
              Stopped (tick env t) ∨ rank (tick env t) < rank s ∨
                Q (tick env t) ∧ measure (tick env t) < measure t :=
        ⟨Towards s folder Before, distance W folder k,
          ⟨hlast, rfl, rfl, rfl, rfl, fun _ => rfl, hf, hfind, hbefore⟩,
          fun t ht hQ => towards_step htarget horder hlast ht.1 (ht.2 0) hQ⟩
      rcases (hs.2 0).ends hgoing with ⟨k, folder, hf, horder, hfind, hlong⟩ |
        ⟨hspecial, k, folder, hf, i, data, singer, title, w, horder, hfind, hi, hoffers⟩
      · exact hphase horder hfind hlong (target_of_longest s.ctrl folder 0)
      · have hW : w ≤ max w (hf.statistics + 1) := le_max_left _ _
        have hless : hf.statistics < max w (hf.statistics + 1) :=
          Int.lt_of_lt_of_le (Int.lt_succ _) (le_max_right _ _)
        exact hphase horder hfind ⟨rfl, .inl hless⟩ (target_of_record hspecial hi (hoffers _ hW))

theorem passes_add (env : Env) (c : TRotatorCtrl) (n k : Nat) :
    passes env c (n + k) = (tick env)^[k] (passes env c n) := by
  rw [passes, Nat.add_comm, Function.iterate_add_apply]; rfl

theorem passes_of_stopped {env : Env} {c : TRotatorCtrl} (h : Stopped (createPlaylist c)) (n : Nat) :
    passes env c n = createPlaylist c :=
  Function.iterate_fixed (tick_of_stopped env h) n

theorem passes_eq_run (env : Env) (c : TRotatorCtrl) (n : Nat) :
    passes env c n = run env c (.createPlaylist :: List.replicate n .tick) := by
  induction n with
  | zero => rfl
  | succ n ih =>
      rw [passes_add env c n 1, ih, run, run]
      rw [List.replicate_succ', ← List.cons_append, Runs.run_append]
      rfl

theorem inv_createPlaylist {c : TRotatorCtrl} (hc : c.specialConditions = false → c.schedule = false) :
    Inv (createPlaylist c) := by
  have hcore := core_createPlaylist c
  refine ⟨fun h => ?_, fun ito folder toNext heq => absurd heq ?_⟩
  · exact (congrArg Core.schedule hcore).trans (hc ((congrArg Core.specialConditions hcore).symm.trans h))
  · have hstart := createPlaylist_cases c
    generalize createPlaylist c = m at hstart ⊢
    cases hstart with
    | refused | nothing => exact not_inner_of_stopped (.inl rfl)
    | undefined | first => simp

theorem inv_passes {env : Env} {c : TRotatorCtrl} (hc : c.specialConditions = false → c.schedule = false)
    (n : Nat) : Inv (passes env c n) := by
  induction n with
  | zero => exact inv_createPlaylist hc
  | succ n ih =>
      rw [passes_add env c n 1]
      exact inv_tick ih

theorem new_consistent {env : Env} {arr : HashTable} {arg : Param} {c : TRotatorCtrl}
    (hnew : new env arr arg = some c) : c.specialConditions = false → c.schedule = false := by
  obtain ⟨n, g, s, t, -, h⟩ := new_init hnew
  intro hspecial
  rcases onInit_stages h with ⟨-, rfl⟩ | ⟨-, ⟨-, rfl⟩ | ⟨-, ht, e, m, hfold, -, rfl⟩⟩
  · rfl
  · rfl
  · simp only [hasSpecialConditions, Bool.or_eq_false_iff] at hspecial
    exact hspecial.1.2

/-- A call of `create_playlist` ends exactly if from some pass on every pass is
bound to end the round or to add a track, and every track added brings the
playlist nearer to its limit. -/
theorem createPlaylist_stops_iff {env : Env} {arr : HashTable} {arg : Param} {c : TRotatorCtrl}
    (hnew : new env arr arg = some c) (es : List Event) :
    (∃ n, Stopped (passes env (run env c es).ctrl n)) ↔
      ∃ n₀, ∀ n ≥ n₀, Progresses (passes env (run env c es).ctrl n) := by
  constructor
  · rintro ⟨n₀, hstop⟩
    refine ⟨n₀, fun n hn => ?_⟩
    obtain ⟨k, rfl⟩ := Nat.exists_eq_add_of_le hn
    have hsame : passes env (run env c es).ctrl (n₀ + k) = passes env (run env c es).ctrl n₀ := by
      rw [passes_add]
      exact Function.iterate_fixed (tick_of_stopped env hstop) k
    rw [hsame]
    exact ⟨fun hgoing => absurd hstop hgoing,
      fun _ _ _ _ _ _ _ hcontrol => absurd hcontrol (not_inner_of_stopped hstop)⟩
  · rintro ⟨n₀, hprog⟩
    have hspecial := run_frame Core.specialConditions (fun _ _ _ => rfl) env c es
    have hschedule := run_frame Core.schedule (fun _ _ _ => rfl) env c es
    have hinv : Inv (passes env (run env c es).ctrl n₀) :=
      inv_passes (fun h => hschedule.trans (new_consistent hnew (hspecial.symm.trans h))) n₀
    obtain ⟨n, hn⟩ := stops_of_progresses env _ hinv fun n => by
      rw [← passes_add]; exact hprog _ (Nat.le_add_right _ _)
    exact ⟨n₀ + n, by rw [passes_add]; exact hn⟩

end Run

section Demo

/-- A folder shorter than the longest one is scheduled, and its only executor
was heard last. -/
def demoArray (singerInterval : String) : HashTable :=
  [(.str DEFAULT_RULES, .array [(.str "singer_interval".toList, .string singerInterval.toList)]),
    (.str DEFAULT_FOLDERS, .array [folderNode "A" [trackRecord "x" "one" (some "08:00:00")],
      folderNode "B" [trackRecord "y" "two" none, trackRecord "z" "three" none]]),
    (.str DEFAULT_SCHEDULE, .array [(.long 0, .array [(.long 0, .string "A".toList)])]),
    (.str DEFAULT_HISTORY, .array [(.long 0, .array (trackRecord "x" "last" none))])]

def blocked : TRotatorCtrl := (new (Env.at 0) (demoArray "1") .none).get rfl

def free : TRotatorCtrl := (new (Env.at 0) (demoArray "0") .none).get rfl

theorem blocked_new : new (Env.at 0) (demoArray "1") .none = some blocked :=
  (@Option.some_get _ (new (Env.at 0) (demoArray "1") .none) rfl).symm

theorem free_new : new (Env.at 0) (demoArray "0") .none = some free :=
  (@Option.some_get _ (new (Env.at 0) (demoArray "0") .none) rfl).symm

theorem createPlaylist_stops_iff_demo :
    (∃ n, Stopped (passes (Env.at 0) (run (Env.at 0) free []).ctrl n)) ↔
      ∃ n₀, ∀ n ≥ n₀, Progresses (passes (Env.at 0) (run (Env.at 0) free []).ctrl n) :=
  createPlaylist_stops_iff free_new []

def spin (weight : Int) : TRotatorCtrl :=
  (passes (Env.at 0) blocked 2).ctrl.setFolder "A".toList
    ⟨[(.long 0, .array (trackRecord "x" "one" (some "08:00:00")))], 1, false, weight⟩

theorem spin_outer (w : Int) : tick (Env.at 0) ⟨spin w, .outer 0⟩ = ⟨spin w, .inner 0 "A".toList true⟩ := rfl

theorem spin_inner (w : Int) : tick (Env.at 0) ⟨spin w, .inner 0 "A".toList true⟩ = ⟨spin (w + 1), .outer 0⟩ := rfl

/-- The only scheduled record stays blocked, and the folder is too short to end
the round. -/
theorem createPlaylist_may_not_stop :
    ¬ ∀ (env : Env) (arr : HashTable) (arg : Param) (c : TRotatorCtrl), new env arr arg = some c →
      ∃ n, Stopped (passes env c n) := by
  intro h
  obtain ⟨n, hn⟩ := h (Env.at 0) (demoArray "1") .none blocked blocked_new
  have hlater : Stopped (passes (Env.at 0) blocked (n + 2)) := by
    rw [passes_add, Function.iterate_fixed (tick_of_stopped _ hn)]
    exact hn
  rw [Nat.add_comm, passes_add] at hlater
  refine Runs.not_stopped_iterate (tick (Env.at 0)) Stopped
    (fun m => ∃ w, m = ⟨spin w, .outer 0⟩ ∨ m = ⟨spin w, .inner 0 "A".toList true⟩) ?_ ?_
    (passes (Env.at 0) blocked 2) ⟨1, .inl rfl⟩ n hlater
  · rintro m ⟨w, rfl | rfl⟩
    · exact ⟨w, .inr (spin_outer w)⟩
    · exact ⟨w + 1, .inl (spin_inner w)⟩
  · rintro m ⟨w, rfl | rfl⟩ hstop
    · rcases hstop with hstop | hstop <;> simp at hstop
    · rcases hstop with hstop | hstop <;> simp at hstop

end Demo

end RadioServices.Rotator.Termination

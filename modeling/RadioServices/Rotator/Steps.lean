import RadioServices.Rotator.Playlist

namespace RadioServices.Rotator

open Lib Lib.C

/-- The part of the object that only additions change. -/
structure Core where
  array : HashTable
  schedule : Bool
  specialConditions : Bool
  maxTracks : Int
  generalDuration : Option Str
  hours24 : Int
  defaultTrackDuration : Int
  sRules : TRules
  mRules : SortedMap Str TRules
  sSchedule : Schedule
  /-- The records of each folder and whether it is a service folder. -/
  tables : SortedMap Str (HashTable × Bool)
  mHistory : MHistory
  added : List Addition

namespace THFolders

def table (hf : THFolders) : HashTable × Bool := (hf.ht, hf.service)

@[simp] theorem table_rewindFolder (hf : THFolders) : (TRotatorCtrl.rewindFolder hf).table = hf.table := by
  rw [TRotatorCtrl.rewindFolder]
  split <;> rfl

@[simp] theorem table_advanceFolder (hf : THFolders) :
    (TRotatorCtrl.advanceFolder hf).table = hf.table := rfl

end THFolders

namespace TRotatorCtrl

def core (c : TRotatorCtrl) : Core :=
  ⟨c.array, c.schedule, c.specialConditions, c.maxTracks, c.generalDuration, c.timer.hours24,
    c.timer.defaultTrackDuration, c.sRules, c.mRules, c.sSchedule, c.hfolders.mapValues THFolders.table, c.mHistory, c.added⟩

@[simp] theorem core_increaseMaxHtSize (c : TRotatorCtrl) (n : Nat) :
    (c.increaseMaxHtSize n).core = c.core := rfl

theorem core_setFolder {c : TRotatorCtrl} {folder : Str} {hf : THFolders}
    (h : c.core.tables.find? folder = some hf.table) : (c.setFolder folder hf).core = c.core := by
  simp only [core, setFolder, SortedMap.mapValues_insert h]

theorem core_enterSlot (c : TRotatorCtrl) (slot : Option Int) : (c.enterSlot slot).core = c.core := by
  cases slot with
  | none => rfl
  | some key => rfl

@[simp] theorem core_createScheduleOrder (c : TRotatorCtrl) : c.createScheduleOrder.core = c.core :=
  core_enterSlot c c.nextSlot

theorem core_searchOrderEntry (env : Env) (c : TRotatorCtrl) (e : ZendKey × Zval) :
    (searchOrderEntry env c e).core = c.core := by
  rw [searchOrderEntry]
  split
  · split <;> rfl
  · rfl

theorem core_foldl {α : Type} (f : TRotatorCtrl → α → TRotatorCtrl)
    (hf : ∀ c e, (f c e).core = c.core) (l : List α) (c : TRotatorCtrl) :
    (l.foldl f c).core = c.core := by
  induction l generalizing c with
  | nil => rfl
  | cons e l ih => exact (ih (f c e)).trans (hf c e)

@[simp] theorem core_searchOrder (env : Env) (c : TRotatorCtrl) (arr : HashTable) :
    (searchOrder env c arr).core = c.core := by
  have hdefault (d : TRotatorCtrl) : (d.hfolders.entries.zipIdx.foldl defaultOrderEntry d).core = d.core :=
    core_foldl defaultOrderEntry (fun _ _ => rfl) _ d
  rw [searchOrder]
  simp only
  split
  · exact hdefault _
  · split
    · exact hdefault _
    · exact core_foldl _ (core_searchOrderEntry env) _ _

theorem core_prepareOrder (env : Env) (c : TRotatorCtrl) : (c.prepareOrder env).core = c.core := by
  rw [prepareOrder]
  split
  · rw [core_createScheduleOrder]
    split <;> rfl
  · split
    · exact core_searchOrder env c c.array
    · rfl

inductive Preparation (env : Env) (c : TRotatorCtrl) : Bool × TRotatorCtrl → Prop
  | refused (herror : c.error ≠ EMPTY_ERROR) : Preparation env c (false, c)
  | noInput (herror : c.error = EMPTY_ERROR) (harray : arraySize c.array = 0) :
      Preparation env c (false, { c with error := INPUT_ARRAY_ERROR })
  | reset (herror : c.error = EMPTY_ERROR) (harray : arraySize c.array ≠ 0)
      (hcomplete : (c.prepareOrder env).constructionComplete = true) :
      Preparation env c (true, { c.prepareOrder env with
        hfolders := (c.prepareOrder env).hfolders.mapValues resetFolder
        timer := (c.prepareOrder env).timer.clearPlaylistDuration
        constructionComplete := false
        error := EMPTY_ERROR })
  | ready (herror : c.error = EMPTY_ERROR) (harray : arraySize c.array ≠ 0)
      (hcomplete : (c.prepareOrder env).constructionComplete = false) :
      Preparation env c (true, c.prepareOrder env)

theorem prepare_cases (env : Env) (c : TRotatorCtrl) : Preparation env c (c.prepare env) := by
  rw [prepare]
  split
  · rename_i herror
    exact .refused herror
  · rename_i hno
    have herror : c.error = EMPTY_ERROR := by simpa using hno
    split
    · rename_i harray
      exact .noInput herror harray
    · rename_i harray
      simp only
      split
      · rename_i hcomplete
        exact .reset herror harray hcomplete
      · rename_i hcomplete
        exact .ready herror harray (by simpa using hcomplete)

@[simp] theorem core_prepare (env : Env) (c : TRotatorCtrl) : (c.prepare env).2.core = c.core := by
  have hcore := core_prepareOrder env c
  have hprepare := prepare_cases env c
  generalize c.prepare env = p at hprepare ⊢
  cases hprepare with
  | refused | noInput => rfl
  | reset =>
      simp only [core, SortedMap.mapValues_mapValues, Core.mk.injEq] at hcore ⊢
      exact hcore
  | ready => exact hcore

@[simp] theorem core_playlistSizeIncrease (c : TRotatorCtrl) :
    c.playlistSizeIncrease.2.core = c.core := by
  rw [playlistSizeIncrease]
  split
  · rfl
  · simp only
    split <;> rfl

/-- The test at the end of a round touches only its counters and the error. -/
theorem playlistSizeIncrease_frame {c d : TRotatorCtrl} {grows : Bool} (h : c.playlistSizeIncrease = (grows, d)) :
    ∃ size counter error,
      d = { c with previosPlaylistSize := size, increaseCounter := counter, error := error } := by
  rw [playlistSizeIncrease] at h
  split at h
  · simp only [Prod.mk.injEq] at h
    exact ⟨_, _, _, h.2.symm⟩
  · simp only at h
    split at h
    · simp only [Prod.mk.injEq] at h
      exact ⟨_, _, _, h.2.symm⟩
    · simp only [Prod.mk.injEq] at h
      exact ⟨_, _, _, h.2.symm⟩

end TRotatorCtrl

open TRotatorCtrl

namespace Machine

@[simp] theorem core_finish (c : TRotatorCtrl) : (finish c).ctrl.core = c.core := rfl

inductive RoundEnd (env : Env) (c : TRotatorCtrl) : Machine → Prop
  | plain (hspecial : c.specialConditions = false) : RoundEnd env c (finish c)
  | givesUp (d : TRotatorCtrl) (hspecial : c.specialConditions = true)
      (hsize : c.playlistSizeIncrease = (false, d)) : RoundEnd env c (finish d)
  | noOrder (d : TRotatorCtrl) (hspecial : c.specialConditions = true)
      (hsize : c.playlistSizeIncrease = (true, d)) (hbegin : (d.prepare env).2.foldersOrder.begin? = none) :
      RoundEnd env c (finish (d.prepare env).2)
  | again (d : TRotatorCtrl) (ito : Int) (hspecial : c.specialConditions = true)
      (hsize : c.playlistSizeIncrease = (true, d))
      (hbegin : (d.prepare env).2.foldersOrder.begin? = some ito) :
      RoundEnd env c ⟨(d.prepare env).2, .outer ito⟩

theorem endRound_cases (env : Env) (c : TRotatorCtrl) : RoundEnd env c (endRound env c) := by
  rw [endRound]
  split
  · rename_i hspecial
    split
    · rename_i d hsize
      exact .givesUp d hspecial hsize
    · rename_i d hsize
      simp only
      split
      · rename_i hbegin
        exact .noOrder d hspecial hsize hbegin
      · rename_i ito hbegin
        exact .again d ito hspecial hsize hbegin
  · rename_i hspecial
    exact .plain (by simpa using hspecial)

inductive VisitEnd (env : Env) (c : TRotatorCtrl) (ito : Int) (toNext : Bool) : Machine → Prop
  | completed (h : c.playlistConstructionCompleted = true) : VisitEnd env c ito toNext (finish c)
  | next (k : Int) (hnot : c.playlistConstructionCompleted = false) (hflag : toNext = true)
      (hk : nextFolder c ito = some k) : VisitEnd env c ito toNext ⟨c, .outer k⟩
  | round (m : Machine) (hnot : c.playlistConstructionCompleted = false)
      (hlast : nextFolder c ito = none ∨ toNext = false) (h : RoundEnd env c m) (heq : m = endRound env c) :
      VisitEnd env c ito toNext m

theorem endVisit_end (env : Env) (c : TRotatorCtrl) (ito : Int) (toNext : Bool) :
    VisitEnd env c ito toNext (endVisit env c ito toNext) := by
  simp only [endVisit]
  split
  · rename_i hcompleted
    exact .completed hcompleted
  · rename_i hcompleted
    have hnot : c.playlistConstructionCompleted = false := by simpa using hcompleted
    cases hnext : nextFolder c ito with
    | none => exact .round _ hnot (.inl hnext) (endRound_cases env c) rfl
    | some k =>
        cases toNext with
        | false => exact .round _ hnot (.inr rfl) (endRound_cases env c) rfl
        | true => exact .next k hnot rfl hnext

inductive CallStart (c : TRotatorCtrl) : Machine → Prop
  | refused (h : arraySize c.array = 0 ∨ c.error > EMPTY_ERROR) :
      CallStart c ⟨{ c with playList := [], previosPlaylistSize := 0, increaseCounter := 0 }, .idle⟩
  | nothing (h : c.order = false ∨ c.hfolders.size = 0) :
      CallStart c (finish { c with playList := [], previosPlaylistSize := 0, increaseCounter := 0 })
  | undefined (horder : c.order = true) (hbegin : c.foldersOrder.begin? = none) :
      CallStart c ⟨{ c with
        playList := [], previosPlaylistSize := 0, increaseCounter := 0, setStartFolder := false }, .undefined⟩
  | first (ito : Int) (harray : arraySize c.array ≠ 0) (herror : ¬ c.error > EMPTY_ERROR) (horder : c.order = true)
      (hbegin : c.foldersOrder.begin? = some ito) :
      CallStart c ⟨{ c with
        playList := [], previosPlaylistSize := 0, increaseCounter := 0, setStartFolder := false }, .outer ito⟩

theorem createPlaylist_cases (c : TRotatorCtrl) : CallStart c (createPlaylist c) := by
  rw [createPlaylist]
  simp only
  split
  · rename_i h
    exact .refused h
  · rename_i hgoes
    obtain ⟨harray, herror⟩ := not_or.mp hgoes
    split
    · rename_i horder
      split
      · rename_i hsize
        exact .nothing (.inr hsize)
      · split
        · rename_i hbegin
          exact .undefined horder hbegin
        · rename_i ito hbegin
          exact .first ito harray herror horder hbegin
    · rename_i horder
      exact .nothing (.inl (by simpa using horder))

@[simp] theorem core_endRound (env : Env) (c : TRotatorCtrl) : (endRound env c).ctrl.core = c.core := by
  have hsize := core_playlistSizeIncrease c
  have hend := endRound_cases env c
  generalize endRound env c = m at hend ⊢
  cases hend with
  | plain => rfl
  | givesUp d _ hd =>
      rw [hd] at hsize
      exact hsize
  | noOrder d _ hd | again d _ _ hd =>
      rw [hd] at hsize
      exact (core_prepare env d).trans hsize

@[simp] theorem core_endVisit (env : Env) (c : TRotatorCtrl) (ito : Int) (toNext : Bool) :
    (endVisit env c ito toNext).ctrl.core = c.core := by
  have hend := endVisit_end env c ito toNext
  generalize endVisit env c ito toNext = m at hend ⊢
  cases hend with
  | completed | next => rfl
  | round _ _ _ _ heq =>
      rw [heq]
      exact core_endRound env c

@[simp] theorem core_createPlaylist (c : TRotatorCtrl) : (createPlaylist c).ctrl.core = c.core := by
  have hstart := createPlaylist_cases c
  generalize createPlaylist c = m at hstart ⊢
  cases hstart <;> rfl

theorem createPlaylist_account (c : TRotatorCtrl) :
    (createPlaylist c).ctrl.playList = [] ∧ (createPlaylist c).ctrl.timer = c.timer := by
  have hstart := createPlaylist_cases c
  generalize createPlaylist c = m at hstart ⊢
  cases hstart <;> exact ⟨rfl, rfl⟩

end Machine

def recordTrack (data : HashTable) : Option (Str × Str) :=
  match findDataInNode data DEFAULT_SINGER, findDataInNode data DEFAULT_TITLE with
  | some (.string singer), some (.string title) => some (singer, title)
  | _, _ => none

/-- What an addition does to the core: one more history entry, under the size
of the history, and one more track. -/
def Core.add (k : Core) (a : Addition) (h : THistory) : Core :=
  { k with mHistory := k.mHistory.insert k.mHistory.size h, added := k.added ++ [a] }

namespace TRotatorCtrl

theorem recordTrack_of_validRecord {data : HashTable} {t : Str × Str} (h : validRecord data = some t) :
    recordTrack data = some t := by
  rw [validRecord] at h
  split at h
  · rename_i hs ht
    split at h
    · rw [recordTrack, hs, ht]
      exact h
    · cases h
  · cases h

theorem recordHistory_of_track {c : TRotatorCtrl} {data : HashTable} {singer title : Str}
    (h : recordTrack data = some (singer, title)) (statistics : Int) :
    c.recordHistory data statistics =
      some (c.mHistory.insert c.mHistory.size ⟨singer, title, statistics + 1⟩) := by
  rw [recordTrack] at h
  split at h
  · rename_i s t hs ht
    simp only [Option.some.injEq, Prod.mk.injEq] at h
    obtain ⟨rfl, rfl⟩ := h
    simp [recordHistory, hs, ht]
  · simp at h

theorem appendPlaylistDuration_fixed {t t' : TTimer} {sd : Option Str}
    (h : t.appendPlaylistDuration sd = some t') :
    t'.hours24 = t.hours24 ∧ t'.defaultTrackDuration = t.defaultTrackDuration := by
  cases sd with
  | none =>
      simp only [TTimer.appendPlaylistDuration, Option.some.injEq] at h
      rw [← h]
      exact ⟨rfl, rfl⟩
  | some s =>
      simp only [TTimer.appendPlaylistDuration, Option.bind_eq_bind, Option.pure_def,
        Option.bind_eq_some_iff, Option.some.injEq] at h
      obtain ⟨v, -, rfl⟩ := h
      exact ⟨rfl, rfl⟩

theorem chargeInterval_cases {c d : TRotatorCtrl} {sd : Option Str} (h : c.chargeInterval sd = some d) :
    c.schedule = false ∧ d = c ∨ c.schedule = true ∧ ∃ sec, c.timer.getSeconds sd = some sec ∧
      (0 < c.timer.remainedInterval - i32 sec ∧ d = { c with timer := c.timer.subRemainedInterval sec } ∨
        c.timer.remainedInterval - i32 sec ≤ 0 ∧
          d = { ({ c with timer := c.timer.subRemainedInterval sec } : TRotatorCtrl).enterSlot c.nextSlot with
            setStartFolder := true }) := by
  rw [chargeInterval] at h
  split at h
  · rename_i hschedule
    simp only [TTimer.remainedIntervalOf, Option.bind_eq_bind, Option.pure_def,
      Option.bind_eq_some_iff, Option.some.injEq] at h
    obtain ⟨t, ⟨sec, hsec, rfl⟩, h⟩ := h
    refine .inr ⟨hschedule, sec, hsec, ?_⟩
    split at h
    · rename_i hle
      simp only [Option.some.injEq] at h
      exact .inr ⟨hle, h.symm⟩
    · rename_i hgt
      simp only [Option.some.injEq] at h
      exact .inl ⟨not_le.mp hgt, h.symm⟩
  · rename_i hschedule
    simp only [Option.some.injEq] at h
    exact .inl ⟨by simpa using hschedule, h.symm⟩

def recorded (c : TRotatorCtrl) (data : HashTable) (h : THistory) (t : TTimer) : TRotatorCtrl :=
  { c with
    playList := c.playList ++ [data]
    mHistory := c.mHistory.insert c.mHistory.size h
    increaseCounter := 0
    timer := t }

theorem addFromFolder_cases {c d : TRotatorCtrl} {hf : THFolders} {folder singer title : Str}
    {data : HashTable} (hvalid : validRecord data = some (singer, title))
    (h : c.addFromFolder hf folder singer title data = some d) :
    ∃ t e, c.timer.appendPlaylistDuration (recordDuration data) = some t ∧
      (c.recorded data ⟨singer, title, hf.statistics + 1⟩ t).chargeInterval (recordDuration data) =
        some e ∧
      d = { e with added := e.added ++ [⟨folder, hf.service, singer, title, data⟩] } := by
  simp only [addFromFolder, addToPlaylist, Option.bind_eq_bind, Option.pure_def,
    Option.bind_eq_some_iff, Option.some.injEq] at h
  obtain ⟨e, ⟨m, hm, t, ht, he⟩, rfl⟩ := h
  rw [recordHistory_of_track (recordTrack_of_validRecord hvalid), Option.some.injEq] at hm
  subst hm
  exact ⟨t, e, ht, he, rfl⟩

theorem core_chargeInterval {c c' : TRotatorCtrl} {sd : Option Str}
    (h : c.chargeInterval sd = some c') : c'.core = c.core := by
  rcases chargeInterval_cases h with ⟨-, rfl⟩ | ⟨-, sec, -, ⟨-, rfl⟩ | ⟨-, rfl⟩⟩
  · rfl
  · rfl
  · exact core_enterSlot _ _

theorem completed_chargeInterval {c d : TRotatorCtrl} {sd : Option Str} (h : c.chargeInterval sd = some d) :
    d.playlistConstructionCompleted = c.playlistConstructionCompleted := by
  have henter (e : TRotatorCtrl) (slot : Option Int) :
      (e.enterSlot slot).playlistConstructionCompleted = e.playlistConstructionCompleted := by
    cases slot <;> rfl
  rcases chargeInterval_cases h with ⟨-, rfl⟩ | ⟨-, sec, -, ⟨-, rfl⟩ | ⟨-, rfl⟩⟩
  · rfl
  · rfl
  · exact henter _ _

theorem core_addToPlaylist {c d : TRotatorCtrl} {data : HashTable} {singer title : Str} {statistics : Int}
    (htrack : recordTrack data = some (singer, title)) (h : c.addToPlaylist data statistics = some d) :
    d.core = { c.core with
      mHistory := c.mHistory.insert c.mHistory.size ⟨singer, title, statistics + 1⟩ } := by
  simp only [addToPlaylist, Option.bind_eq_bind, Option.bind_eq_some_iff] at h
  obtain ⟨m, hm, t, ht, hd⟩ := h
  have hm : m = c.mHistory.insert c.mHistory.size ⟨singer, title, statistics + 1⟩ :=
    Option.some.inj (hm.symm.trans (recordHistory_of_track htrack statistics))
  rw [core_chargeInterval hd, hm]
  simp only [core, appendPlaylistDuration_fixed ht]

theorem core_addFromFolder {c d : TRotatorCtrl} {hf : THFolders} {folder singer title : Str}
    {data : HashTable} (hvalid : validRecord data = some (singer, title))
    (h : c.addFromFolder hf folder singer title data = some d) :
    d.core = c.core.add ⟨folder, hf.service, singer, title, data⟩ ⟨singer, title, hf.statistics + 1⟩ := by
  simp only [addFromFolder, Option.bind_eq_bind, Option.pure_def, Option.bind_eq_some_iff,
    Option.some.injEq] at h
  obtain ⟨e, he, rfl⟩ := h
  have hcore := core_addToPlaylist (recordTrack_of_validRecord hvalid) he
  simp only [core, Core.mk.injEq] at hcore
  simp only [core, Core.add, hcore]

end TRotatorCtrl

@[simp] theorem TRotatorCtrl.whatToDo_setFolder (c : TRotatorCtrl) (name : Str) (hf hf' : THFolders)
    (folder singer title : Str) :
    (c.setFolder name hf').whatToDo hf folder singer title = c.whatToDo hf folder singer title := rfl

theorem TRotatorCtrl.setFolder_setFolder (c : TRotatorCtrl) (folder : Str) (hf hf' : THFolders) :
    (c.setFolder folder hf).setFolder folder hf' = c.setFolder folder hf' := by
  simp only [setFolder, SortedMap.insert_insert]

def Offers (c : TRotatorCtrl) (hf : THFolders) (folder : Str) (data : HashTable) (singer title : Str) : Prop :=
  zendHashIndexFind hf.ht hf.index = some (.array data) ∧ validRecord data = some (singer, title) ∧
    c.whatToDo hf folder singer title = .addToPlaylist

/-- What one try of a folder can do: the flags it hands back and the object it leaves. -/
inductive Tried (c : TRotatorCtrl) (folder : Str) (hf : THFolders) : Bool → TRotatorCtrl → Prop
  | missing (hrecord : ∀ data, zendHashIndexFind hf.ht hf.index ≠ some (.array data)) :
      Tried c folder hf true (c.setFolder folder (advanceFolder hf))
  | skipped (hrecord : ∀ data singer title, ¬ Offers c hf folder data singer title) :
      Tried c folder hf (arraySize hf.ht ≤ (advanceFolder hf).index) (c.setFolder folder (advanceFolder hf))
  | added (data : HashTable) (singer title : Str) (d : TRotatorCtrl)
      (hoffers : Offers c hf folder data singer title)
      (hadd : (c.setFolder folder hf).addFromFolder hf folder singer title data = some d) :
      Tried c folder hf true (d.setFolder folder (advanceFolder hf))

theorem TRotatorCtrl.globalAnalize_tried {c c' : TRotatorCtrl} {folder : Str} {toNext flNext toNext' : Bool}
    (h : c.globalAnalize folder toNext = some (flNext, toNext', c')) :
    ∃ hf, c.hfolders.find? folder = some hf ∧ toNext' = c.endOfFolder hf toNext ∧
      Tried c folder (rewindFolder hf) flNext c' := by
  simp only [globalAnalize, Option.bind_eq_bind, Option.pure_def, Option.bind_eq_some_iff,
    Option.some.injEq, Prod.mk.injEq] at h
  obtain ⟨hf, hfind, ⟨what, d⟩, hrec, rfl, rfl, rfl⟩ := h
  refine ⟨hf, hfind, rfl, ?_⟩
  generalize rewindFolder hf = hf at hrec ⊢
  rw [findRecordInPlaylist] at hrec
  split at hrec
  · rename_i data hdata
    split at hrec
    · rename_i hvalid
      simp only [Option.some.injEq, Prod.mk.injEq] at hrec
      obtain ⟨rfl, rfl⟩ := hrec
      simp only [setFolder_setFolder]
      refine .skipped fun data' singer title hoffers => ?_
      obtain ⟨hdata', hvalid', -⟩ := hoffers
      simp only [hdata, Option.some.injEq, Zval.array.injEq] at hdata'
      simp [← hdata', hvalid] at hvalid'
    · rename_i singer title hvalid
      split at hrec
      · rename_i hwhat
        simp only [Option.bind_eq_bind, Option.pure_def, Option.bind_eq_some_iff,
          Option.some.injEq, Prod.mk.injEq] at hrec
        obtain ⟨e, hadd, rfl, rfl⟩ := hrec
        exact .added data singer title e ⟨hdata, hvalid, hwhat⟩ hadd
      · rename_i hwhat
        simp only [Option.some.injEq, Prod.mk.injEq] at hrec
        obtain ⟨rfl, rfl⟩ := hrec
        simp only [setFolder_setFolder]
        refine .skipped fun data' singer' title' hoffers => ?_
        obtain ⟨hdata', hvalid', hwhat'⟩ := hoffers
        simp only [hdata, Option.some.injEq, Zval.array.injEq] at hdata'
        simp only [← hdata', hvalid, Option.some.injEq, Prod.mk.injEq] at hvalid'
        obtain ⟨rfl, rfl⟩ := hvalid'
        simp [hwhat'] at hwhat
  · rename_i hno
    simp only [Option.some.injEq, Prod.mk.injEq] at hrec
    obtain ⟨rfl, rfl⟩ := hrec
    simp only [setFolder_setFolder]
    exact .missing fun data hdata => hno data hdata

/-- A try of a folder does nothing to the core, or adds the record at the index. -/
theorem Tried.core {c c' : TRotatorCtrl} {folder : Str} {hf : THFolders} {flNext : Bool}
    (htable : c.core.tables.find? folder = some hf.table) (h : Tried c folder hf flNext c') :
    c'.core = c.core ∨ ∃ data singer title, Offers c hf folder data singer title ∧
      c'.core = c.core.add ⟨folder, hf.service, singer, title, data⟩
        ⟨singer, title, hf.statistics + 1⟩ := by
  have hsame : (c.setFolder folder hf).core = c.core := core_setFolder htable
  have hadvance : (c.setFolder folder (advanceFolder hf)).core = c.core :=
    core_setFolder (by rw [htable, THFolders.table_advanceFolder])
  cases h with
  | missing => exact .inl hadvance
  | skipped => exact .inl hadvance
  | added data singer title d hoffers hadd =>
      have hd := core_addFromFolder hoffers.2.1 hadd
      rw [hsame] at hd
      refine .inr ⟨data, singer, title, hoffers, (core_setFolder ?_).trans hd⟩
      rw [hd, Core.add, THFolders.table_advanceFolder]
      exact htable

/-- What one call of `create_playlist` counts and reports. -/
structure Tally where
  constructionComplete : Bool
  error : Nat
  previosPlaylistSize : Int
  playList : List HashTable
  playlistDuration : Int

def TRotatorCtrl.tally (c : TRotatorCtrl) : Tally :=
  ⟨c.constructionComplete, c.error, c.previosPlaylistSize, c.playList, c.timer.playlistDuration⟩

theorem TRotatorCtrl.tally_enterSlot (c : TRotatorCtrl) (slot : Option Int) : (c.enterSlot slot).tally = c.tally := by
  cases slot with
  | none => rfl
  | some key => rfl

theorem TRotatorCtrl.tally_chargeInterval {c d : TRotatorCtrl} {sd : Option Str} (h : c.chargeInterval sd = some d) :
    d.tally = c.tally := by
  rcases chargeInterval_cases h with ⟨-, rfl⟩ | ⟨-, sec, -, ⟨-, rfl⟩ | ⟨-, rfl⟩⟩
  · rfl
  · rfl
  · exact tally_enterSlot _ _

theorem Tried.tally {c d : TRotatorCtrl} {folder : Str} {hf : THFolders} {flNext : Bool}
    (h : Tried c folder hf flNext d) : d.tally = c.tally ∨ flNext = true ∧ ∃ data singer title t,
      Offers c hf folder data singer title ∧ c.timer.appendPlaylistDuration (recordDuration data) = some t ∧
        d.tally = { c.tally with playList := c.playList ++ [data], playlistDuration := t.playlistDuration } := by
  cases h with
  | missing | skipped => exact .inl rfl
  | added data singer title e hoffers hadd =>
      obtain ⟨t, b, ht, hb, rfl⟩ := addFromFolder_cases hoffers.2.1 hadd
      exact .inr ⟨rfl, data, singer, title, t, hoffers, ht, tally_chargeInterval hb⟩

theorem TRotatorCtrl.table_of_find? {c : TRotatorCtrl} {folder : Str} {hf : THFolders}
    (h : c.hfolders.find? folder = some hf) : c.core.tables.find? folder = some (rewindFolder hf).table := by
  rw [core, SortedMap.find?_mapValues, h, Option.map_some, THFolders.table_rewindFolder]

/-- An addition takes place in a try of a folder, with a record the rules allow. -/
def Adds (m : Machine) (a : Addition) (h : THistory) : Prop :=
  ∃ ito folder toNext hf data,
    m.control = .inner ito folder toNext ∧ m.ctrl.hfolders.find? folder = some hf ∧
    Offers m.ctrl (rewindFolder hf) folder data h.singer h.title ∧
    a = ⟨folder, hf.service, h.singer, h.title, data⟩

namespace Machine

def Stopped (m : Machine) : Prop := m.control = .idle ∨ m.control = .undefined

theorem tick_of_stopped (env : Env) {m : Machine} (h : Stopped m) : tick env m = m := by
  rw [tick]
  rcases h with h | h <;> rw [h]

/-- What one pass of a loop of `analise_folders_by_order` can do. -/
inductive Pass (env : Env) (m : Machine) : Machine → Prop
  | stopped (h : Stopped m) : Pass env m m
  | undefined (fl : Bool) (hgoing : ¬ Stopped m) : Pass env m ⟨{ m.ctrl with setStartFolder := fl }, .undefined⟩
  | begins (ito k : Int) (folder : Str) (hcontrol : m.control = .outer ito)
      (hk : (if m.ctrl.setStartFolder then m.ctrl.foldersOrder.begin? else some ito) = some k)
      (hfolder : m.ctrl.foldersOrder.find? k = some folder) :
      Pass env m ⟨{ m.ctrl with setStartFolder := false }, .inner k folder true⟩
  | stays (ito : Int) (folder : Str) (toNext : Bool) (hf : THFolders) (c : TRotatorCtrl)
      (hcontrol : m.control = .inner ito folder toNext)
      (hana : m.ctrl.globalAnalize folder toNext = some (false, m.ctrl.endOfFolder hf toNext, c))
      (hfind : m.ctrl.hfolders.find? folder = some hf) (htried : Tried m.ctrl folder (rewindFolder hf) false c) :
      Pass env m ⟨c, .inner ito folder (m.ctrl.endOfFolder hf toNext)⟩
  | leaves (ito : Int) (folder : Str) (toNext : Bool) (hf : THFolders) (c : TRotatorCtrl)
      (hcontrol : m.control = .inner ito folder toNext)
      (hana : m.ctrl.globalAnalize folder toNext = some (true, m.ctrl.endOfFolder hf toNext, c))
      (hfind : m.ctrl.hfolders.find? folder = some hf) (htried : Tried m.ctrl folder (rewindFolder hf) true c) :
      Pass env m (endVisit env c ito (m.ctrl.endOfFolder hf toNext))

theorem tick_pass (env : Env) (m : Machine) : Pass env m (tick env m) := by
  cases hcontrol : m.control with
  | idle =>
      rw [tick_of_stopped env (.inl hcontrol)]
      exact .stopped (.inl hcontrol)
  | undefined =>
      rw [tick_of_stopped env (.inr hcontrol)]
      exact .stopped (.inr hcontrol)
  | outer ito =>
      have hgoing : ¬ Stopped m := by simp [Stopped, hcontrol]
      simp only [tick, hcontrol]
      split
      · exact .undefined false hgoing
      · rename_i k hk
        split
        · exact .undefined false hgoing
        · rename_i folder hfolder
          exact .begins ito k folder hcontrol hk hfolder
  | inner ito folder toNext =>
      have hgoing : ¬ Stopped m := by simp [Stopped, hcontrol]
      simp only [tick, hcontrol]
      split
      · exact .undefined m.ctrl.setStartFolder hgoing
      · rename_i toNext' c hana
        obtain ⟨hf, hfind, rfl, htried⟩ := globalAnalize_tried hana
        exact .stays ito folder toNext hf c hcontrol hana hfind htried
      · rename_i toNext' c hana
        obtain ⟨hf, hfind, rfl, htried⟩ := globalAnalize_tried hana
        exact .leaves ito folder toNext hf c hcontrol hana hfind htried

theorem step_core (env : Env) (m : Machine) (e : Event) :
    (step env m e).ctrl.core = m.ctrl.core ∨
      ∃ a h, Adds m a h ∧ (step env m e).ctrl.core = m.ctrl.core.add a h := by
  cases e with
  | createPlaylist =>
      refine .inl ?_
      simp only [step]
      split
      · exact core_createPlaylist m.ctrl
      · rfl
  | prepare =>
      refine .inl ?_
      simp only [step]
      split
      · exact core_prepare env m.ctrl
      · rfl
  | tick =>
      have hadds {ito : Int} {folder : Str} {toNext flNext : Bool} {hf : THFolders} {c : TRotatorCtrl}
          (hcontrol : m.control = .inner ito folder toNext) (hfind : m.ctrl.hfolders.find? folder = some hf)
          (htried : Tried m.ctrl folder (rewindFolder hf) flNext c) :
          c.core = m.ctrl.core ∨ ∃ a h, Adds m a h ∧ c.core = m.ctrl.core.add a h := by
        have hservice : (rewindFolder hf).service = hf.service :=
          congrArg Prod.snd (THFolders.table_rewindFolder hf)
        rcases htried.core (table_of_find? hfind) with h | ⟨data, singer, title, hoffers, h⟩
        · exact .inl h
        · rw [hservice] at h
          exact .inr ⟨_, _, ⟨ito, folder, toNext, hf, data, hcontrol, hfind, hoffers, rfl⟩, h⟩
      have hpass := tick_pass env m
      rw [step]
      generalize tick env m = t at hpass ⊢
      cases hpass with
      | stopped | undefined | begins => exact .inl rfl
      | stays _ _ _ _ _ hcontrol _ hfind htried => exact hadds hcontrol hfind htried
      | leaves _ _ _ _ _ hcontrol _ hfind htried =>
          rw [core_endVisit]
          exact hadds hcontrol hfind htried

theorem endRound_stopped {env : Env} {c : TRotatorCtrl}
    (h : ¬ (c.specialConditions = true ∧ c.playlistSizeIncrease.1 = true)) :
    Stopped (endRound env c) := by
  have hend := endRound_cases env c
  generalize endRound env c = m at hend ⊢
  cases hend with
  | plain | givesUp | noOrder => exact .inl rfl
  | again d _ hspecial hd => exact absurd ⟨hspecial, by rw [hd]⟩ h

theorem tick_outer (env : Env) {m : Machine} {ito : Int} (hcontrol : m.control = .outer ito) :
    (tick env m).control = .undefined ∨ ∃ k folder,
      (if m.ctrl.setStartFolder then m.ctrl.foldersOrder.begin? else some ito) = some k ∧
      m.ctrl.foldersOrder.find? k = some folder ∧
      tick env m = ⟨{ m.ctrl with setStartFolder := false }, .inner k folder true⟩ := by
  have hpass := tick_pass env m
  generalize tick env m = t at hpass ⊢
  cases hpass with
  | stopped h => simp [Stopped, hcontrol] at h
  | undefined => exact .inl rfl
  | begins ito' k folder h hk hfolder =>
      rw [hcontrol, Control.outer.injEq] at h
      exact .inr ⟨k, folder, h ▸ hk, hfolder, rfl⟩
  | stays _ _ _ _ _ h => simp [hcontrol] at h
  | leaves _ _ _ _ _ h => simp [hcontrol] at h

theorem tick_inner (env : Env) {m : Machine} {ito : Int} {folder : Str} {toNext : Bool}
    (hcontrol : m.control = .inner ito folder toNext) :
    (tick env m).control = .undefined ∨ ∃ hf flNext c,
      m.ctrl.hfolders.find? folder = some hf ∧ Tried m.ctrl folder (rewindFolder hf) flNext c ∧
        (flNext = false ∧ tick env m = ⟨c, .inner ito folder (m.ctrl.endOfFolder hf toNext)⟩ ∨
          flNext = true ∧ tick env m = endVisit env c ito (m.ctrl.endOfFolder hf toNext)) := by
  have hpass := tick_pass env m
  generalize tick env m = t at hpass ⊢
  cases hpass with
  | stopped h => simp [Stopped, hcontrol] at h
  | undefined => exact .inl rfl
  | begins _ _ _ h => simp [hcontrol] at h
  | stays ito' folder' toNext' hf c h hana hfind htried =>
      rw [hcontrol, Control.inner.injEq] at h
      obtain ⟨rfl, rfl, rfl⟩ := h
      exact .inr ⟨hf, false, c, hfind, htried, .inl ⟨rfl, rfl⟩⟩
  | leaves ito' folder' toNext' hf c h hana hfind htried =>
      rw [hcontrol, Control.inner.injEq] at h
      obtain ⟨rfl, rfl, rfl⟩ := h
      exact .inr ⟨hf, true, c, hfind, htried, .inr ⟨rfl, rfl⟩⟩

theorem endVisit_cases (env : Env) (c : TRotatorCtrl) (ito : Int) (toNext : Bool) :
    Stopped (endVisit env c ito toNext) ∨ c.playlistConstructionCompleted = false ∧
      ((∃ k, toNext = true ∧ nextFolder c ito = some k ∧ endVisit env c ito toNext = ⟨c, .outer k⟩) ∨
        (nextFolder c ito = none ∨ toNext = false) ∧ endVisit env c ito toNext = endRound env c) := by
  generalize heq : endVisit env c ito toNext = m
  have hend := endVisit_end env c ito toNext
  rw [heq] at hend
  cases hend with
  | completed => exact .inl (.inl rfl)
  | next k hnot hflag hk => exact .inr ⟨hnot, .inl ⟨k, hflag, hk, rfl⟩⟩
  | round _ hnot hlast _ heq => exact .inr ⟨hnot, .inr ⟨hlast, heq⟩⟩

theorem run_frame {α : Type*} (f : Core → α) (hf : ∀ k a h, f (k.add a h) = f k) (env : Env)
    (c : TRotatorCtrl) (es : List Event) : f (run env c es).ctrl.core = f c.core := by
  refine Runs.run_frame (fun m : Machine => f m.ctrl.core) (fun m e => ?_) (start c) es
  rcases step_core env m e with hsame | ⟨a, h, -, hcore⟩
  · rw [hsame]
  · rw [hcore, hf]

end Machine

end RadioServices.Rotator

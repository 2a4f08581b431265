import RadioServices.Rotator.Completion
import RadioServices.Rotator.Order

namespace RadioServices.Rotator.Stock

open Lib Lib.C TRotatorCtrl Machine Termination FolderOrder

/-- The object as the loops would find it if there were no limit on the tracks. -/
def unlimited (c : TRotatorCtrl) : TRotatorCtrl := { c with maxTracks := 0 }

def withoutLimit (m : Machine) : Machine := ⟨unlimited m.ctrl, m.control⟩

/-- The folders supply that many tracks: without a limit the loops add them before they give up. -/
def Supplies (env : Env) (c : TRotatorCtrl) (n : Int) : Prop :=
  ∃ k, n ≤ (passes env (unlimited c) k).ctrl.size

section Commutes

variable {env : Env} {c d : TRotatorCtrl} {m : Machine}

@[simp] theorem unlimited_foldersOrder (c : TRotatorCtrl) : (unlimited c).foldersOrder = c.foldersOrder := rfl

theorem addToPlaylist_unlimited (h : c.schedule = false) (data : HashTable) (statistics : Int) :
    (unlimited c).addToPlaylist data statistics = (c.addToPlaylist data statistics).map unlimited := by
  simp only [addToPlaylist, Option.bind_eq_bind]
  change ((recordHistory { c with playList := c.playList ++ [data] } data statistics).bind _) = _
  cases recordHistory { c with playList := c.playList ++ [data] } data statistics with
  | none => rfl
  | some m =>
      simp only [Option.bind_some]
      change ((c.timer.appendPlaylistDuration (recordDuration data)).bind _) = _
      cases c.timer.appendPlaylistDuration (recordDuration data) with
      | none => rfl
      | some t => simp [chargeInterval, unlimited, h]

theorem findRecordInPlaylist_unlimited (h : c.schedule = false) (hf : THFolders) (folder : Str) :
    (unlimited c).findRecordInPlaylist hf folder =
      (c.findRecordInPlaylist hf folder).map fun r => (r.1, unlimited r.2) := by
  rw [findRecordInPlaylist, findRecordInPlaylist]
  split
  · split
    · rfl
    · have hwhat (singer title : Str) : (unlimited c).whatToDo hf folder singer title =
          c.whatToDo hf folder singer title := rfl
      simp only [hwhat]
      split
      · simp only [addFromFolder, addToPlaylist_unlimited h, Option.bind_eq_bind]
        cases c.addToPlaylist _ hf.statistics <;> rfl
      · rfl
  · rfl

theorem globalAnalize_unlimited (h : c.schedule = false) (folder : Str) (toNext : Bool) :
    (unlimited c).globalAnalize folder toNext =
      (c.globalAnalize folder toNext).map fun r => (r.1, r.2.1, unlimited r.2.2) := by
  simp only [globalAnalize, Option.bind_eq_bind]
  change (c.hfolders.find? folder).bind _ = _
  cases c.hfolders.find? folder with
  | none => rfl
  | some hf =>
      simp only [Option.bind_some]
      have hfind := findRecordInPlaylist_unlimited (c := c.setFolder folder (rewindFolder hf)) h (rewindFolder hf) folder
      change ((unlimited (c.setFolder folder (rewindFolder hf))).findRecordInPlaylist _ _).bind _ = _
      rw [hfind]
      cases (c.setFolder folder (rewindFolder hf)).findRecordInPlaylist (rewindFolder hf) folder <;> rfl

theorem playlistSizeIncrease_unlimited (c : TRotatorCtrl) :
    (unlimited c).playlistSizeIncrease = (c.playlistSizeIncrease.1, unlimited c.playlistSizeIncrease.2) := by
  rw [playlistSizeIncrease, playlistSizeIncrease]
  change (if c.previosPlaylistSize < c.size then _ else _) = _
  split
  · rfl
  · change (if MAX_INCREASE_COUNTER < c.increaseCounter + 1 then _ else _) = _
    simp only
    split <;> rfl

theorem searchOrder_unlimited (env : Env) (c : TRotatorCtrl) (arr : HashTable) :
    (unlimited c).searchOrder env arr = unlimited (c.searchOrder env arr) := by
  have hview : orderView ((unlimited c).searchOrder env arr) = orderView (c.searchOrder env arr) :=
    searchOrder_congr rfl
  simp only [orderView, Prod.mk.injEq] at hview
  rw [searchOrder_frame env (unlimited c), hview.1, hview.2.1, hview.2.2, searchOrder_frame env c]
  rfl

theorem prepare_unlimited (h : c.schedule = false) (env : Env) :
    ((unlimited c).prepare env).2 = unlimited (c.prepare env).2 := by
  have horder : (unlimited c).prepareOrder env = unlimited (c.prepareOrder env) := by
    have h' : (unlimited c).schedule = false := h
    simp only [prepareOrder, h', h, Bool.false_eq_true, if_false]
    change (if c.constructionComplete then _ else _) = _
    split
    · exact searchOrder_unlimited env c c.array
    · rfl
  rw [prepare, prepare]
  change (Prod.snd (if c.error ≠ EMPTY_ERROR then _ else if arraySize c.array = 0 then _ else _)) = _
  split
  · rfl
  · split
    · rfl
    · simp only [horder]
      change (Prod.snd (if (c.prepareOrder env).constructionComplete then _ else _)) = _
      split <;> rfl

theorem endRound_unlimited (h : c.schedule = false) (env : Env) :
    endRound env (unlimited c) = withoutLimit (endRound env c) := by
  rw [endRound, endRound, playlistSizeIncrease_unlimited]
  change (if c.specialConditions then _ else _) = _
  split
  · cases hsize : c.playlistSizeIncrease with
    | mk grows d =>
        cases grows with
        | false => rfl
        | true =>
            have hd : d.schedule = false := by
              obtain ⟨_, _, _, rfl⟩ := playlistSizeIncrease_frame hsize
              exact h
            simp only [prepare_unlimited hd, unlimited_foldersOrder]
            cases (d.prepare env).2.foldersOrder.begin? <;> rfl
  · rfl

theorem endVisit_unlimited (h : c.schedule = false) (hduration : c.generalDuration = none) (env : Env) (ito : Int)
    (toNext : Bool) (hnot : c.playlistConstructionCompleted = false) :
    endVisit env (unlimited c) ito toNext = withoutLimit (endVisit env c ito toNext) := by
  have hnot' : (unlimited c).playlistConstructionCompleted = false := by
    simp [playlistConstructionCompleted, unlimited, h, hduration]
  have hnext : nextFolder (unlimited c) ito = nextFolder c ito := rfl
  simp only [endVisit, hnot, hnot', hnext, Bool.false_eq_true, if_false, endRound_unlimited h]
  cases nextFolder c ito with
  | none => rfl
  | some k => cases toNext <;> rfl

theorem createPlaylist_unlimited (c : TRotatorCtrl) :
    createPlaylist (unlimited c) = withoutLimit (createPlaylist c) := by
  by_cases hstop : arraySize c.array = 0 ∨ c.error > EMPTY_ERROR
  · simp only [createPlaylist, unlimited, withoutLimit, hstop, if_true]
  · by_cases horder : c.order = true
    · by_cases hempty : c.hfolders.size = 0
      · simp only [createPlaylist, unlimited, withoutLimit, finish, hstop, horder, hempty, if_true, if_false]
      · cases hfirst : c.foldersOrder.begin? <;>
          simp only [createPlaylist, unlimited, withoutLimit, hstop, horder, hempty, hfirst, if_true, if_false]
    · simp only [createPlaylist, unlimited, withoutLimit, finish, hstop, horder, Bool.false_eq_true, if_false]

theorem tick_outer_withoutLimit (env : Env) {ito : Int} (hcontrol : m.control = .outer ito) :
    tick env (withoutLimit m) = withoutLimit (tick env m) := by
  obtain ⟨c, control⟩ := m
  obtain rfl : control = .outer ito := hcontrol
  cases hstart : c.setStartFolder with
  | false => cases hfolder : c.foldersOrder.find? ito <;> simp [tick, withoutLimit, unlimited, hstart, hfolder]
  | true =>
      cases hfirst : c.foldersOrder.begin? with
      | none => simp [tick, withoutLimit, unlimited, hstart, hfirst]
      | some k => cases hfolder : c.foldersOrder.find? k <;> simp [tick, withoutLimit, unlimited, hstart, hfirst, hfolder]

/-- A try of a folder is the same without the limit, as far as the visit goes. -/
theorem tick_inner_withoutLimit (h : m.ctrl.schedule = false) (env : Env) {ito : Int} {folder : Str}
    {toNext last next : Bool} (hcontrol : m.control = .inner ito folder toNext)
    (hana : m.ctrl.globalAnalize folder toNext = some (last, next, d)) :
    tick env (withoutLimit m) =
      if last then endVisit env (unlimited d) ito next else ⟨unlimited d, .inner ito folder next⟩ := by
  obtain ⟨c, control⟩ := m
  obtain rfl : control = .inner ito folder toNext := hcontrol
  have hsame := globalAnalize_unlimited h folder toNext
  simp only [hana, Option.map_some] at hsame
  simp only [tick, withoutLimit, hsame]
  cases last <;> rfl

end Commutes

section Size

variable {env : Env} {m : Machine}

theorem size_tick_le (env : Env) (m : Machine) : m.ctrl.size ≤ (tick env m).ctrl.size := by
  have htried {folder : Str} {hf : THFolders} {flNext : Bool} {d : TRotatorCtrl}
      (h : Tried m.ctrl folder hf flNext d) : m.ctrl.size ≤ d.size := by
    rcases h.tally with heq | ⟨-, data, singer, title, t, -, -, heq⟩
    · exact (Completion.size_of_tally heq).ge
    · have hplay : d.playList = m.ctrl.playList ++ [data] := congrArg Tally.playList heq
      rw [size, size, hplay, List.length_append]
      omega
  have hpass := tick_pass env m
  generalize tick env m = t at hpass ⊢
  cases hpass with
  | stopped | undefined | begins => exact le_rfl
  | stays _ _ _ _ _ _ _ _ h => exact htried h
  | leaves _ _ _ _ d _ _ _ h =>
      rw [size, size, playList_endVisit]
      exact htried h

theorem size_passes_mono (env : Env) (c : TRotatorCtrl) {n k : Nat} (h : n ≤ k) :
    (passes env c n).ctrl.size ≤ (passes env c k).ctrl.size := by
  refine monotone_nat_of_le_succ (f := fun n => (passes env c n).ctrl.size) (fun n => ?_) h
  rw [passes_add env c n 1]
  exact size_tick_le env _

theorem Supplies.mono {c : TRotatorCtrl} {x y : Int} (h : Supplies env c y) (hle : x ≤ y) : Supplies env c x := by
  obtain ⟨k, hk⟩ := h
  exact ⟨k, hle.trans hk⟩

end Size

end RadioServices.Rotator.Stock

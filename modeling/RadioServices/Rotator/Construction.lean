import RadioServices.Rotator.Steps

namespace RadioServices.Rotator

open Lib Lib.C TRotatorCtrl

def HasFolders (arr : HashTable) : Prop :=
  ∃ ht, getNodePtr arr DEFAULT_FOLDERS = some ht ∧ arraySize ht ≠ 0

def loadHistory (env : Env) (arr : HashTable) : Option MHistory :=
  match getNodePtr arr DEFAULT_HISTORY with
  | none => some .empty
  | some ht => ht.foldlM (searchHistoryEntry env ht) .empty

/-- Without folders nothing but the rules is read. -/
structure NoFolders (k : Core) : Prop where
  schedule : k.schedule = false
  tables : k.tables = .empty
  history : k.mHistory = .empty
  added : k.added = []

theorem HasFolders.arraySize_ne_zero {arr : HashTable} (h : HasFolders arr) : arraySize arr ≠ 0 := by
  intro hempty
  obtain ⟨ht, hnode, -⟩ := h
  obtain rfl : arr = [] := List.length_eq_zero_iff.mp hempty
  simp [getNodePtr, findDataInNode, zendHashFind] at hnode

section Construction

structure Built (arr : HashTable) (k : Core) : Prop where
  array : k.array = arr
  history : k.mHistory = .empty
  added : k.added = []
  limits : ∀ folder r, k.mRules.find? folder = some r →
    r.singerLimit = k.sRules.singerLimit ∧ r.trackLimit = k.sRules.trackLimit

variable {arr : HashTable} {c d : TRotatorCtrl}

theorem searchTracks_core {node : Zval} {key : Str} (h : c.searchTracks node key = some d) :
    { d.core with tables := c.core.tables } = c.core := by
  simp only [searchTracks] at h
  split at h
  · split at h
    · simp only [Option.some.injEq] at h; rw [← h]
    · split at h
      · simp only [Option.some.injEq] at h; rw [← h]
      · simp only [Option.some.injEq] at h
        rw [← h]; rfl
  · simp only [Option.some.injEq] at h; rw [← h]
  · simp at h

theorem searchFolder_built {e : ZendKey × Zval} (h : c.searchFolder e = some d) (hc : Built arr c.core) :
    Built arr d.core := by
  rw [searchFolder] at h
  split at h
  · simp only [Option.some.injEq] at h; rw [← h]; exact hc
  · simp only [Option.bind_eq_bind, Option.pure_def, Option.bind_eq_some_iff] at h
    obtain ⟨t, ht, h⟩ := h
    have hcore := searchTracks_core ht
    have hbuilt : Built arr { t.core with tables := c.core.tables } := hcore ▸ hc
    split at h
    · simp only [Option.some.injEq] at h
      rw [← h]
      refine ⟨hbuilt.array, hbuilt.history, hbuilt.added, fun folder r hfind => ?_⟩
      rcases SortedMap.find?_insert_cases hfind with ⟨-, rfl⟩ | ⟨-, hold⟩
      · exact ⟨rfl, rfl⟩
      · exact hbuilt.limits folder r hold
    · simp only [Option.some.injEq] at h
      rw [← h]
      exact ⟨hbuilt.array, hbuilt.history, hbuilt.added, hbuilt.limits⟩

theorem searchTracks_frame {node : Zval} {key : Str} (h : c.searchTracks node key = some d) :
    d = { c with maxHtSize := d.maxHtSize, folders := d.folders, hfolders := d.hfolders } := by
  simp only [searchTracks] at h
  split at h
  · split at h
    · simp only [Option.some.injEq] at h; rw [← h]
    · split at h
      · simp only [Option.some.injEq] at h; rw [← h]
      · simp only [Option.some.injEq] at h
        rw [← h]; rfl
  · simp only [Option.some.injEq] at h; rw [← h]
  · simp at h

theorem searchFolder_frame {e : ZendKey × Zval} (h : c.searchFolder e = some d) :
    d = { c with maxHtSize := d.maxHtSize, folders := d.folders, hfolders := d.hfolders, mRules := d.mRules } := by
  rw [searchFolder] at h
  split at h
  · simp only [Option.some.injEq] at h; rw [← h]
  · simp only [Option.bind_eq_bind, Option.pure_def, Option.bind_eq_some_iff] at h
    obtain ⟨t, ht, h⟩ := h
    have hframe := searchTracks_frame ht
    split at h
    · simp only [Option.some.injEq] at h
      rw [← h, hframe]
    · simp only [Option.some.injEq] at h
      rw [← h, hframe]

theorem foldlM_searchFolder_frame {l : HashTable} (h : l.foldlM searchFolder c = some d) :
    d = { c with maxHtSize := d.maxHtSize, folders := d.folders, hfolders := d.hfolders, mRules := d.mRules } :=
  Runs.foldlM_invariant
    (fun b => b = { c with maxHtSize := b.maxHtSize, folders := b.folders, hfolders := b.hfolders, mRules := b.mRules })
    (fun b e b' hb hframe => by
      have hnext := searchFolder_frame hb
      rw [hframe] at hnext
      exact hnext) h rfl

theorem foldlM_searchFolder_array {l : HashTable} (h : l.foldlM searchFolder c = some d) : d.array = c.array := by
  rw [foldlM_searchFolder_frame h]

theorem searchFolders_cases {found : Bool} (h : c.searchFolders arr = some (found, d)) :
    found = false ∧ ¬ HasFolders arr ∧ d = c ∨
      found = true ∧ HasFolders arr ∧ ∃ ht : HashTable, ht.foldlM searchFolder c = some d := by
  rw [searchFolders] at h
  split at h
  · rename_i hnode
    simp only [Option.some.injEq, Prod.mk.injEq] at h
    refine .inl ⟨h.1.symm, ?_, h.2.symm⟩
    rintro ⟨ht, hnode', -⟩
    rw [hnode] at hnode'
    simp at hnode'
  · rename_i ht hnode
    split at h
    · rename_i hempty
      simp only [Option.some.injEq, Prod.mk.injEq] at h
      refine .inl ⟨h.1.symm, ?_, h.2.symm⟩
      rintro ⟨ht', hnode', hsize⟩
      rw [hnode, Option.some.injEq] at hnode'
      exact hsize (hnode' ▸ hempty)
    · rename_i hsize
      simp only [Option.bind_eq_bind, Option.pure_def, Option.bind_eq_some_iff, Option.some.injEq,
        Prod.mk.injEq] at h
      obtain ⟨t, ht', hfound, rfl⟩ := h
      exact .inr ⟨hfound.symm, ⟨ht, hnode, hsize⟩, ht, ht'⟩

theorem searchSchedule_built (env : Env) (hc : Built arr c.core) :
    Built arr (c.searchSchedule env arr).core := by
  have hrest (e : TRotatorCtrl) (h : e.array = c.array ∧ e.mHistory = c.mHistory ∧ e.added = c.added ∧
      e.mRules = c.mRules ∧ e.sRules = c.sRules) : Built arr e.core := by
    obtain ⟨h1, h2, h3, h4, h5⟩ := h
    exact ⟨h1.trans hc.array, h2.trans hc.history, h3.trans hc.added, by
      simp only [core, h4, h5]; exact hc.limits⟩
  rw [searchSchedule]
  split
  · exact hrest _ ⟨rfl, rfl, rfl, rfl, rfl⟩
  · split
    · exact hrest _ ⟨rfl, rfl, rfl, rfl, rfl⟩
    · simp only [startSchedule]
      split
      · exact hrest _ ⟨rfl, rfl, rfl, rfl, rfl⟩
      · exact hrest _ ⟨rfl, rfl, rfl, rfl, rfl⟩

theorem orderFolders_built (env : Env) (hc : Built arr c.core) :
    Built arr (c.orderFolders env arr).core := by
  unfold orderFolders
  simp only
  split
  · exact searchSchedule_built env hc
  · rw [core_searchOrder]; exact searchSchedule_built env hc

theorem searchHistory_eq {env : Env} (h : c.searchHistory env arr = some d) :
    ∃ m, d = { c with mHistory := m } ∧ (c.mHistory = .empty → loadHistory env arr = some m) := by
  rw [searchHistory] at h
  split at h
  · rename_i hnode
    simp only [Option.some.injEq] at h
    exact ⟨c.mHistory, h.symm, fun hempty => by rw [loadHistory, hnode, hempty]⟩
  · rename_i ht hnode
    simp only [Option.bind_eq_bind, Option.pure_def, Option.bind_eq_some_iff, Option.some.injEq] at h
    obtain ⟨m, hm, rfl⟩ := h
    exact ⟨m, rfl, fun hempty => by rw [loadHistory, hnode, ← hm, hempty]⟩

/-- How far a construction gets: to the empty input, to the missing folders, or to its end. -/
theorem onInit_stages {env : Env} (h : c.onInit env = some d) :
    arraySize c.array = 0 ∧ d = { c with error := INPUT_ARRAY_ERROR } ∨
      arraySize c.array ≠ 0 ∧ (¬ HasFolders c.array ∧ d = { c with sRules := c.searchRules c.array true } ∨
        HasFolders c.array ∧ ∃ (ht : HashTable) (e : TRotatorCtrl) (m : MHistory),
          ht.foldlM searchFolder { c with sRules := c.searchRules c.array true } = some e ∧
          ((e.orderFolders env c.array).mHistory = .empty → loadHistory env c.array = some m) ∧
          d = { e.orderFolders env c.array with
            mHistory := m
            constructionComplete := false
            specialConditions := (e.orderFolders env c.array).hasSpecialConditions }) := by
  rw [onInit] at h
  split at h
  · rename_i hempty
    simp only [Option.some.injEq] at h
    exact .inl ⟨hempty, h.symm⟩
  · rename_i hsome
    simp only [Option.bind_eq_bind, Option.bind_eq_some_iff] at h
    obtain ⟨⟨found, e⟩, he, h⟩ := h
    rcases searchFolders_cases he with ⟨hno, hnone, rfl⟩ | ⟨hyes, hfolders, ht, hfold⟩
    · rw [if_neg (by simp [hno])] at h
      simp only [Option.pure_def, Option.some.injEq] at h
      exact .inr ⟨hsome, .inl ⟨hnone, h.symm⟩⟩
    · have harray := foldlM_searchFolder_array hfold
      rw [if_pos hyes] at h
      simp only [onInitOrder, harray, Option.bind_eq_bind, Option.bind_eq_some_iff, Option.pure_def,
        Option.some.injEq] at h
      obtain ⟨b, hb, rfl⟩ := h
      obtain ⟨m, rfl, hm⟩ := searchHistory_eq hb
      exact .inr ⟨hsome, .inr ⟨hfolders, ht, e, m, hfold, hm, rfl⟩⟩

theorem onInit_cases {env : Env} {n : Int} {g : Option Str} {t : TTimer}
    (h : (init env arr n g t).onInit env = some d) :
    ¬ HasFolders arr ∧ NoFolders d.core ∨
      HasFolders arr ∧ ∃ (e : TRotatorCtrl) (m : MHistory), Built arr e.core ∧
        loadHistory env arr = some m ∧
        d.core = { e.core with mHistory := m, specialConditions := d.specialConditions } := by
  rcases onInit_stages h with ⟨hempty, rfl⟩ | ⟨-, ⟨hnone, rfl⟩ | ⟨hsome, ht, e, m, hfold, hm, rfl⟩⟩
  · exact .inl ⟨fun hsome => hsome.arraySize_ne_zero hempty, rfl, rfl, rfl, rfl⟩
  · exact .inl ⟨hnone, rfl, rfl, rfl, rfl⟩
  · have hstart : Built arr { init env arr n g t with
        sRules := (init env arr n g t).searchRules (init env arr n g t).array true }.core :=
      ⟨rfl, rfl, rfl, fun folder r hfind => by simp [core, init, SortedMap.find?, SortedMap.lookupEntries] at hfind⟩
    have hbuilt : Built arr e.core :=
      Runs.foldlM_invariant _ (fun _ _ _ he hb => searchFolder_built he hb) hfold hstart
    have horder := orderFolders_built env hbuilt
    exact .inr ⟨hsome, _, m, horder, hm horder.history, rfl⟩

end Construction

theorem new_init {env : Env} {arr : HashTable} {arg : Param} {c : TRotatorCtrl}
    (h : new env arr arg = some c) :
    ∃ n g s t, TTimer.new s = some t ∧ (init env arr n g t).onInit env = some c := by
  cases arg with
  | none | maxTracks | generalDuration =>
      simp only [new, Option.bind_eq_bind, Option.bind_eq_some_iff] at h
      obtain ⟨t, ht, h⟩ := h
      exact ⟨_, _, _, t, ht, h⟩

theorem new_cases {env : Env} {arr : HashTable} {arg : Param} {c : TRotatorCtrl}
    (h : new env arr arg = some c) :
    ¬ HasFolders arr ∧ NoFolders c.core ∨
      HasFolders arr ∧ ∃ (e : TRotatorCtrl) (m : MHistory), Built arr e.core ∧
        loadHistory env arr = some m ∧
        c.core = { e.core with mHistory := m, specialConditions := c.specialConditions } := by
  obtain ⟨n, g, s, t, -, hinit⟩ := new_init h
  exact onInit_cases hinit

theorem searchOrder_frame (env : Env) (c : TRotatorCtrl) (arr : HashTable) :
    c.searchOrder env arr = { c with
      foldersOrder := (c.searchOrder env arr).foldersOrder
      maxHtSize := (c.searchOrder env arr).maxHtSize
      order := (c.searchOrder env arr).order } := by
  have hdefault : ∀ (l : List ((Str × THFolders) × Nat)) (d : TRotatorCtrl), l.foldl defaultOrderEntry d = { d with
      foldersOrder := (l.foldl defaultOrderEntry d).foldersOrder
      maxHtSize := (l.foldl defaultOrderEntry d).maxHtSize } := fun l d =>
    List.foldlRecOn (motive := fun b : TRotatorCtrl =>
        b = { d with foldersOrder := b.foldersOrder, maxHtSize := b.maxHtSize }) l _ rfl fun b hb e _ => by
      rw [hb]
      rfl
  have hgiven : ∀ (l : HashTable) (d : TRotatorCtrl), l.foldl (searchOrderEntry env) d = { d with
      foldersOrder := (l.foldl (searchOrderEntry env) d).foldersOrder
      maxHtSize := (l.foldl (searchOrderEntry env) d).maxHtSize } := fun l d =>
    List.foldlRecOn (motive := fun b : TRotatorCtrl =>
        b = { d with foldersOrder := b.foldersOrder, maxHtSize := b.maxHtSize }) l _ rfl fun b hb e _ => by
      rw [hb, searchOrderEntry]
      split
      · split <;> rfl
      · rfl
  rw [searchOrder]
  cases getNodePtr arr DEFAULT_ORDER with
  | none =>
      simp only
      rw [hdefault]
  | some ht =>
      simp only
      split
      · rw [hdefault]
      · rw [hgiven]

theorem tally_prepareOrder (env : Env) (c : TRotatorCtrl) : (c.prepareOrder env).tally = c.tally := by
  rw [prepareOrder]
  split
  · rw [createScheduleOrder, tally_enterSlot]
    split <;> rfl
  · split
    · rw [searchOrder_frame]
      rfl
    · rfl

theorem playList_prepare (env : Env) (c : TRotatorCtrl) : (c.prepare env).2.playList = c.playList := by
  have horder : (c.prepareOrder env).playList = c.playList := congrArg Tally.playList (tally_prepareOrder env c)
  have hprepare := prepare_cases env c
  generalize c.prepare env = p at hprepare ⊢
  cases hprepare with
  | refused | noInput => rfl
  | reset | ready => exact horder

theorem playList_endVisit (env : Env) (d : TRotatorCtrl) (ito : Int) (toNext : Bool) :
    (Machine.endVisit env d ito toNext).ctrl.playList = d.playList := by
  have hend := Machine.endVisit_end env d ito toNext
  generalize Machine.endVisit env d ito toNext = m at hend ⊢
  cases hend with
  | completed => rfl
  | next k => rfl
  | round _ _ _ h =>
      cases h with
      | plain => rfl
      | givesUp e _ he =>
          obtain ⟨_, _, _, rfl⟩ := playlistSizeIncrease_frame he
          rfl
      | noOrder e _ he =>
          obtain ⟨_, _, _, rfl⟩ := playlistSizeIncrease_frame he
          exact playList_prepare env _
      | again e k _ he =>
          obtain ⟨_, _, _, rfl⟩ := playlistSizeIncrease_frame he
          exact playList_prepare env _

/-- `prepare` keeps what was counted, or resets a complete playlist. -/
theorem duration_prepare (env : Env) (c : TRotatorCtrl) :
    (c.prepare env).2.timer.playlistDuration = c.timer.playlistDuration ∧
        (c.prepare env).2.constructionComplete = c.constructionComplete ∨
      (c.prepare env).2.timer.playlistDuration = 0 ∧ (c.prepare env).2.constructionComplete = false ∧
        c.constructionComplete = true := by
  have horder := tally_prepareOrder env c
  have hcomplete : (c.prepareOrder env).constructionComplete = c.constructionComplete :=
    congrArg Tally.constructionComplete horder
  have hprepare := prepare_cases env c
  generalize c.prepare env = p at hprepare ⊢
  cases hprepare with
  | refused | noInput => exact .inl ⟨rfl, rfl⟩
  | reset _ _ h => exact .inr ⟨rfl, rfl, hcomplete.symm.trans h⟩
  | ready => exact .inl ⟨congrArg Tally.playlistDuration horder, hcomplete⟩

/-- An object before its first call. -/
structure Blank (c : TRotatorCtrl) : Prop where
  duration : c.schedule = false → c.timer.playlistDuration = 0
  ready : c.hfolders = .empty ∧ c.order = false ∨
    c.constructionComplete = false ∧ c.specialConditions = c.hasSpecialConditions

/-- What the constructor only copies, and the playlist and the error. -/
def arguments (c : TRotatorCtrl) : HashTable × Int × Option Str × Nat × List HashTable :=
  (c.array, c.maxTracks, c.generalDuration, c.error, c.playList)

theorem arguments_searchSchedule (env : Env) (c : TRotatorCtrl) (arr : HashTable) :
    arguments (c.searchSchedule env arr) = arguments c := by
  rw [searchSchedule]
  split
  · rfl
  · split
    · rfl
    · rw [startSchedule]
      simp only
      split <;> rfl

theorem timer_searchSchedule {env : Env} {c : TRotatorCtrl} {arr : HashTable}
    (h : (c.searchSchedule env arr).schedule = false) : (c.searchSchedule env arr).timer = c.timer := by
  rw [searchSchedule] at h ⊢
  split
  · rfl
  · split
    · rfl
    · rename_i ht hnode hsize
      rw [hnode] at h
      simp only [hsize, if_false] at h
      rw [startSchedule] at h ⊢
      simp only at h ⊢
      split
      · rfl
      · rename_i item hitem
        have hmem := List.length_pos_of_mem (SortedMap.mem_entries_of_find? hitem)
        rw [hitem] at h
        exact absurd hmem (of_decide_eq_false h)

theorem new_timer {s : Option Str} {t : TTimer} (h : TTimer.new s = some t) :
    t.playlistDuration = 0 ∧ t.defaultTrackDuration = 180 := by
  have hdefault : (⟨HOUR_INTERVAL, 0, 0, 0⟩ : TTimer).setDefaultTrackDuration DEFAULT_TRACK_DURATION =
      some ⟨HOUR_INTERVAL, 0, 0, 180⟩ := rfl
  simp only [TTimer.new, hdefault, Option.bind_eq_bind, Option.bind_some] at h
  cases s with
  | none =>
      simp only [TTimer.setGeneralDuration, Option.some.injEq] at h
      rw [← h]
      exact ⟨rfl, rfl⟩
  | some s =>
      simp only [TTimer.setGeneralDuration, Option.bind_eq_bind, Option.pure_def, Option.bind_eq_some_iff,
        Option.some.injEq] at h
      obtain ⟨sec, -, rfl⟩ := h
      exact ⟨rfl, rfl⟩

theorem orderFolders_cases (env : Env) (c : TRotatorCtrl) (arr : HashTable) :
    (c.orderFolders env arr).schedule = true ∧ c.orderFolders env arr = c.searchSchedule env arr ∨
      c.orderFolders env arr = (c.searchSchedule env arr).searchOrder env arr := by
  simp only [orderFolders]
  split
  · rename_i hyes
    exact .inl ⟨hyes, rfl⟩
  · exact .inr rfl

theorem arguments_orderFolders (env : Env) (c : TRotatorCtrl) (arr : HashTable) :
    arguments (c.orderFolders env arr) = arguments c := by
  rcases orderFolders_cases env c arr with ⟨-, horder⟩ | horder
  · rw [horder, arguments_searchSchedule]
  · rw [horder, searchOrder_frame]
    exact arguments_searchSchedule env c arr

def Param.limits : Param → Int × Option Str
  | .none => (0, Option.none)
  | .maxTracks n => (i32 n, Option.none)
  | .generalDuration s => (0, some (cstr s))

theorem new_arguments {env : Env} {arr : HashTable} {arg : Param} {c : TRotatorCtrl}
    (hnew : new env arr arg = some c) : arguments c = (arr, arg.limits.1, arg.limits.2,
      if arraySize arr = 0 then INPUT_ARRAY_ERROR else EMPTY_ERROR, []) := by
  have hinit : ∃ t, (init env arr arg.limits.1 arg.limits.2 t).onInit env = some c := by
    cases arg with
    | none | maxTracks | generalDuration =>
        simp only [new, Option.bind_eq_bind, Option.bind_eq_some_iff] at hnew
        obtain ⟨t, -, h⟩ := hnew
        exact ⟨t, h⟩
  obtain ⟨t, h⟩ := hinit
  rcases onInit_stages h with ⟨hempty, rfl⟩ | ⟨hsome, ⟨-, rfl⟩ | ⟨-, ht, e, m, hfold, -, rfl⟩⟩
  · rw [if_pos (show arraySize arr = 0 from hempty)]
    rfl
  · rw [if_neg (show arraySize arr ≠ 0 from hsome)]
    rfl
  · have hfolders : arguments e = arguments (init env arr arg.limits.1 arg.limits.2 t) := by
      rw [foldlM_searchFolder_frame hfold]
      rfl
    rw [if_neg (show arraySize arr ≠ 0 from hsome)]
    exact (arguments_orderFolders env e _).trans hfolders

theorem new_blank {env : Env} {arr : HashTable} {arg : Param} {c : TRotatorCtrl}
    (hnew : new env arr arg = some c) : Blank c := by
  obtain ⟨n, g, s, t, ht, h⟩ := new_init hnew
  have hduration := (new_timer ht).1
  rcases onInit_stages h with ⟨-, rfl⟩ | ⟨-, ⟨-, rfl⟩ | ⟨-, ht, e, m, hfold, -, rfl⟩⟩
  · exact ⟨fun _ => hduration, .inl ⟨rfl, rfl⟩⟩
  · exact ⟨fun _ => hduration, .inl ⟨rfl, rfl⟩⟩
  · refine ⟨fun hno => ?_, .inr ⟨rfl, rfl⟩⟩
    have htimer : e.timer.playlistDuration = 0 := by
      rw [foldlM_searchFolder_frame hfold]
      exact hduration
    rcases orderFolders_cases env e _ with ⟨hyes, -⟩ | horder
    · exact absurd (hno.symm.trans hyes) Bool.false_ne_true
    · simp only [horder] at hno ⊢
      rw [searchOrder_frame] at hno ⊢
      exact (congrArg TTimer.playlistDuration (timer_searchSchedule hno)).trans htimer

def Unvisited (m : HFolders) : Prop :=
  ∀ folder hf, m.find? folder = some hf → arraySize hf.ht ≠ 0 ∧
    hf.index = searchNextHashIndex hf.ht START_INDEX ∧ hf.statistics = 1

theorem searchTracks_unvisited {c d : TRotatorCtrl} {node : Zval} {key : Str} (h : c.searchTracks node key = some d)
    (hc : Unvisited c.hfolders) : Unvisited d.hfolders := by
  simp only [searchTracks] at h
  split at h
  · split at h
    · simp only [Option.some.injEq] at h; rw [← h]; exact hc
    · split at h
      · simp only [Option.some.injEq] at h; rw [← h]; exact hc
      · rename_i hsize
        simp only [Option.some.injEq] at h
        rw [← h]
        intro folder hf hfind
        rcases SortedMap.find?_insert_cases hfind with ⟨-, rfl⟩ | ⟨-, hold⟩
        · exact ⟨hsize, rfl, rfl⟩
        · exact hc folder hf hold
  · simp only [Option.some.injEq] at h; rw [← h]; exact hc
  · simp at h

theorem searchFolder_unvisited {c d : TRotatorCtrl} {e : ZendKey × Zval} (h : c.searchFolder e = some d)
    (hc : Unvisited c.hfolders) : Unvisited d.hfolders := by
  rw [searchFolder] at h
  split at h
  · simp only [Option.some.injEq] at h; rw [← h]; exact hc
  · simp only [Option.bind_eq_bind, Option.pure_def, Option.bind_eq_some_iff] at h
    obtain ⟨t, ht, h⟩ := h
    have hunvisited := searchTracks_unvisited ht hc
    split at h
    · simp only [Option.some.injEq] at h; rw [← h]; exact hunvisited
    · simp only [Option.some.injEq] at h; rw [← h]; exact hunvisited

theorem hfolders_orderFolders (env : Env) (c : TRotatorCtrl) (arr : HashTable) :
    (c.orderFolders env arr).hfolders = c.hfolders := by
  have hschedule : (c.searchSchedule env arr).hfolders = c.hfolders := by
    rw [searchSchedule]
    split
    · rfl
    · split
      · rfl
      · rw [startSchedule]
        simp only
        split <;> rfl
  rcases orderFolders_cases env c arr with ⟨-, horder⟩ | horder
  · rw [horder, hschedule]
  · rw [horder, searchOrder_frame]
    exact hschedule

theorem new_unvisited {env : Env} {arr : HashTable} {arg : Param} {c : TRotatorCtrl}
    (hnew : new env arr arg = some c) : Unvisited c.hfolders := by
  obtain ⟨n, g, s, t, -, h⟩ := new_init hnew
  have hempty : Unvisited (init env arr n g t).hfolders := fun folder hf hfind => by cases hfind
  rcases onInit_stages h with ⟨-, rfl⟩ | ⟨-, ⟨-, rfl⟩ | ⟨-, ht, e, m, hfold, -, rfl⟩⟩
  · exact hempty
  · exact hempty
  · have hfolders : Unvisited e.hfolders :=
      Runs.foldlM_invariant (fun b => Unvisited b.hfolders) (fun _ _ _ hb hI => searchFolder_unvisited hb hI) hfold
        hempty
    have hsame := hfolders_orderFolders env e (init env arr n g t).array
    rw [← hsame] at hfolders
    exact hfolders

end RadioServices.Rotator

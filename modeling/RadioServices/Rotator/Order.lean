import RadioServices.Rotator.Construction

namespace RadioServices.Rotator.FolderOrder

open Lib Lib.C TRotatorCtrl Machine

def orderView (c : TRotatorCtrl) : Order × Nat × Bool := (c.foldersOrder, c.maxHtSize, c.order)

def Settled (env : Env) (c : TRotatorCtrl) : Prop := orderView (c.searchOrder env c.array) = orderView c

/-- Every folder of the order is loaded and no longer than `max_ht_size`. -/
def Loaded (c : TRotatorCtrl) : Prop :=
  ∀ k folder, c.foldersOrder.find? k = some folder →
    ∃ t, c.core.tables.find? folder = some t ∧ arraySize t.1 ≤ c.maxHtSize

section SearchOrder

variable {env : Env} {c d : TRotatorCtrl} {arr : HashTable}

/-- One more folder in the order, as both branches of `search_order` add it. -/
def addOrder (c : TRotatorCtrl) (k : Int) (folder : Str) (ht : HashTable) : TRotatorCtrl :=
  increaseMaxHtSize { c with foldersOrder := c.foldersOrder.insert k folder } (arraySize ht)

theorem searchOrderEntry_eq (env : Env) (c : TRotatorCtrl) (e : ZendKey × Zval) :
    searchOrderEntry env c e = match e.2 with
      | .string s => match c.core.tables.find? (cstr s) with
        | some t => addOrder c (i32 (numIndex env e.1)) (cstr s) t.1
        | none => c
      | _ => c := by
  rw [searchOrderEntry]
  cases e.2 with
  | string s =>
      simp only [core, SortedMap.find?_mapValues]
      cases c.hfolders.find? (cstr s) with
      | none => rfl
      | some hf => rfl
  | array _ | long _ | isTrue | other => rfl

theorem defaultOrder_eq (c : TRotatorCtrl) (l : List (Str × THFolders)) (n : Nat) :
    (l.zipIdx n).foldl defaultOrderEntry c =
      ((l.map fun e => (e.1, e.2.table)).zipIdx n).foldl (fun c e => addOrder c e.2 e.1.1 e.1.2.1) c := by
  induction l generalizing c n with
  | nil => rfl
  | cons e l ih =>
      rw [List.zipIdx_cons, List.foldl_cons, List.map_cons, List.zipIdx_cons, List.foldl_cons, ih]
      rfl

structure SameOrder (c d : TRotatorCtrl) : Prop where
  order : c.foldersOrder = d.foldersOrder
  longest : c.maxHtSize = d.maxHtSize
  tables : c.core.tables = d.core.tables

theorem SameOrder.add (h : SameOrder c d) (k : Int) (folder : Str) (ht : HashTable) :
    SameOrder (addOrder c k folder ht) (addOrder d k folder ht) := by
  refine ⟨?_, ?_, h.tables⟩
  · simp only [addOrder, increaseMaxHtSize, h.order]
  · simp only [addOrder, increaseMaxHtSize, h.longest]

theorem searchOrder_congr (h : c.core.tables = d.core.tables) :
    orderView (searchOrder env c arr) = orderView (searchOrder env d arr) := by
  have hstart : SameOrder { c with foldersOrder := .empty, maxHtSize := 0 }
      { d with foldersOrder := .empty, maxHtSize := 0 } := ⟨rfl, rfl, h⟩
  have hview {c d : TRotatorCtrl} (hsame : SameOrder c d) :
      orderView { c with order := decide (0 < c.foldersOrder.size) } =
        orderView { d with order := decide (0 < d.foldersOrder.size) } := by
    simp only [orderView, hsame.order, hsame.longest]
  have hentries : c.hfolders.entries.map (fun e => (e.1, e.2.table)) =
      d.hfolders.entries.map fun e => (e.1, e.2.table) := congrArg SortedMap.entries h
  have hdefault : SameOrder
      (c.hfolders.entries.zipIdx.foldl defaultOrderEntry { c with foldersOrder := .empty, maxHtSize := 0 })
      (d.hfolders.entries.zipIdx.foldl defaultOrderEntry { d with foldersOrder := .empty, maxHtSize := 0 }) := by
    rw [defaultOrder_eq, defaultOrder_eq, hentries]
    exact List.foldl_rel hstart fun e _ _ _ hsame => hsame.add _ _ _
  rw [searchOrder, searchOrder]
  cases getNodePtr arr DEFAULT_ORDER with
  | none => exact hview hdefault
  | some ht =>
      by_cases hsize : arraySize ht = 0
      · simp only [hsize, if_true]
        exact hview hdefault
      · simp only [hsize, if_false]
        refine hview (List.foldl_rel hstart fun e _ c d hsame => ?_)
        rw [searchOrderEntry_eq, searchOrderEntry_eq, hsame.tables]
        split
        · split
          · exact hsame.add _ _ _
          · exact hsame
        · exact hsame

theorem le_increaseMaxHtSize (c : TRotatorCtrl) (n : Nat) :
    c.maxHtSize ≤ (c.increaseMaxHtSize n).maxHtSize ∧ n ≤ (c.increaseMaxHtSize n).maxHtSize := by
  simp only [increaseMaxHtSize]
  split <;> omega

theorem loaded_add {k : Int} {folder : Str} {t : HashTable × Bool} (hc : Loaded c)
    (ht : c.core.tables.find? folder = some t) : Loaded (addOrder c k folder t.1) := by
  obtain ⟨hmax, hsize⟩ :=
    le_increaseMaxHtSize { c with foldersOrder := c.foldersOrder.insert k folder } (arraySize t.1)
  intro j name hfind
  rcases SortedMap.find?_insert_cases hfind with ⟨-, rfl⟩ | ⟨-, hold⟩
  · exact ⟨t, ht, hsize⟩
  · obtain ⟨u, hu, hle⟩ := hc j name hold
    exact ⟨u, hu, hle.trans hmax⟩

theorem loaded_searchOrder (env : Env) (c : TRotatorCtrl) (arr : HashTable) :
    Loaded (searchOrder env c arr) := by
  have hstart : Loaded { c with foldersOrder := .empty, maxHtSize := 0 } := by
    intro k folder hfind
    cases hfind
  have hdefault : Loaded
      (c.hfolders.entries.zipIdx.foldl defaultOrderEntry { c with foldersOrder := .empty, maxHtSize := 0 }) := by
    rw [defaultOrder_eq]
    refine (List.foldlRecOn (motive := fun d => Loaded d ∧ d.core.tables = c.core.tables) _ _ ⟨hstart, rfl⟩
      fun d hd e he => ⟨loaded_add hd.1 ?_, hd.2⟩).1
    rw [hd.2]
    exact SortedMap.find?_of_mem_entries (List.fst_mem_of_mem_zipIdx he)
  rw [searchOrder]
  cases getNodePtr arr DEFAULT_ORDER with
  | none => exact hdefault
  | some ht =>
      by_cases hsize : arraySize ht = 0
      · simp only [hsize, if_true]
        exact hdefault
      · simp only [hsize, if_false]
        refine List.foldlRecOn (motive := Loaded) _ _ hstart fun d hd e _ => ?_
        rw [searchOrderEntry_eq]
        split
        · split
          · rename_i t ht
            exact loaded_add hd ht
          · exact hd
        · exact hd

end SearchOrder

section Settled

variable {env : Env} {c d : TRotatorCtrl}

theorem loaded_of_settled (h : Settled env c) : Loaded c := by
  have hloaded := loaded_searchOrder env c c.array
  simp only [Settled, orderView, Prod.mk.injEq] at h
  intro k folder hfind
  rw [← h.1] at hfind
  obtain ⟨t, ht, hle⟩ := hloaded k folder hfind
  rw [core_searchOrder] at ht
  exact ⟨t, ht, h.2.1 ▸ hle⟩

theorem order_of_settled (h : Settled env c) : c.order = decide (0 < c.foldersOrder.size) := by
  simp only [Settled, orderView, Prod.mk.injEq] at h
  rw [← h.2.2, ← h.1]
  rfl

theorem settled_congr (hc : Settled env c) (hview : orderView d = orderView c) (hcore : d.core.tables = c.core.tables)
    (harray : d.array = c.array) : Settled env d := by
  rw [Settled, harray, searchOrder_congr hcore, hview]
  exact hc

/-- Without a schedule `prepare` makes the same order again. -/
theorem orderView_prepare (hc : Settled env c) (hschedule : c.schedule = false) :
    orderView (c.prepare env).2 = orderView c := by
  have horder : orderView (c.prepareOrder env) = orderView c := by
    rw [prepareOrder, if_neg (by simp [hschedule])]
    split
    · exact hc
    · rfl
  have hprepare := prepare_cases env c
  generalize c.prepare env = p at hprepare ⊢
  cases hprepare with
  | refused | noInput => rfl
  | reset | ready => exact horder

theorem orderView_tried {folder : Str} {hf : THFolders} {flNext : Bool} (hschedule : c.schedule = false)
    (h : Tried c folder hf flNext d) : orderView d = orderView c := by
  cases h with
  | missing | skipped => rfl
  | added data singer title e hoffers hadd =>
      obtain ⟨t, b, -, hb, rfl⟩ := addFromFolder_cases hoffers.2.1 hadd
      rcases chargeInterval_cases hb with ⟨-, rfl⟩ | ⟨hyes, -⟩
      · rfl
      · exact absurd (hschedule.symm.trans hyes) Bool.false_ne_true

theorem orderView_createPlaylist (c : TRotatorCtrl) : orderView (createPlaylist c).ctrl = orderView c := by
  have hstart := createPlaylist_cases c
  generalize createPlaylist c = m at hstart ⊢
  cases hstart <;> rfl

theorem orderView_playlistSizeIncrease (c : TRotatorCtrl) : orderView c.playlistSizeIncrease.2 = orderView c := by
  rw [playlistSizeIncrease]
  split
  · rfl
  · simp only
    split <;> rfl

theorem orderView_endRound (hc : Settled env c) (hschedule : c.schedule = false) :
    orderView (endRound env c).ctrl = orderView c := by
  have hsize := orderView_playlistSizeIncrease c
  have hcore := core_playlistSizeIncrease c
  have hagain (d : TRotatorCtrl) (hd : c.playlistSizeIncrease = (true, d)) :
      orderView (d.prepare env).2 = orderView c := by
    rw [hd] at hsize hcore
    have hsettled : Settled env d :=
      settled_congr hc hsize (congrArg Core.tables hcore) (congrArg Core.array hcore)
    exact (orderView_prepare hsettled ((congrArg Core.schedule hcore).trans hschedule)).trans hsize
  have hend := endRound_cases env c
  generalize endRound env c = m at hend ⊢
  cases hend with
  | plain => rfl
  | givesUp d _ hd =>
      rw [hd] at hsize
      exact hsize
  | noOrder d _ hd | again d _ _ hd => exact hagain d hd

end Settled

/-- An object without a schedule whose order is settled. -/
structure Steady (env : Env) (c : TRotatorCtrl) : Prop where
  schedule : c.schedule = false
  settled : Settled env c

section Run

variable {env : Env} {c d : TRotatorCtrl} {m : Machine}

theorem steady_congr (hc : Steady env c) (hview : orderView d = orderView c) (hschedule : d.schedule = c.schedule)
    (htables : d.core.tables = c.core.tables) (harray : d.array = c.array) : Steady env d :=
  ⟨hschedule.trans hc.schedule, settled_congr hc.settled hview htables harray⟩

theorem steady_of_core (hc : Steady env c) (hview : orderView d = orderView c) (hcore : d.core = c.core) :
    Steady env d :=
  steady_congr hc hview (congrArg Core.schedule hcore) (congrArg Core.tables hcore) (congrArg Core.array hcore)

theorem steady_tried {folder : Str} {hf : THFolders} {flNext : Bool} (hc : Steady env c)
    (hfind : c.hfolders.find? folder = some hf) (h : Tried c folder (rewindFolder hf) flNext d) :
    Steady env d := by
  have hview := orderView_tried hc.schedule h
  rcases h.core (table_of_find? hfind) with hcore | ⟨data, singer, title, -, hcore⟩
  · exact steady_of_core hc hview hcore
  · have hframe {α : Type} (f : Core → α) (hf : ∀ k a h, f (k.add a h) = f k) : f d.core = f c.core := by
      rw [hcore, hf]
    exact steady_congr hc hview (hframe Core.schedule fun _ _ _ => rfl) (hframe Core.tables fun _ _ _ => rfl)
      (hframe Core.array fun _ _ _ => rfl)

theorem steady_prepare (hc : Steady env c) : Steady env (c.prepare env).2 :=
  steady_of_core hc (orderView_prepare hc.settled hc.schedule) (core_prepare env c)

theorem steady_createPlaylist (hc : Steady env c) : Steady env (createPlaylist c).ctrl :=
  steady_of_core hc (orderView_createPlaylist c) (core_createPlaylist c)

theorem orderView_endVisit (hc : Steady env c) (ito : Int) (toNext : Bool) :
    orderView (endVisit env c ito toNext).ctrl = orderView c := by
  simp only [endVisit]
  split
  · rfl
  · split
    · rfl
    · exact orderView_endRound hc.settled hc.schedule

theorem orderView_tick (hm : Steady env m.ctrl) :
    orderView (tick env m).ctrl = orderView m.ctrl ∧ Steady env (tick env m).ctrl := by
  have hpass := tick_pass env m
  generalize tick env m = t at hpass ⊢
  cases hpass with
  | stopped => exact ⟨rfl, hm⟩
  | undefined => exact ⟨rfl, steady_congr hm rfl rfl rfl rfl⟩
  | begins => exact ⟨rfl, steady_congr hm rfl rfl rfl rfl⟩
  | stays _ _ _ _ _ _ _ hfind htried => exact ⟨orderView_tried hm.schedule htried, steady_tried hm hfind htried⟩
  | leaves ito _ toNext hf _ _ _ hfind htried =>
      have hd := steady_tried hm hfind htried
      have hview := orderView_endVisit hd ito (m.ctrl.endOfFolder hf toNext)
      exact ⟨hview.trans (orderView_tried hm.schedule htried), steady_of_core hd hview (core_endVisit _ _ _ _)⟩

theorem orderView_step (hm : Steady env m.ctrl) (e : Event) :
    orderView (step env m e).ctrl = orderView m.ctrl ∧ Steady env (step env m e).ctrl := by
  cases e with
  | createPlaylist =>
      simp only [step]
      split
      · exact ⟨orderView_createPlaylist m.ctrl, steady_createPlaylist hm⟩
      · exact ⟨rfl, hm⟩
  | prepare =>
      simp only [step]
      split
      · exact ⟨orderView_prepare hm.settled hm.schedule, steady_prepare hm⟩
      · exact ⟨rfl, hm⟩
  | tick => exact orderView_tick hm

/-- Without a schedule the order is the same in every run. -/
theorem orderView_run (hc : Steady env c) (es : List Event) :
    orderView (run env c es).ctrl = orderView c ∧ Steady env (run env c es).ctrl :=
  Runs.run_invariant_all (fun t : Machine => orderView t.ctrl = orderView c ∧ Steady env t.ctrl)
    (fun _ e h => ⟨(orderView_step h.2 e).1.trans h.1, (orderView_step h.2 e).2⟩) ⟨rfl, hc⟩ es

theorem find?_of_loaded (hc : Loaded c) {k : Int} {folder : Str} (h : c.foldersOrder.find? k = some folder) :
    ∃ hf, c.hfolders.find? folder = some hf := by
  obtain ⟨t, ht, -⟩ := hc k folder h
  rw [core, SortedMap.find?_mapValues, Option.map_eq_some_iff] at ht
  obtain ⟨hf, hfind, -⟩ := ht
  exact ⟨hf, hfind⟩

theorem createPlaylist_outer (hc : Steady env c) (horder : 0 < c.foldersOrder.size) (harray : arraySize c.array ≠ 0)
    (herror : c.error = EMPTY_ERROR) : ∃ ito, createPlaylist c = ⟨{ c with
      playList := [], previosPlaylistSize := 0, increaseCounter := 0, setStartFolder := false }, .outer ito⟩ := by
  obtain ⟨k, hk⟩ := SortedMap.begin?_of_size horder
  have hyes : c.order = true := by
    rw [order_of_settled hc.settled]
    exact decide_eq_true horder
  have hfolders : c.hfolders.size ≠ 0 := by
    obtain ⟨folder, hfolder⟩ := SortedMap.mem_keys_iff.mp (List.mem_of_mem_head? hk)
    obtain ⟨hf, hfind⟩ := find?_of_loaded (loaded_of_settled hc.settled) hfolder
    exact Nat.ne_of_gt (SortedMap.size_pos_of_find? hfind)
  exact ⟨k, by simp [createPlaylist, herror, harray, hyes, hfolders, hk]⟩

end Run

section New

variable {env : Env} {c d : TRotatorCtrl} {arr : HashTable}

theorem settled_searchOrder (harray : c.array = arr) : Settled env (c.searchOrder env arr) := by
  have hcore := core_searchOrder env c arr
  have harr : (c.searchOrder env arr).array = arr := (congrArg Core.array hcore).trans harray
  rw [Settled, harr]
  exact searchOrder_congr (congrArg Core.tables hcore)

theorem searchOrder_empty (h : c.hfolders = .empty) :
    orderView (c.searchOrder env arr) = (.empty, 0, false) := by
  have hview (d : TRotatorCtrl) (hd : d = { c with foldersOrder := .empty, maxHtSize := 0 }) :
      orderView { d with order := decide (0 < d.foldersOrder.size) } = (.empty, 0, false) := by
    rw [hd]
    rfl
  have hnone (s : Str) :
      ({ c with foldersOrder := .empty, maxHtSize := 0 } : TRotatorCtrl).core.tables.find? s = none := by
    simp only [core, h]
    rfl
  rw [searchOrder]
  cases getNodePtr arr DEFAULT_ORDER with
  | none => exact hview _ (by simp only [h]; rfl)
  | some ht =>
      by_cases hsize : arraySize ht = 0
      · simp only [hsize, if_true]
        exact hview _ (by simp only [h]; rfl)
      · simp only [hsize, if_false]
        refine hview _ (List.foldlRecOn (motive := (· = _)) _ _ rfl fun d hd e _ => ?_)
        rw [hd, searchOrderEntry_eq]
        cases e.2 with
        | string s => simp only [hnone]
        | array _ | long _ | isTrue | other => rfl

theorem steady_orderFolders (harray : c.array = arr) (hschedule : (c.orderFolders env arr).schedule = false) :
    Steady env (c.orderFolders env arr) := by
  refine ⟨hschedule, ?_⟩
  rcases orderFolders_cases env c arr with ⟨hyes, -⟩ | horder
  · exact absurd (hschedule.symm.trans hyes) Bool.false_ne_true
  · rw [horder]
    exact settled_searchOrder ((congrArg Prod.fst (arguments_searchSchedule env c arr)).trans harray)

theorem new_steady {arg : Param} (hnew : new env arr arg = some c) (hschedule : c.schedule = false) :
    Steady env c := by
  obtain ⟨n, g, s, t, -, h⟩ := new_init hnew
  have hempty : Steady env (init env arr n g t) := ⟨rfl, searchOrder_empty rfl⟩
  rcases onInit_stages h with ⟨-, rfl⟩ | ⟨-, ⟨-, rfl⟩ | ⟨-, ht, e, m, hfold, -, rfl⟩⟩
  · exact steady_congr hempty rfl rfl rfl rfl
  · exact steady_congr hempty rfl rfl rfl rfl
  · exact steady_congr (steady_orderFolders (foldlM_searchFolder_array hfold) hschedule) rfl rfl rfl rfl

end New

end RadioServices.Rotator.FolderOrder

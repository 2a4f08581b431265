import RadioServices.Rotator.Completion
import RadioServices.Rotator.Order

namespace RadioServices.Rotator.LongestPass

open Lib Lib.C Lib.Spacing TRotatorCtrl Machine Termination FolderOrder

structure Numbered (ht : HashTable) (tracks : List (Str × Str)) : Prop where
  size : arraySize ht = tracks.length
  record : ∀ (i : Nat) t, tracks[i]? = some t →
    ∃ data, zendHashIndexFind ht i = some (.array data) ∧ recordTrack data = some t

/-- No rule limits, no history, and numbered tracks without a title that occurs twice. -/
structure PlainInput (c : TRotatorCtrl) (tracks : Str → List (Str × Str)) : Prop where
  limits : c.sRules.singerLimit = 0 ∧ c.sRules.trackLimit = 0
  history : c.mHistory = .empty
  numbered : ∀ folder table, c.core.tables.find? folder = some table → Numbered table.1 (tracks folder)
  distinct : ∀ folder table folder' table' (i j : Nat) t t', c.core.tables.find? folder = some table →
    c.core.tables.find? folder' = some table' → (tracks folder)[i]? = some t → (tracks folder')[j]? = some t' →
    cstr t.2 = cstr t'.2 → folder = folder' ∧ i = j

def Maximal (c : TRotatorCtrl) (folder : Str) : Prop :=
  ∃ table, c.core.tables.find? folder = some table ∧
    ∀ folder' table', c.core.tables.find? folder' = some table' → arraySize table'.1 ≤ arraySize table.1

def played (c : TRotatorCtrl) : List (Str × Str) := c.playList.filterMap recordTrack

/-- The playlist of `d` has the tracks of every folder of maximal length once, in order. -/
def PlaysOnce (c : TRotatorCtrl) (tracks : Str → List (Str × Str)) (d : TRotatorCtrl) : Prop :=
  ∀ folder, Maximal c folder → (played d).filter (fun t => decide (t ∈ tracks folder)) = tracks folder

/-- A folder of the order as long as any of them, with its first track. -/
def Longest (c : TRotatorCtrl) (tracks : Str → List (Str × Str)) (folder : Str) (t : Str × Str) : Prop :=
  ∃ k table, c.foldersOrder.find? k = some folder ∧ c.core.tables.find? folder = some table ∧
    c.maxHtSize ≤ arraySize table.1 ∧ (tracks folder)[0]? = some t

section Records

variable {ht : HashTable} {tracks : List (Str × Str)}

theorem searchNextHashIndex_numbered (h : Numbered ht tracks) (i : Nat) : searchNextHashIndex ht i = i := by
  rw [searchNextHashIndex]
  rcases Nat.lt_or_ge i (arraySize ht) with hlt | hge
  · obtain ⟨fuel, hfuel⟩ := Nat.exists_eq_add_of_lt hlt
    have hlen : i < tracks.length := h.size ▸ hlt
    obtain ⟨data, hdata, -⟩ := h.record i _ (List.getElem?_eq_getElem hlen)
    have hexists : zendHashIndexExists ht i = true := by rw [zendHashIndexExists, hdata]; rfl
    rw [show arraySize ht - i = fuel + 1 by omega, nextHashIndex, if_pos hexists]
  · rw [Nat.sub_eq_zero_of_le hge, nextHashIndex]

theorem validRecord_of_track {data : HashTable} {t : Str × Str} (h : recordTrack data = some t)
    (hne : t.1 ≠ [] ∧ t.2 ≠ []) : validRecord data = some t := by
  rw [recordTrack] at h
  split at h
  · rename_i singer title hs ht
    simp only [Option.some.injEq] at h
    subst h
    rw [validRecord, hs, ht]
    simp only [List.length_eq_zero_iff, ne_eq]
    exact if_pos hne
  · cases h

theorem ne_nil_of_validRecord {data : HashTable} {t : Str × Str} (h : validRecord data = some t) :
    t.1 ≠ [] ∧ t.2 ≠ [] := by
  rw [validRecord] at h
  split at h
  · split at h
    · rename_i hne
      simp only [Option.some.injEq] at h
      subst h
      simpa [List.length_eq_zero_iff] using hne
    · cases h
  · cases h

end Records

section Try

variable {c d : TRotatorCtrl} {folder : Str} {hf : THFolders}

/-- Without limits only the weight of an equal title skips a record. -/
theorem whatToDo_of_weights {singer title : Str}
    (hrules : (c.getCurrentRules (cstr folder)).singerLimit = 0 ∧ (c.getCurrentRules (cstr folder)).trackLimit = 0)
    (hweights : ∀ h ∈ c.mHistory.values, cstr h.title = cstr title → h.statistics ≤ hf.statistics) :
    c.whatToDo hf folder singer title = .addToPlaylist := by
  have hcount {p : THistory → Bool} {h : THistory} {n : Int}
      (hnewest : newestInHistory c.mHistory p = some (h, n)) : 0 ≤ n ∧ p h = true ∧ h ∈ c.mHistory.values := by
    obtain ⟨newer, older, hsplit, hp, -, rfl⟩ := newest_some hnewest
    refine ⟨by omega, hp, ?_⟩
    rw [← List.mem_reverse, hsplit]
    exact List.mem_append_right _ List.mem_cons_self
  rw [whatToDo]
  split
  · rfl
  · simp only [findRecordInHistory, hrules.1, hrules.2]
    split
    · rfl
    · rename_i hsinger
      rw [if_pos (hcount hsinger).1, titleStatisticsInHistory]
      cases htitle : newestInHistory c.mHistory (fun h => strcmpEq h.title title) with
      | none => simp
      | some e =>
          obtain ⟨hpos, hequal, hmem⟩ := hcount htitle
          have hle := hweights e.1 hmem (by simpa [strcmpEq] using hequal)
          simp only [hpos, if_true]
          rw [if_neg (fun h => absurd h.2 (not_lt.mpr hle))]

theorem tried_cases {flNext : Bool} (hschedule : c.schedule = false) (h : Tried c folder hf flNext d) :
    d.hfolders = c.hfolders.insert folder (advanceFolder hf) ∧
      (d.playList = c.playList ∧ d.mHistory = c.mHistory ∧ (∀ data singer title, ¬ Offers c hf folder data singer title) ∨
        flNext = true ∧ ∃ data singer title, Offers c hf folder data singer title ∧
          d.playList = c.playList ++ [data] ∧
          d.mHistory = c.mHistory.insert c.mHistory.size ⟨singer, title, hf.statistics + 1⟩) := by
  cases h with
  | missing hrecord =>
      exact ⟨rfl, .inl ⟨rfl, rfl, fun data _ _ hoffers => hrecord data hoffers.1⟩⟩
  | skipped hrecord => exact ⟨rfl, .inl ⟨rfl, rfl, hrecord⟩⟩
  | added data singer title e hoffers hadd =>
      obtain ⟨t, b, -, hb, rfl⟩ := addFromFolder_cases hoffers.2.1 hadd
      rcases chargeInterval_cases hb with ⟨-, rfl⟩ | ⟨hyes, -⟩
      · exact ⟨SortedMap.insert_insert _ _ _ _, .inr ⟨rfl, data, singer, title, hoffers, rfl, rfl⟩⟩
      · exact absurd (hschedule.symm.trans hyes) Bool.false_ne_true

theorem mem_values_insert {m : MHistory} {k : Int} {h g : THistory} (hg : g ∈ (m.insert k h).values) :
    g = h ∨ g ∈ m.values := by
  obtain ⟨e, he, rfl⟩ := List.mem_map.mp hg
  rcases SortedMap.mem_insertEntries he with rfl | hmem
  · exact .inl rfl
  · exact .inr (List.mem_map_of_mem hmem)

theorem played_concat {data : HashTable} {t : Str × Str} (hd : d.playList = c.playList ++ [data])
    (ht : recordTrack data = some t) : played d = played c ++ [t] := by
  rw [played, hd, List.filterMap_append, List.filterMap_cons_some ht]
  rfl

end Try

/-- What the folders and the history of an object say before the end of a longest folder. -/
structure Ahead (c : TRotatorCtrl) (tracks : Str → List (Str × Str)) (d : TRotatorCtrl) : Prop where
  indexes : ∀ folder hf, d.hfolders.find? folder = some hf → hf.index ≤ arraySize hf.ht
  weight : ∀ folder t hf, Longest c tracks folder t → d.hfolders.find? folder = some hf → hf.statistics = 1
  begun : ∀ folder t hf, Longest c tracks folder t → d.hfolders.find? folder = some hf → 0 < hf.index → t ∈ played d
  history : ∀ folder t hf, Longest c tracks folder t → d.hfolders.find? folder = some hf →
    ∀ h ∈ d.mHistory.values, cstr h.title = cstr t.2 → 0 < hf.index ∧ h.statistics = 2

def settings (k : Core) : SortedMap Str (HashTable × Bool) × TRules × SortedMap Str TRules × Int × Option Str × Bool :=
  (k.tables, k.sRules, k.mRules, k.maxTracks, k.generalDuration, k.specialConditions)

/-- The object runs without limits, with the folders and the order of `c`. -/
structure Lasting (env : Env) (c d : TRotatorCtrl) : Prop where
  settings : settings d.core = settings c.core
  view : orderView d = orderView c
  steady : Steady env d
  rules : ∀ folder, (d.getCurrentRules folder).singerLimit = 0 ∧ (d.getCurrentRules folder).trackLimit = 0
  unlimited : d.maxTracks = 0 ∧ d.generalDuration = none ∧ d.specialConditions = false

section Lasting

variable {env : Env} {c d e : TRotatorCtrl}

theorem lasting_congr (hd : Lasting env c d) (he : Steady env e) (hview : orderView e = orderView d)
    (hsettings : settings e.core = settings d.core) : Lasting env c e := by
  have hparts := hsettings
  simp only [settings, core, Prod.mk.injEq] at hparts
  obtain ⟨-, hcommon, hfolder, htracks, hduration, hspecial⟩ := hparts
  refine ⟨hsettings.trans hd.settings, hview.trans hd.view, he, fun folder => ?_, ?_⟩
  · rw [getCurrentRules, hcommon, hfolder]
    exact hd.rules folder
  · rw [htracks, hduration, hspecial]
    exact hd.unlimited

theorem lasting_tried {folder : Str} {hf : THFolders} {flNext : Bool} (hd : Lasting env c d)
    (hfind : d.hfolders.find? folder = some hf) (h : Tried d folder (rewindFolder hf) flNext e) : Lasting env c e := by
  refine lasting_congr hd (steady_tried hd.steady hfind h) (orderView_tried hd.steady.schedule h) ?_
  rcases h.core (table_of_find? hfind) with hcore | ⟨data, singer, title, -, hcore⟩
  · rw [hcore]
  · rw [hcore]
    rfl

theorem incomplete_of_lasting (hd : Lasting env c d) : d.playlistConstructionCompleted = false := by
  simp [playlistConstructionCompleted, hd.unlimited.1, hd.unlimited.2.1, hd.steady.schedule]

theorem lasting_passes (hc : Lasting env c c) (n : Nat) : Lasting env c (passes env c n).ctrl := by
  have horder := orderView_run hc.steady (.createPlaylist :: List.replicate n .tick)
  have hframe := run_frame settings (fun _ _ _ => rfl) env c (.createPlaylist :: List.replicate n .tick)
  rw [← passes_eq_run] at horder hframe
  exact lasting_congr hc horder.2 horder.1 hframe

end Lasting

section Visit

variable {env : Env} {c d e : TRotatorCtrl} {tracks : Str → List (Str × Str)} {g : Str} {hf : THFolders}

structure Visited (c d : TRotatorCtrl) (g : Str) (hf : THFolders) : Prop where
  ordered : ∃ k, c.foldersOrder.find? k = some g
  find : d.hfolders.find? g = some hf
  loaded : c.core.tables.find? g = some hf.table
  filled : 0 < arraySize hf.ht

theorem offers_of_weights (hin : PlainInput c tracks) (hd : Lasting env c d) (hv : Visited c d g hf)
    {hf' : THFolders} (hht : hf'.ht = hf.ht) {t : Str × Str} (ht : (tracks g)[hf'.index]? = some t)
    (hne : t.1 ≠ [] ∧ t.2 ≠ [])
    (hweights : ∀ h ∈ d.mHistory.values, cstr h.title = cstr t.2 → h.statistics ≤ hf'.statistics) :
    ∃ data, Offers d hf' g data t.1 t.2 := by
  obtain ⟨data, hdata, htrack⟩ := (hin.numbered g _ hv.loaded).record hf'.index t ht
  exact ⟨data, by rw [hht]; exact hdata, validRecord_of_track htrack hne, whatToDo_of_weights (hd.rules _) hweights⟩

theorem track_of_offers (hin : PlainInput c tracks) (hv : Visited c d g hf) {hf' : THFolders} (hht : hf'.ht = hf.ht)
    (hlt : hf'.index < arraySize hf.ht) {data : HashTable} {singer title : Str}
    (h : Offers d hf' g data singer title) :
    (tracks g)[hf'.index]? = some (singer, title) ∧ recordTrack data = some (singer, title) := by
  have hnumbered : Numbered hf.ht (tracks g) := hin.numbered g _ hv.loaded
  have hlen : hf'.index < (tracks g).length := hnumbered.size ▸ hlt
  obtain ⟨data', hdata', htrack⟩ := hnumbered.record hf'.index _ (List.getElem?_eq_getElem hlen)
  have hsame : data' = data := by
    have hdata := h.1
    rw [hht] at hdata
    exact Zval.array.inj (Option.some.inj (hdata'.symm.trans hdata))
  have hvalid := recordTrack_of_validRecord h.2.1
  rw [hsame, hvalid, Option.some.injEq] at htrack
  exact ⟨by rw [List.getElem?_eq_getElem hlen, ← htrack], hvalid⟩

theorem rewindFolder_lt (hin : PlainInput c tracks) (hv : Visited c d g hf) :
    (rewindFolder hf).index < arraySize hf.ht := by
  have hnumbered : Numbered hf.ht (tracks g) := hin.numbered g _ hv.loaded
  rw [rewindFolder]
  split
  · rw [START_INDEX, searchNextHashIndex_numbered hnumbered]
    exact hv.filled
  · omega

theorem longest_table {folder : Str} {t : Str × Str} (h : Longest c tracks folder t) :
    ∃ table, c.core.tables.find? folder = some table := by
  obtain ⟨-, table, -, htable, -⟩ := h
  exact ⟨table, htable⟩

/-- A try of one folder says nothing new about another longest one. -/
theorem ahead_of_ne {hf' : THFolders} {flNext : Bool} (hin : PlainInput c tracks) (hd : Lasting env c d) (ha : Ahead c tracks d)
    (hv : Visited c d g hf) (hht : hf'.ht = hf.ht) (hlt : hf'.index < arraySize hf.ht)
    (htried : Tried d g hf' flNext e) {folder : Str} {t : Str × Str} {hf₁ : THFolders}
    (hlong : Longest c tracks folder t) (hfind : d.hfolders.find? folder = some hf₁) (hne : folder ≠ g) :
    hf₁.statistics = 1 ∧ (0 < hf₁.index → t ∈ played e) ∧
      ∀ h ∈ e.mHistory.values, cstr h.title = cstr t.2 → 0 < hf₁.index ∧ h.statistics = 2 := by
  obtain ⟨-, ⟨hplay, hhistory, -⟩ | ⟨-, data, singer, title, hoffers, hplay, hhistory⟩⟩ :=
    tried_cases hd.steady.schedule htried
  · refine ⟨ha.weight folder t hf₁ hlong hfind, ?_, ?_⟩
    · rw [played, hplay]
      exact ha.begun folder t hf₁ hlong hfind
    · rw [hhistory]
      exact ha.history folder t hf₁ hlong hfind
  · obtain ⟨hindex, htrack⟩ := track_of_offers hin hv hht hlt hoffers
    refine ⟨ha.weight folder t hf₁ hlong hfind, fun hpos => ?_, fun h hh htitle => ?_⟩
    · rw [played_concat hplay htrack]
      exact List.mem_append_left _ (ha.begun folder t hf₁ hlong hfind hpos)
    · rw [hhistory] at hh
      rcases mem_values_insert hh with rfl | hold
      · obtain ⟨table, htable⟩ := longest_table hlong
        obtain ⟨-, -, -, -, -, hfirst⟩ := hlong
        exact absurd (hin.distinct _ _ _ _ _ _ _ _ htable hv.loaded hfirst hindex htitle.symm).1 hne
      · exact ha.history folder t hf₁ hlong hfind h hold htitle

theorem ahead_of_self {flNext : Bool} (hin : PlainInput c tracks) (hd : Lasting env c d) (ha : Ahead c tracks d)
    (hv : Visited c d g hf) (hlt : hf.index < arraySize hf.ht) (htried : Tried d g hf flNext e) {t : Str × Str}
    (hlong : Longest c tracks g t) (hne : t.1 ≠ [] ∧ t.2 ≠ []) :
    t ∈ played e ∧ ∀ h ∈ e.mHistory.values, cstr h.title = cstr t.2 → h.statistics = 2 := by
  have hfirst : (tracks g)[0]? = some t := by
    obtain ⟨-, -, -, -, -, hfirst⟩ := hlong
    exact hfirst
  have hweight := ha.weight g t hf hlong hv.find
  have hhistory := ha.history g t hf hlong hv.find
  obtain ⟨-, ⟨hplay, hsame, hno⟩ | ⟨-, data, singer, title, hoffers, hplay, hinsert⟩⟩ :=
    tried_cases hd.steady.schedule htried
  · have hpos : 0 < hf.index := by
      by_contra hzero
      have hindex : hf.index = 0 := Nat.eq_zero_of_not_pos hzero
      obtain ⟨data, hoffers⟩ := offers_of_weights hin hd hv rfl (hindex ▸ hfirst) hne
        fun h hh htitle => absurd (hhistory h hh htitle).1 hzero
      exact hno data _ _ hoffers
    refine ⟨?_, fun h hh htitle => (hhistory h (hsame ▸ hh) htitle).2⟩
    rw [played, hplay]
    exact ha.begun g t hf hlong hv.find hpos
  · obtain ⟨hindex, htrack⟩ := track_of_offers hin hv rfl hlt hoffers
    refine ⟨?_, fun h hh htitle => ?_⟩
    · rw [played_concat hplay htrack]
      rcases Nat.eq_zero_or_pos hf.index with hzero | hpos
      · rw [hzero, hfirst, Option.some.injEq] at hindex
        rw [hindex]
        exact List.mem_append_right _ List.mem_cons_self
      · exact List.mem_append_left _ (ha.begun g t hf hlong hv.find hpos)
    · rw [hinsert] at hh
      rcases mem_values_insert hh with rfl | hold
      · simp only [hweight]
        rfl
      · exact (hhistory h hold htitle).2

/-- A try that is not of the end of a longest folder. -/
theorem ahead_tried {flNext : Bool} (hin : PlainInput c tracks) (hd : Lasting env c d) (ha : Ahead c tracks d)
    (hv : Visited c d g hf) (hvalid : ∀ folder t, Longest c tracks folder t → t.1 ≠ [] ∧ t.2 ≠ [])
    (hnot : hf.index < arraySize hf.ht ∨ ∀ t, ¬ Longest c tracks g t)
    (htried : Tried d g (rewindFolder hf) flNext e) : Ahead c tracks e := by
  have hnumbered : Numbered hf.ht (tracks g) := hin.numbered g _ hv.loaded
  have hht : (rewindFolder hf).ht = hf.ht := ht_rewindFolder hf
  have hlt := rewindFolder_lt hin hv
  have hnext : (advanceFolder (rewindFolder hf)).index = (rewindFolder hf).index + 1 := by
    simp only [advanceFolder, hht]
    exact searchNextHashIndex_numbered hnumbered _
  have hfolders := (tried_cases hd.steady.schedule htried).1
  have hfind (folder : Str) (hf₁ : THFolders) (h : e.hfolders.find? folder = some hf₁) :
      folder = g ∧ hf₁ = advanceFolder (rewindFolder hf) ∨ folder ≠ g ∧ d.hfolders.find? folder = some hf₁ := by
    rw [hfolders] at h
    exact SortedMap.find?_insert_cases h
  have hself (t : Str × Str) (hlong : Longest c tracks g t) : rewindFolder hf = hf ∧ hf.index < arraySize hf.ht := by
    rcases hnot with h | h
    · exact ⟨rewindFolder_of_lt h, h⟩
    · exact absurd hlong (h t)
  refine ⟨fun folder hf₁ h => ?_, fun folder t hf₁ hlong h => ?_, fun folder t hf₁ hlong h => ?_,
    fun folder t hf₁ hlong h => ?_⟩
  · rcases hfind folder hf₁ h with ⟨-, rfl⟩ | ⟨-, hold⟩
    · rw [hnext]
      simp only [advanceFolder, hht]
      exact hlt
    · exact ha.indexes folder hf₁ hold
  · rcases hfind folder hf₁ h with ⟨rfl, rfl⟩ | ⟨-, hold⟩
    · rw [(hself t hlong).1]
      exact ha.weight folder t hf hlong hv.find
    · exact ha.weight folder t hf₁ hlong hold
  · rcases hfind folder hf₁ h with ⟨rfl, rfl⟩ | ⟨hne, hold⟩
    · obtain ⟨hsame, hgoing⟩ := hself t hlong
      rw [hsame] at htried
      exact fun _ => (ahead_of_self hin hd ha hv hgoing htried hlong (hvalid folder t hlong)).1
    · exact (ahead_of_ne hin hd ha hv hht hlt htried hlong hold hne).2.1
  · rcases hfind folder hf₁ h with ⟨rfl, rfl⟩ | ⟨hne, hold⟩
    · obtain ⟨hsame, hgoing⟩ := hself t hlong
      rw [hsame] at htried hnext ⊢
      intro h hh htitle
      exact ⟨by omega, (ahead_of_self hin hd ha hv hgoing htried hlong (hvalid folder t hlong)).2 h hh htitle⟩
    · exact (ahead_of_ne hin hd ha hv hht hlt htried hlong hold hne).2.2

theorem first_again {flNext : Bool} {t : Str × Str} (hin : PlainInput c tracks) (hd : Lasting env c d)
    (ha : Ahead c tracks d) (hv : Visited c d g hf) (hend : arraySize hf.ht ≤ hf.index) (hlong : Longest c tracks g t)
    (hne : t.1 ≠ [] ∧ t.2 ≠ []) (htried : Tried d g (rewindFolder hf) flNext e) :
    flNext = true ∧ 2 ≤ (played e).count t := by
  have hnumbered : Numbered hf.ht (tracks g) := hin.numbered g _ hv.loaded
  have hrewind : rewindFolder hf = { hf with index := 0, statistics := 2 } := by
    rw [rewindFolder, if_pos hend]
    simp only [START_INDEX, searchNextHashIndex_numbered hnumbered, ha.weight g t hf hlong hv.find]
    rfl
  have hpos : 0 < hf.index := Nat.lt_of_lt_of_le hv.filled hend
  have hfirst : (tracks g)[(rewindFolder hf).index]? = some t := by
    obtain ⟨-, -, -, -, -, hfirst⟩ := hlong
    rw [hrewind]
    exact hfirst
  have hlt : (rewindFolder hf).index < arraySize hf.ht := by
    rw [hrewind]
    exact hv.filled
  have hweights : ∀ h ∈ d.mHistory.values, cstr h.title = cstr t.2 → h.statistics ≤ (rewindFolder hf).statistics := by
    intro h hh htitle
    rw [(ha.history g t hf hlong hv.find h hh htitle).2, hrewind]
  obtain ⟨-, ⟨-, -, hno⟩ | ⟨hflag, data, singer, title, hoffers, hplay, -⟩⟩ := tried_cases hd.steady.schedule htried
  · obtain ⟨data, hoffers⟩ := offers_of_weights hin hd hv (ht_rewindFolder hf) hfirst hne hweights
    exact absurd hoffers (hno data _ _)
  · obtain ⟨hindex, htrack⟩ := track_of_offers hin hv (ht_rewindFolder hf) hlt hoffers
    rw [hfirst, Option.some.injEq] at hindex
    refine ⟨hflag, ?_⟩
    have honce := List.count_pos_iff.mpr (ha.begun g t hf hlong hv.find hpos)
    rw [played_concat hplay htrack, ← hindex, List.count_append, List.count_singleton_self]
    omega

end Visit

section Pass

variable {env : Env} {c d : TRotatorCtrl} {tracks : Str → List (Str × Str)} {m : Machine}

/-- The call is in its only pass over the longest folders. -/
structure Going (c : TRotatorCtrl) (tracks : Str → List (Str × Str)) (m : Machine) : Prop where
  ahead : Ahead c tracks m.ctrl
  flag : ∀ ito folder toNext, m.control = .inner ito folder toNext → toNext = true
  going : ¬ Stopped m

/-- The call has played the first track of a longest folder twice. -/
def Repeated (c : TRotatorCtrl) (tracks : Str → List (Str × Str)) (m : Machine) : Prop :=
  ∃ folder t, Longest c tracks folder t ∧ 2 ≤ (played m.ctrl).count t

theorem visited_of_find {g : Str} {hf : THFolders} {k : Int} (hd : Lasting env c d)
    (hfilled : ∀ folder table, c.core.tables.find? folder = some table → 0 < arraySize table.1)
    (hentry : d.foldersOrder.find? k = some g) (hfind : d.hfolders.find? g = some hf) : Visited c d g hf := by
  have horder : d.foldersOrder = c.foldersOrder := congrArg Prod.fst hd.view
  have htables : d.core.tables = c.core.tables := congrArg Prod.fst hd.settings
  have hloaded : c.core.tables.find? g = some hf.table := by
    rw [← htables, table_of_find? hfind, THFolders.table_rewindFolder]
  exact ⟨⟨k, horder ▸ hentry⟩, hfind, hloaded, hfilled g _ hloaded⟩

theorem longest_of_size {g : Str} {hf : THFolders} (hin : PlainInput c tracks) (hv : Visited c d g hf)
    (hsize : c.maxHtSize ≤ arraySize hf.ht) : ∃ t, Longest c tracks g t := by
  obtain ⟨k, hk⟩ := hv.ordered
  have hlen : 0 < (tracks g).length := (hin.numbered g _ hv.loaded).size ▸ hv.filled
  exact ⟨_, k, hf.table, hk, hv.loaded, hsize, List.getElem?_eq_getElem hlen⟩

theorem endVisit_next {ito : Int} (hd : Lasting env c d) (hentry : ∃ g, d.foldersOrder.find? ito = some g) :
    ∃ k, endVisit env d ito true = ⟨d, .outer k⟩ := by
  obtain ⟨g, hg⟩ := hentry
  obtain ⟨k, hk⟩ := SortedMap.exists_successor (SortedMap.mem_keys_iff.mpr ⟨g, hg⟩)
  refine ⟨k, ?_⟩
  simp only [endVisit, incomplete_of_lasting hd, nextFolder, hk, Bool.false_eq_true, if_false]

theorem endVisit_last {ito : Int} (hd : Lasting env c d) : endVisit env d ito false = finish d := by
  simp [endVisit, incomplete_of_lasting hd, endRound, hd.unlimited.2.2]

/-- A visit stays ahead of the end of the longest folders, or it is the last one and plays
a first record again. -/
theorem going_tried {ito : Int} {toNext flNext : Bool} (hin : PlainInput c tracks)
    (hfilled : ∀ folder table, c.core.tables.find? folder = some table → 0 < arraySize table.1)
    (hvalid : ∀ folder t, Longest c tracks folder t → t.1 ≠ [] ∧ t.2 ≠ [])
    (hd : Lasting env c m.ctrl) (hinv : Inv m) (hm : Going c tracks m) (hcontrol : m.control = .inner ito g toNext)
    (hfind : m.ctrl.hfolders.find? g = some hf) (htried : Tried m.ctrl g (rewindFolder hf) flNext e) :
    m.ctrl.endOfFolder hf toNext = true ∧ Ahead c tracks e ∨
      m.ctrl.endOfFolder hf toNext = false ∧ flNext = true ∧ ∃ t, Longest c tracks g t ∧ 2 ≤ (played e).count t := by
  obtain rfl := hm.flag ito g toNext hcontrol
  have hentry := (hinv.visiting ito g true hcontrol).entry
  have hv := visited_of_find hd hfilled hentry hfind
  have hmax : m.ctrl.maxHtSize = c.maxHtSize := congrArg (·.2.1) hd.view
  by_cases hlast : arraySize hf.ht ≤ hf.index ∧ c.maxHtSize ≤ arraySize hf.ht
  · obtain ⟨t, hlong⟩ := longest_of_size hin hv hlast.2
    obtain ⟨hflag, hcount⟩ := first_again hin hd hm.ahead hv hlast.1 hlong (hvalid g t hlong) htried
    refine .inr ⟨?_, hflag, t, hlong, hcount⟩
    rw [endOfFolder, if_pos hlast.1, hmax]
    exact decide_eq_false (by omega)
  · have hnot : hf.index < arraySize hf.ht ∨ ∀ t, ¬ Longest c tracks g t := by
      rcases Nat.lt_or_ge hf.index (arraySize hf.ht) with hlt | hge
      · exact .inl hlt
      · refine .inr fun t hlong => hlast ⟨hge, ?_⟩
        obtain ⟨-, table, -, htable, hsize, -⟩ := hlong
        rw [hv.loaded, Option.some.injEq] at htable
        rw [← htable] at hsize
        exact hsize
    refine .inl ⟨?_, ahead_tried hin hd hm.ahead hv hvalid hnot htried⟩
    rw [endOfFolder]
    split
    · rename_i hge
      have hle := hm.ahead.indexes g hf hfind
      exact decide_eq_true (by omega)
    · rfl

theorem going_tick (hin : PlainInput c tracks)
    (hfilled : ∀ folder table, c.core.tables.find? folder = some table → 0 < arraySize table.1)
    (hvalid : ∀ folder t, Longest c tracks folder t → t.1 ≠ [] ∧ t.2 ≠ [])
    (hd : Lasting env c m.ctrl) (hinv : Inv m) (hm : Going c tracks m) :
    (tick env m).control = .undefined ∨ Going c tracks (tick env m) ∨
      Stopped (tick env m) ∧ Repeated c tracks (tick env m) := by
  have hpass := tick_pass env m
  generalize tick env m = t at hpass ⊢
  cases hpass with
  | stopped hstop => exact absurd hstop hm.going
  | undefined => exact .inl rfl
  | begins =>
      refine .inr (.inl ⟨⟨hm.ahead.indexes, hm.ahead.weight, hm.ahead.begun, hm.ahead.history⟩, ?_, by simp [Stopped]⟩)
      rintro _ _ _ ⟨⟩
      rfl
  | stays _ _ _ _ _ hcontrol _ hfind htried =>
      rcases going_tried hin hfilled hvalid hd hinv hm hcontrol hfind htried with ⟨hflag, ha⟩ | ⟨-, hfalse, -⟩
      · rw [hflag]
        refine .inr (.inl ⟨ha, ?_, by simp [Stopped]⟩)
        rintro _ _ _ ⟨⟩
        rfl
      · cases hfalse
  | leaves ito g _ _ e hcontrol _ hfind htried =>
      have he := lasting_tried hd hfind htried
      rcases going_tried hin hfilled hvalid hd hinv hm hcontrol hfind htried with
        ⟨hflag, ha⟩ | ⟨hflag, -, t, hlong, hcount⟩
      · have hentry := (hinv.visiting ito g _ hcontrol).entry
        have horder : e.foldersOrder = m.ctrl.foldersOrder :=
          congrArg Prod.fst (orderView_tried hd.steady.schedule htried)
        obtain ⟨k, hnext⟩ := endVisit_next he ⟨g, horder ▸ hentry⟩
        rw [hflag, hnext]
        exact .inr (.inl ⟨ha, (by simp), by simp [Stopped]⟩)
      · rw [hflag, endVisit_last he]
        exact .inr (.inr ⟨.inl rfl, g, t, hlong, hcount⟩)

theorem going_passes (hin : PlainInput c tracks)
    (hfilled : ∀ folder table, c.core.tables.find? folder = some table → 0 < arraySize table.1)
    (hvalid : ∀ folder t, Longest c tracks folder t → t.1 ≠ [] ∧ t.2 ≠ []) (hc : Lasting env c c)
    (hconsistent : c.specialConditions = false → c.schedule = false) (hstart : Going c tracks (createPlaylist c)) (n : Nat) :
    (passes env c n).control = .undefined ∨ Going c tracks (passes env c n) ∨
      Stopped (passes env c n) ∧ Repeated c tracks (passes env c n) := by
  induction n with
  | zero => exact .inr (.inl hstart)
  | succ n ih =>
      rw [passes_add env c n 1]
      by_cases hstop : Stopped (passes env c n)
      · have hsame : (tick env)^[1] (passes env c n) = passes env c n := tick_of_stopped env hstop
        rw [hsame]
        exact ih
      · rcases ih with hundefined | hgoing | ⟨hstopped, -⟩
        · exact absurd (.inr hundefined) hstop
        · exact going_tick hin hfilled hvalid (lasting_passes hc n) (inv_passes hconsistent n) hgoing
        · exact absurd hstopped hstop

def FromOrder (c : TRotatorCtrl) (tracks : Str → List (Str × Str)) (d : TRotatorCtrl) : Prop :=
  ∀ t ∈ played d, (t.1 ≠ [] ∧ t.2 ≠ []) ∧ ∃ (k : Int) (folder : Str) (table : HashTable × Bool) (i : Nat),
    c.foldersOrder.find? k = some folder ∧ c.core.tables.find? folder = some table ∧ (tracks folder)[i]? = some t

theorem fromOrder_tried {g : Str} {hf : THFolders} {flNext : Bool} {e : TRotatorCtrl} (hin : PlainInput c tracks)
    (hd : Lasting env c d) (hv : Visited c d g hf) (hfrom : FromOrder c tracks d)
    (h : Tried d g (rewindFolder hf) flNext e) : FromOrder c tracks e := by
  obtain ⟨-, ⟨hplay, -, -⟩ | ⟨-, data, singer, title, hoffers, hplay, -⟩⟩ := tried_cases hd.steady.schedule h
  · rw [FromOrder, played, hplay]
    exact hfrom
  · obtain ⟨hindex, htrack⟩ := track_of_offers hin hv (ht_rewindFolder hf) (rewindFolder_lt hin hv) hoffers
    rw [FromOrder, played_concat hplay htrack]
    intro t ht
    rcases List.mem_append.mp ht with hold | hnew
    · exact hfrom t hold
    · obtain rfl := List.mem_singleton.mp hnew
      obtain ⟨k, hk⟩ := hv.ordered
      exact ⟨ne_nil_of_validRecord hoffers.2.1, k, g, hf.table, _, hk, hv.loaded, hindex⟩

theorem fromOrder_tick (hin : PlainInput c tracks)
    (hfilled : ∀ folder table, c.core.tables.find? folder = some table → 0 < arraySize table.1)
    (hd : Lasting env c m.ctrl) (hinv : Inv m) (hm : FromOrder c tracks m.ctrl) : FromOrder c tracks (tick env m).ctrl := by
  have hpass := tick_pass env m
  generalize tick env m = t at hpass ⊢
  cases hpass with
  | stopped | undefined | begins => exact hm
  | stays ito g toNext _ _ hcontrol _ hfind htried =>
      have hentry := (hinv.visiting ito g toNext hcontrol).entry
      exact fromOrder_tried hin hd (visited_of_find hd hfilled hentry hfind) hm htried
  | leaves ito g toNext _ _ hcontrol _ hfind htried =>
      have hentry := (hinv.visiting ito g toNext hcontrol).entry
      rw [FromOrder, played, playList_endVisit]
      exact fromOrder_tried hin hd (visited_of_find hd hfilled hentry hfind) hm htried

theorem fromOrder_passes (hin : PlainInput c tracks)
    (hfilled : ∀ folder table, c.core.tables.find? folder = some table → 0 < arraySize table.1) (hc : Lasting env c c)
    (hconsistent : c.specialConditions = false → c.schedule = false) (n : Nat) :
    FromOrder c tracks (passes env c n).ctrl := by
  induction n with
  | zero =>
      intro t ht
      rw [passes, Function.iterate_zero, id_eq, played, (createPlaylist_account c).1] at ht
      cases ht
  | succ n ih =>
      rw [passes_add env c n 1]
      exact fromOrder_tick hin hfilled (lasting_passes hc n) (inv_passes hconsistent n) ih

theorem going_createPlaylist (hin : PlainInput c tracks) (hc : Lasting env c c) (hunvisited : Unvisited c.hfolders)
    (horder : 0 < c.foldersOrder.size) (harray : arraySize c.array ≠ 0) (herror : c.error = EMPTY_ERROR) :
    Going c tracks (createPlaylist c) := by
  obtain ⟨ito, hstart⟩ := createPlaylist_outer hc.steady horder harray herror
  have hindex (folder : Str) (hf : THFolders) (hfind : c.hfolders.find? folder = some hf) : hf.index = 0 := by
    have hloaded : c.core.tables.find? folder = some hf.table := by
      rw [table_of_find? hfind, THFolders.table_rewindFolder]
    have hnumbered : Numbered hf.ht (tracks folder) := hin.numbered folder _ hloaded
    rw [(hunvisited folder hf hfind).2.1, searchNextHashIndex_numbered hnumbered, START_INDEX]
  rw [hstart]
  refine ⟨⟨fun folder hf hfind => ?_, fun folder t hf _ hfind => (hunvisited folder hf hfind).2.2,
    fun folder t hf _ hfind hpos => ?_, fun folder t hf _ _ h hh => ?_⟩, (by simp), by simp [Stopped]⟩
  · rw [hindex folder hf hfind]
    exact Nat.zero_le _
  · rw [hindex folder hf hfind] at hpos
    exact absurd hpos (lt_irrefl 0)
  · have hempty : c.mHistory.values = [] := by
      rw [hin.history]
      rfl
    rw [hempty] at hh
    cases hh

end Pass

section Input

variable {env : Env} {arr : HashTable} {c : TRotatorCtrl} {tracks : Str → List (Str × Str)}

/-- What the construction of an object with a folder makes sure of. -/
structure Constructed (env : Env) (c : TRotatorCtrl) : Prop where
  lasting : Lasting env c c
  unvisited : Unvisited c.hfolders
  array : arraySize c.array ≠ 0
  error : c.error = EMPTY_ERROR
  filled : ∀ folder table, c.core.tables.find? folder = some table → 0 < arraySize table.1

theorem new_constructed (hnew : new env arr .none = some c) (hschedule : c.schedule = false)
    (hlimits : c.sRules.singerLimit = 0 ∧ c.sRules.trackLimit = 0) (hsome : 0 < c.hfolders.size) :
    Constructed env c := by
  have hargs := new_arguments hnew
  simp only [arguments, Prod.mk.injEq, Param.limits] at hargs
  obtain ⟨harray, htracks, hduration, herror, -⟩ := hargs
  have hfilled : ∀ folder table, c.core.tables.find? folder = some table → 0 < arraySize table.1 := by
    intro folder table hfind
    rw [core, SortedMap.find?_mapValues, Option.map_eq_some_iff] at hfind
    obtain ⟨hf, hfind, rfl⟩ := hfind
    exact Nat.pos_of_ne_zero (new_unvisited hnew folder hf hfind).1
  rcases new_cases hnew with ⟨-, hnone⟩ | ⟨hfolders, e, m, hbuilt, -, hcore⟩
  · have hzero : c.core.tables.size = 0 := by rw [hnone.tables]; rfl
    rw [core, SortedMap.size_mapValues] at hzero
    omega
  · have hfull := hfolders.arraySize_ne_zero
    rw [if_neg hfull] at herror
    have hspecial : c.specialConditions = false := by
      rcases (new_blank hnew).ready with ⟨hempty, -⟩ | ⟨-, hspecial⟩
      · rw [hempty] at hsome
        exact absurd hsome (lt_irrefl 0)
      · rw [hspecial, hasSpecialConditions, htracks, hduration, hschedule]
        rfl
    have hrules : e.core.mRules = c.mRules ∧ e.core.sRules = c.sRules :=
      ⟨(congrArg Core.mRules hcore).symm, (congrArg Core.sRules hcore).symm⟩
    refine ⟨⟨rfl, rfl, new_steady hnew hschedule, fun folder => ?_, htracks, hduration, hspecial⟩,
      new_unvisited hnew, harray ▸ hfull, herror, hfilled⟩
    rw [getCurrentRules]
    cases hfind : c.mRules.find? folder with
    | none => exact hlimits
    | some r =>
        have hsame := hbuilt.limits folder r (by rw [hrules.1]; exact hfind)
        rw [hrules.2, hlimits.1, hlimits.2] at hsame
        exact hsame

theorem exists_maximal (h : 0 < c.hfolders.size) : ∃ folder, Maximal c folder := by
  have hne : c.core.tables.entries ≠ [] := by
    rw [core, SortedMap.mapValues, ne_eq, List.map_eq_nil_iff]
    exact List.ne_nil_of_length_pos h
  have hmem : c.core.tables.entries.maxOn (fun e => arraySize e.2.1) hne ∈ c.core.tables.entries := List.maxOn_mem
  refine ⟨_, _, SortedMap.find?_of_mem_entries hmem, fun folder table hfind => ?_⟩
  exact List.le_apply_maxOn_of_mem (f := fun e : Str × (HashTable × Bool) => arraySize e.2.1)
    (SortedMap.mem_entries_of_find? hfind)

theorem nodup_tracks (hin : PlainInput c tracks) {folder : Str} {table : HashTable × Bool}
    (htable : c.core.tables.find? folder = some table) : (tracks folder).Nodup := by
  rw [List.nodup_iff_getElem?_ne_getElem?]
  intro i j hij hj heq
  have hi := List.getElem?_eq_getElem (hij.trans hj)
  rw [hi] at heq
  have hsame := hin.distinct folder table folder table i j _ _ htable htable hi heq.symm rfl
  omega

theorem count_of_playsOnce (hin : PlainInput c tracks) {d : TRotatorCtrl} (h : PlaysOnce c tracks d) {folder : Str}
    {t : Str × Str} (hmax : Maximal c folder) (ht : t ∈ tracks folder) : (played d).count t = 1 := by
  have hfilter := h folder hmax
  have hcount := congrArg (List.count t) hfilter
  obtain ⟨table, htable, -⟩ := hmax
  rw [List.count_filter (by simpa using ht)] at hcount
  exact hcount.trans (List.count_eq_one_of_mem (nodup_tracks hin htable) ht)

/-- A folder of maximal length is in the order, for its first track is played. -/
theorem ordered_of_playsOnce (hin : PlainInput c tracks) {d : TRotatorCtrl} (h : PlaysOnce c tracks d)
    (hfrom : FromOrder c tracks d) {folder : Str} (hmax : Maximal c folder) {t : Str × Str}
    (ht : (tracks folder)[0]? = some t) : ∃ k, c.foldersOrder.find? k = some folder := by
  have hcount := count_of_playsOnce hin h hmax (List.mem_of_getElem? ht)
  obtain ⟨-, k, folder', table', i, hk, htable', hindex⟩ :=
    hfrom t (List.count_pos_iff.mp (Nat.lt_of_lt_of_eq Nat.one_pos hcount.symm))
  obtain ⟨table, htable, -⟩ := hmax
  obtain ⟨rfl, -⟩ := hin.distinct _ _ _ _ _ _ _ _ htable' htable hindex ht rfl
  exact ⟨k, hk⟩

/-- With a folder of maximal length in the order the longest folders of the order are of that length. -/
theorem maximal_of_longest {folder folder' : Str} {k : Int} {t : Str × Str} (hloaded : Loaded c)
    (hmax : Maximal c folder) (hk : c.foldersOrder.find? k = some folder) (hlong : Longest c tracks folder' t) :
    Maximal c folder' := by
  obtain ⟨table, htable, hlargest⟩ := hmax
  obtain ⟨-, table', -, htable', hsize, -⟩ := hlong
  obtain ⟨_, hfind, hle⟩ := hloaded k folder hk
  rw [htable, Option.some.injEq] at hfind
  refine ⟨table', htable', fun _ _ hother => ?_⟩
  exact (hlargest _ _ hother).trans ((hfind ▸ hle).trans hsize)

end Input

/-- One pass plays the folders of maximal length once exactly if there are none: the
first record of the longest folder that ends the pass is played again. -/
theorem longest_played_once_iff {env : Env} {arr : HashTable} {c : TRotatorCtrl} {tracks : Str → List (Str × Str)} {n : Nat}
    (hnew : new env arr .none = some c) (hschedule : c.schedule = false) (hin : PlainInput c tracks)
    (hreturns : (passes env c n).control = .idle) :
    PlaysOnce c tracks (passes env c n).ctrl ↔ c.hfolders.size = 0 := by
  constructor
  · intro hplays
    by_contra hne
    have hsome := Nat.pos_of_ne_zero hne
    have hc := new_constructed hnew hschedule hin.limits hsome
    have hfrom := fromOrder_passes hin hc.filled hc.lasting (new_consistent hnew) n
    obtain ⟨M, hM⟩ := exists_maximal hsome
    have hlen : 0 < (tracks M).length := by
      obtain ⟨table, htable, -⟩ := hM
      exact (hin.numbered M table htable).size ▸ hc.filled M table htable
    obtain ⟨k, hk⟩ := ordered_of_playsOnce hin hplays hfrom hM (List.getElem?_eq_getElem hlen)
    have hplayed (folder : Str) (t : Str × Str) (hlong : Longest c tracks folder t) :
        (played (passes env c n).ctrl).count t = 1 := by
      have hmem : t ∈ tracks folder := by
        obtain ⟨-, -, -, -, -, ht⟩ := hlong
        exact List.mem_of_getElem? ht
      have hmax := maximal_of_longest (loaded_of_settled hc.lasting.steady.settled) hM hk hlong
      exact count_of_playsOnce hin hplays hmax hmem
    have hvalid (folder : Str) (t : Str × Str) (hlong : Longest c tracks folder t) : t.1 ≠ [] ∧ t.2 ≠ [] :=
      (hfrom t (List.count_pos_iff.mp (by rw [hplayed folder t hlong]; exact Nat.one_pos))).1
    have hstart := going_createPlaylist hin hc.lasting hc.unvisited (SortedMap.size_pos_of_find? hk) hc.array hc.error
    rcases going_passes hin hc.filled hvalid hc.lasting (new_consistent hnew) hstart n with
      hundefined | hgoing | ⟨-, folder, t, hlong, htwice⟩
    · simp [hundefined] at hreturns
    · exact hgoing.going (.inl hreturns)
    · rw [hplayed folder t hlong] at htwice
      exact absurd htwice (by decide)
  · rintro hnone folder ⟨table, htable, -⟩
    have hpos := SortedMap.size_pos_of_find? htable
    rw [core, SortedMap.size_mapValues] at hpos
    omega

section Demo

def demoArray : HashTable :=
  [(.str DEFAULT_FOLDERS, .array [folderNode "A" [trackRecord "x" "one" none]])]

def demoTracks : Str → List (Str × Str) := fun _ => [("x".toList, "one".toList)]

def demo : TRotatorCtrl := (new (Env.at 0) demoArray .none).get rfl

theorem demo_new : new (Env.at 0) demoArray .none = some demo :=
  (@Option.some_get _ (new (Env.at 0) demoArray .none) rfl).symm

theorem demo_table {folder : Str} {table : HashTable × Bool} (h : demo.core.tables.find? folder = some table) :
    folder = "A".toList ∧ table = ([(.long 0, .array (trackRecord "x" "one" none))], false) := by
  have hmem := SortedMap.mem_entries_of_find? h
  rw [show demo.core.tables.entries = [("A".toList, ([(.long 0, .array (trackRecord "x" "one" none))], false))] from rfl,
    List.mem_singleton, Prod.mk.injEq] at hmem
  exact hmem

theorem demo_input : PlainInput demo demoTracks where
  limits := ⟨rfl, rfl⟩
  history := rfl
  numbered := by
    intro folder table hfind
    obtain ⟨-, rfl⟩ := demo_table hfind
    refine ⟨rfl, fun i t ht => ?_⟩
    match i with
    | 0 => exact ⟨_, rfl, ht⟩
    | i + 1 => simp [demoTracks] at ht
  distinct := by
    intro folder table folder' table' i j t t' hfind hfind' ht ht' _
    refine ⟨(demo_table hfind).1.trans (demo_table hfind').1.symm, ?_⟩
    match i, j with
    | 0, 0 => rfl
    | i + 1, _ => simp [demoTracks] at ht
    | 0, j + 1 => simp [demoTracks] at ht'

theorem longest_played_once_iff_demo :
    PlaysOnce demo demoTracks (passes (Env.at 0) demo 4).ctrl ↔ demo.hfolders.size = 0 :=
  longest_played_once_iff demo_new rfl demo_input rfl

/-- The only record of the only folder is played twice. -/
theorem first_record_played_again : ¬ ∀ (env : Env) (arr : HashTable) (c : TRotatorCtrl)
    (tracks : Str → List (Str × Str)) (n : Nat), new env arr .none = some c → c.schedule = false →
    PlainInput c tracks → (passes env c n).control = .idle → PlaysOnce c tracks (passes env c n).ctrl := by
  intro h
  have hplays := h (Env.at 0) demoArray demo demoTracks 4 demo_new rfl demo_input rfl
  have hmax : Maximal demo "A".toList :=
    ⟨_, rfl, fun folder table hfind => by rw [(demo_table hfind).2]; exact le_rfl⟩
  exact absurd (hplays "A".toList hmax) (by decide)

end Demo

end RadioServices.Rotator.LongestPass

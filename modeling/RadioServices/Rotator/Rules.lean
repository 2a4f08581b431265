import RadioServices.Rotator.Construction

namespace RadioServices.Rotator.Rules

open Lib Lib.C Lib.Spacing TRotatorCtrl

/-- An array keyed `0..n-1`, in any order of insertion, with a record of each track. -/
def IsHistory (ht : HashTable) (H : List (Str × Str)) : Prop :=
  arraySize ht ≤ HT_MAX_SIZE ∧ ∃ records : List HashTable,
    ht.Perm (records.zipIdx.map fun e => (.long e.2, .array e.1)) ∧ records.map recordTrack = H.map some

/-- The history an input array gives, in key order: no node, no history. -/
def HistoryInput (arr : HashTable) (H : List (Str × Str)) : Prop :=
  match getNodePtr arr DEFAULT_HISTORY with
  | none => H = []
  | some ht => IsHistory ht H

def THistory.track (h : THistory) : Str × Str := (h.singer, h.title)

/-- Both rules allow the track after the given history. -/
def Follows (r : TRules) (t : Str × Str) (H : List (Str × Str)) : Prop :=
  Spaced (fun u => u.1 = t.1) r.singerLimit H ∧ Spaced (fun u => u = t) r.trackLimit H

structure RulesInv (H : List (Str × Str)) (k : Core) : Prop where
  fresh : ∀ j ∈ k.mHistory.keys, j < k.mHistory.size
  history : k.mHistory.values.map THistory.track = H ++ k.added.map Addition.track
  limits : ∀ folder r, k.mRules.find? folder = some r →
    r.singerLimit = k.sRules.singerLimit ∧ r.trackLimit = k.sRules.trackLimit
  follows : ∀ pre a post, k.added = pre ++ a :: post → a.service = false →
    Follows k.sRules a.track (H ++ pre.map Addition.track)

section Step

/-- The search may match more entries than the ones it has to keep apart. -/
theorem titleStatisticsInHistory_add {m : MHistory} {title : Str} {ruleTrack s : Int}
    {p : THistory → Prop} (hp : ∀ e, p e → e.title = title)
    (h : titleStatisticsInHistory m title ruleTrack = (.addToPlaylist, s)) :
    Spaced p ruleTrack m.values := by
  have hmatch (e : THistory) (he : p e) : strcmpEq e.title title = true := by simp [hp e he, strcmpEq]
  rw [titleStatisticsInHistory, newestInHistory] at h
  split at h
  · rename_i hnone
    exact spaced_of_none hmatch hnone ruleTrack
  · rename_i hsome
    split at h
    · rename_i hle
      exact spaced_of_some hmatch hsome hle
    · simp at h

theorem findRecordInHistory_add {m : MHistory} {singer title : Str} {ruleSinger ruleTrack s : Int}
    (h : findRecordInHistory m singer title ruleSinger ruleTrack s = .addToPlaylist) :
    Spaced (fun e : THistory => e.singer = singer) ruleSinger m.values ∧
      Spaced (fun e : THistory => THistory.track e = (singer, title)) ruleTrack m.values := by
  have hmatch (e : THistory) (he : e.singer = singer) : strcmpEq e.singer singer = true := by
    simp [he, strcmpEq]
  have hpair (e : THistory) (he : THistory.track e = (singer, title)) :
      e.singer = singer ∧ e.title = title := Prod.mk.injEq .. ▸ he
  rw [findRecordInHistory, newestInHistory] at h
  split at h
  · rename_i hnone
    exact ⟨spaced_of_none hmatch hnone ruleSinger,
      spaced_of_none (fun e he => hmatch e (hpair e he).1) hnone ruleTrack⟩
  · rename_i hsome
    split at h
    · rename_i hle
      refine ⟨spaced_of_some hmatch hsome hle, ?_⟩
      split at h
      · simp at h
      · rename_i htitle
        exact titleStatisticsInHistory_add (fun e he => (hpair e he).2) htitle
    · simp at h

theorem whatToDo_add {c : TRotatorCtrl} {hf : THFolders} {folder : Str} {h : THistory}
    {H : List (Str × Str)} (hI : RulesInv H c.core) (hservice : hf.service = false)
    (hwhat : c.whatToDo hf folder h.singer h.title = .addToPlaylist) :
    Follows c.sRules (THistory.track h) (H ++ c.added.map Addition.track) := by
  have hlimits : (c.getCurrentRules (cstr folder)).singerLimit = c.sRules.singerLimit ∧
      (c.getCurrentRules (cstr folder)).trackLimit = c.sRules.trackLimit := by
    rw [getCurrentRules]
    cases hfind : c.mRules.find? (cstr folder) with
    | none => exact ⟨rfl, rfl⟩
    | some r => exact hI.limits _ r hfind
  simp only [whatToDo, hservice, Bool.false_eq_true, if_false] at hwhat
  obtain ⟨hsinger, htrack⟩ := findRecordInHistory_add hwhat
  rw [hlimits.1] at hsinger
  rw [hlimits.2] at htrack
  have hhistory : c.mHistory.values.map THistory.track = H ++ c.added.map Addition.track := hI.history
  rw [← hhistory]
  exact ⟨Spaced.map (p := fun u : Str × Str => u.1 = h.singer) hsinger, Spaced.map htrack⟩

theorem rulesInv_add {H : List (Str × Str)} {k : Core} {a : Addition} {h : THistory}
    (hI : RulesInv H k) (htrack : a.track = THistory.track h)
    (hfollows : a.service = false → Follows k.sRules a.track (H ++ k.added.map Addition.track)) :
    RulesInv H (k.add a h) where
  fresh := by
    have hnew : (k.mHistory.size : Int) ∉ k.mHistory.keys := fun hmem => absurd (hI.fresh _ hmem) (by simp)
    have hsize := k.mHistory.size_insert k.mHistory.size h
    rw [if_neg hnew] at hsize
    intro j hj
    simp only [Core.add] at hj ⊢
    rw [hsize]
    rcases SortedMap.mem_keys_insert.mp hj with rfl | hj
    · omega
    · have hlt := hI.fresh j hj
      omega
  history := by
    have hentries := SortedMap.entries_insert_of_gt (v := h) hI.fresh
    have hold := hI.history
    simp only [SortedMap.values] at hold
    simp [Core.add, SortedMap.values, hentries, hold, htrack]
  limits := hI.limits
  follows := by
    intro pre b post hsplit hservice
    simp only [Core.add] at hsplit
    rcases List.eq_nil_or_concat post with rfl | ⟨post', z, rfl⟩
    · have hlast := List.append_inj' hsplit rfl
      obtain ⟨rfl, hb⟩ := hlast
      obtain rfl : a = b := by simpa using hb
      exact hfollows hservice
    · have hlast : k.added ++ [a] = (pre ++ b :: post') ++ [z] := by simpa using hsplit
      exact hI.follows pre b post' (List.append_inj' hlast rfl).1 hservice

theorem rulesInv_step (env : Env) {H : List (Str × Str)} (m : Machine) (e : Machine.Event)
    (hI : RulesInv H m.ctrl.core) : RulesInv H (Machine.step env m e).ctrl.core := by
  rcases Machine.step_core env m e with hsame | ⟨a, h, hadds, hcore⟩
  · rw [hsame]; exact hI
  · obtain ⟨ito, folder, toNext, hf, data, -, -, hoffers, rfl⟩ := hadds
    rw [hcore]
    apply rulesInv_add hI rfl
    intro hservice
    have hrewind : (rewindFolder hf).service = false := by
      rw [rewindFolder]
      split <;> exact hservice
    exact whatToDo_add hI hrewind hoffers.2.2

end Step

section History

def entryTrack : ZendKey × Zval → Int × (Str × Str)
  | (.long i, .array data) => (i, (recordTrack data).getD ([], []))
  | _ => (0, ([], []))

def Readable (e : ZendKey × Zval) : Prop :=
  ∃ (i : Nat) (data : HashTable) (t : Str × Str),
    e = (.long i, .array data) ∧ i < HT_MAX_SIZE ∧ recordTrack data = some t

def historyTrack (e : Int × THistory) : Int × (Str × Str) := (e.1, THistory.track e.2)

theorem searchHistoryEntry_readable (env : Env) (history : HashTable) (m : MHistory)
    {e : ZendKey × Zval} (he : Readable e) :
    ∃ h, searchHistoryEntry env history m e = some (m.insert (entryTrack e).1 h) ∧
      THistory.track h = (entryTrack e).2 := by
  obtain ⟨i, data, t, rfl, hi, ht⟩ := he
  have hi32 : i32 (i : Int) = i := i32_of_bounds (by omega) (by unfold HT_MAX_SIZE at hi; omega)
  rw [recordTrack] at ht
  split at ht
  · rename_i singer title hsinger htitle
    simp only [Option.some.injEq] at ht
    subst ht
    refine ⟨⟨singer, title, calcStatisticsInHistory history title⟩, ?_, ?_⟩
    · simp [searchHistoryEntry, hsinger, htitle, numIndex, hi32, entryTrack]
    · simp [entryTrack, recordTrack, hsinger, htitle, THistory.track]
  · simp at ht

theorem searchHistory_perm (env : Env) (history l : HashTable) (hl : ∀ e ∈ l, Readable e)
    {m m' : MHistory} (hnodup : (l.map fun e => (entryTrack e).1).Nodup)
    (hnew : ∀ e ∈ l, (entryTrack e).1 ∉ m.keys)
    (h : l.foldlM (searchHistoryEntry env history) m = some m') :
    (m'.entries.map historyTrack).Perm (m.entries.map historyTrack ++ l.map entryTrack) := by
  induction l generalizing m with
  | nil =>
      simp only [List.foldlM_nil, Option.pure_def, Option.some.injEq] at h
      simp [h]
  | cons e l ih =>
      obtain ⟨x, hx, htrack⟩ := searchHistoryEntry_readable env history m (hl e List.mem_cons_self)
      simp only [List.foldlM_cons, hx, Option.bind_eq_bind, Option.bind_some] at h
      simp only [List.map_cons, List.nodup_cons, List.mem_map, not_exists, not_and] at hnodup
      have hrest := ih (fun f hf => hl f (List.mem_cons_of_mem _ hf)) hnodup.2 (fun f hf hmem => by
        rcases SortedMap.mem_keys_insert.mp hmem with heq | hmem
        · exact hnodup.1 f hf heq
        · exact hnew f (List.mem_cons_of_mem _ hf) hmem) h
      have hone := (SortedMap.entries_insert_perm x (hnew e List.mem_cons_self)).map historyTrack
      have hpair : historyTrack ((entryTrack e).1, x) = entryTrack e := by
        rw [historyTrack, htrack]
      rw [List.map_cons, hpair] at hone
      exact hrest.trans ((hone.append_right _).trans List.perm_middle.symm)

theorem entryTrack_zipIdx {records : List HashTable} {H : List (Str × Str)}
    (h : records.map recordTrack = H.map some) (n : Nat) :
    (records.zipIdx n).map (fun e => entryTrack (.long e.2, .array e.1)) =
      (H.zipIdx n).map fun e => ((e.2 : Int), e.1) := by
  induction records generalizing H n with
  | nil =>
      obtain rfl : H = [] := by simpa using h.symm
      rfl
  | cons data records ih =>
      cases H with
      | nil => simp at h
      | cons t H =>
          simp only [List.map_cons, List.cons.injEq] at h
          rw [List.zipIdx_cons, List.zipIdx_cons, List.map_cons, List.map_cons, ih h.2]
          simp [entryTrack, h.1]

theorem zipIdx_sorted (H : List (Str × Str)) (n : Nat) :
    ((H.zipIdx n).map fun e => ((e.2 : Int), e.1)).Pairwise fun a b => a.1 < b.1 := by
  induction H generalizing n with
  | nil => simp
  | cons t H ih =>
      simp only [List.zipIdx_cons, List.map_cons]
      refine List.pairwise_cons.mpr ⟨fun e he => ?_, ih (n + 1)⟩
      obtain ⟨f, hf, rfl⟩ := List.mem_map.mp he
      have hle := (List.mem_zipIdx hf).1
      simp only
      omega

theorem searchHistory_entries (env : Env) {ht : HashTable} {H : List (Str × Str)} (hH : IsHistory ht H)
    {m : MHistory} (h : ht.foldlM (searchHistoryEntry env ht) .empty = some m) :
    m.entries.map historyTrack = H.zipIdx.map fun e => ((e.2 : Int), e.1) := by
  obtain ⟨hsize, records, hperm, hrecords⟩ := hH
  have hentries : (ht.map entryTrack).Perm (H.zipIdx.map fun e => ((e.2 : Int), e.1)) := by
    have hmap := hperm.map entryTrack
    rwa [List.map_map, Function.comp_def, entryTrack_zipIdx hrecords] at hmap
  have hnodup : (ht.map fun e => (entryTrack e).1).Nodup := by
    have hkeys := hentries.map Prod.fst
    rw [List.map_map, Function.comp_def] at hkeys
    rw [hkeys.nodup_iff]
    exact (List.pairwise_map.mpr ((zipIdx_sorted H 0).imp fun hlt => ne_of_lt hlt))
  have hreadable : ∀ e ∈ ht, Readable e := by
    intro e he
    obtain ⟨f, hf, rfl⟩ := List.mem_map.mp (hperm.subset he)
    have hlen : records.length = ht.length := by rw [hperm.length_eq]; simp
    have hlt := (List.mem_zipIdx hf).2.1
    have hmem : recordTrack f.1 ∈ H.map some :=
      hrecords ▸ List.mem_map_of_mem (List.fst_mem_of_mem_zipIdx hf)
    obtain ⟨t, -, ht⟩ := List.mem_map.mp hmem
    exact ⟨f.2, f.1, t, rfl, by unfold arraySize at hsize; omega, ht.symm⟩
  have hall := searchHistory_perm env ht ht hreadable hnodup (by simp [SortedMap.keys]) h
  rw [SortedMap.entries_empty, List.map_nil, List.nil_append] at hall
  refine (hall.trans hentries).eq_of_pairwise (fun a b _ _ hab hba => absurd hab hba.asymm) ?_ (zipIdx_sorted H 0)
  exact List.pairwise_map.mpr m.sorted

theorem rulesInv_of_entries {H : List (Str × Str)} {k : Core} (hadded : k.added = [])
    (hentries : k.mHistory.entries.map historyTrack = H.zipIdx.map fun e => ((e.2 : Int), e.1))
    (hlimits : ∀ folder r, k.mRules.find? folder = some r →
      r.singerLimit = k.sRules.singerLimit ∧ r.trackLimit = k.sRules.trackLimit) : RulesInv H k where
  fresh := by
    intro j hj
    have hsize : k.mHistory.size = H.length := by
      have hlen := congrArg List.length hentries
      simpa [SortedMap.size] using hlen
    have hkeys : k.mHistory.keys = (H.zipIdx.map fun e => ((e.2 : Int), e.1)).map Prod.fst := by
      rw [← hentries, List.map_map]; rfl
    rw [hkeys, List.map_map] at hj
    obtain ⟨e, he, rfl⟩ := List.mem_map.mp hj
    have hlt := (List.mem_zipIdx he).2.1
    rw [hsize]
    simp only [Function.comp_apply]
    omega
  history := by
    have hvalues := congrArg (List.map Prod.snd) hentries
    rw [List.map_map, List.map_map] at hvalues
    rw [hadded, List.map_nil, List.append_nil, SortedMap.values, List.map_map]
    exact hvalues.trans (List.zipIdx_map_fst 0 H)
  limits := hlimits
  follows := by
    intro pre a post hsplit
    simp [hadded] at hsplit

end History

theorem new_rulesInv {env : Env} {arr : HashTable} {arg : Param} {c : TRotatorCtrl}
    {H : List (Str × Str)} (hH : HistoryInput arr H) (h : new env arr arg = some c) :
    NoFolders c.core ∨ RulesInv H c.core := by
  rcases new_cases h with ⟨-, hc⟩ | ⟨-, d, m, hd, hm, hcore⟩
  · exact .inl hc
  · refine .inr (hcore ▸ rulesInv_of_entries hd.added ?_ hd.limits)
    rw [HistoryInput] at hH
    rw [loadHistory] at hm
    cases hnode : getNodePtr arr DEFAULT_HISTORY with
    | none =>
        rw [hnode] at hH hm
        simp only [Option.some.injEq] at hH hm
        rw [← hm, hH]; rfl
    | some ht =>
        rw [hnode] at hH hm
        exact searchHistory_entries env hH hm

theorem noFolders_step (env : Env) (m : Machine) (e : Machine.Event) (hI : NoFolders m.ctrl.core) :
    NoFolders (Machine.step env m e).ctrl.core := by
  rcases Machine.step_core env m e with hsame | ⟨a, h, hadds, -⟩
  · rw [hsame]; exact hI
  · obtain ⟨ito, folder, toNext, hf, data, -, hfind, -⟩ := hadds
    have hnone : m.ctrl.core.tables.find? folder = none := by rw [hI.tables]; rfl
    rw [core, SortedMap.find?_mapValues, hfind] at hnone
    simp at hnone

/-- In every run on an object built from the input array, a track taken from a
folder that is no service folder follows the rules: its executor and the track
itself lie far enough back in the input history and the tracks added before. -/
theorem added_follows {env : Env} {arr : HashTable} {arg : Param} {c : TRotatorCtrl}
    {H : List (Str × Str)} (hH : HistoryInput arr H) (hnew : new env arr arg = some c)
    (es : List Machine.Event) (pre post : List Addition) (a : Addition)
    (hadded : (Machine.run env c es).ctrl.added = pre ++ a :: post) (hservice : a.service = false) :
    Spaced (fun u => u.1 = a.executor) c.sRules.singerLimit (H ++ pre.map Addition.track) ∧
      Spaced (fun u => u = (a.executor, a.title)) c.sRules.trackLimit (H ++ pre.map Addition.track) := by
  have hrun : NoFolders (Machine.run env c es).ctrl.core ∨ RulesInv H (Machine.run env c es).ctrl.core :=
    Runs.run_invariant_all (fun m : Machine => NoFolders m.ctrl.core ∨ RulesInv H m.ctrl.core)
      (fun m e h => h.imp (noFolders_step env m e) (rulesInv_step env m e))
      (s := Machine.start c) (new_rulesInv hH hnew) es
  have hrules : (Machine.run env c es).ctrl.core.sRules = c.sRules :=
    Machine.run_frame Core.sRules (fun _ _ _ => rfl) env c es
  rcases hrun with hnone | hI
  · have hnil : pre ++ a :: post = [] := hadded ▸ hnone.added
    simp at hnil
  · have hfollows := hI.follows pre a post hadded hservice
    rw [hrules] at hfollows
    exact hfollows

section Demo

def demoArray : HashTable :=
  [(.str DEFAULT_RULES, .array [(.str "singer_interval".toList, .string "1".toList)]),
    (.str DEFAULT_FOLDERS, .array
      [folderNode "A" [trackRecord "x" "old" none, trackRecord "y" "new" none]]),
    (.str DEFAULT_HISTORY, .array
      [(.long 1, .array (trackRecord "x" "last" none)), (.long 0, .array (trackRecord "y" "first" none))])]

def demo : TRotatorCtrl := (new (Env.at 0) demoArray .none).get rfl

theorem demo_new : new (Env.at 0) demoArray .none = some demo :=
  (@Option.some_get _ (new (Env.at 0) demoArray .none) rfl).symm

theorem demo_history : HistoryInput demoArray [("y".toList, "first".toList), ("x".toList, "last".toList)] :=
  ⟨by decide, [trackRecord "y" "first" none, trackRecord "x" "last" none], .swap _ _ _, rfl⟩

/-- The first record is skipped, its executor was last; the second one follows. -/
theorem added_follows_demo :
    Spaced (fun u => u.1 = "y".toList) demo.sRules.singerLimit
        [("y".toList, "first".toList), ("x".toList, "last".toList)] ∧
      Spaced (fun u => u = ("y".toList, "new".toList)) demo.sRules.trackLimit
        [("y".toList, "first".toList), ("x".toList, "last".toList)] :=
  added_follows demo_history demo_new
    [.createPlaylist, .tick, .tick, .tick] [] []
    ⟨"A".toList, false, "y".toList, "new".toList, trackRecord "y" "new" none⟩ rfl rfl

end Demo

end RadioServices.Rotator.Rules

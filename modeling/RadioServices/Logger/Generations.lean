import RadioServices.Logger.Rotation

namespace RadioServices.Logger

open Lib Lib.C Rotation

/-- The full logs, the oldest first, and the one being written. -/
structure Generations where
  full : List Str
  live : Str

namespace Generations

def add (maxFileSize : Nat) (g : Generations) (text : Str) : Generations :=
  if maxFileSize < (g.live ++ text).length then ⟨g.full ++ [g.live ++ text], []⟩
  else ⟨g.full, g.live ++ text⟩

/-- What the size limit makes of texts written one after another. -/
def ofTexts (maxFileSize : Nat) (texts : List Str) : Generations := texts.foldl (add maxFileSize) ⟨[], []⟩

theorem ofTexts_concat (maxFileSize : Nat) (texts : List Str) (text : Str) :
    ofTexts maxFileSize (texts ++ [text]) = (ofTexts maxFileSize texts).add maxFileSize text := by
  simp [ofTexts]

theorem length_full_le (maxFileSize : Nat) (g : Generations) (text : Str) :
    g.full.length ≤ (g.add maxFileSize text).full.length := by
  rw [add]
  split <;> simp

theorem add_flatten (maxFileSize : Nat) (g : Generations) (text : Str) :
    (g.add maxFileSize text).full.flatten ++ (g.add maxFileSize text).live = g.full.flatten ++ g.live ++ text := by
  rw [add]
  split <;> simp

theorem ofTexts_flatten (maxFileSize : Nat) (texts : List Str) :
    (ofTexts maxFileSize texts).full.flatten ++ (ofTexts maxFileSize texts).live = texts.flatten := by
  induction texts using List.reverseRecOn with
  | nil => rfl
  | append_singleton texts text ih => rw [ofTexts_concat, add_flatten, ih]; simp

def rotations (maxFileSize : Nat) (texts : List Str) : Nat := (ofTexts maxFileSize texts).full.length

/-- The directory holds the log and its archives, numbered without gaps. They
hold the texts written, apart from the oldest generations that there is no
room for. -/
structure Kept (maxFileSize maxArchiveCount : Nat) (base ext : Str) (texts : List Str) (s : System)
    (archives : List Str) (live : Option Str) : Prop where
  entries : s.files.entries = listing base ext archives live
  count : archives.length ≤ maxArchiveCount
  newest : archives = (ofTexts maxFileSize texts).full.drop (rotations maxFileSize texts - maxArchiveCount)
  writing : live.getD [] = (ofTexts maxFileSize texts).live
  texts : ((ofTexts maxFileSize texts).full.take (rotations maxFileSize texts - maxArchiveCount)).flatten ++
    (archives.flatten ++ live.getD []) = texts.flatten

theorem Kept.of_newest {maxFileSize maxArchiveCount : Nat} {base ext : Str} {texts : List Str} {s : System}
    {archives : List Str} {live : Option Str} (hentries : s.files.entries = listing base ext archives live)
    (hnewest : archives = (ofTexts maxFileSize texts).full.drop (rotations maxFileSize texts - maxArchiveCount))
    (hlive : live.getD [] = (ofTexts maxFileSize texts).live) :
    Kept maxFileSize maxArchiveCount base ext texts s archives live := by
  refine ⟨hentries, ?_, hnewest, hlive, ?_⟩
  · rw [hnewest, List.length_drop, rotations]
    omega
  · rw [hnewest, hlive, ← List.append_assoc, ← List.flatten_append, List.take_append_drop, ofTexts_flatten]

/-- The lock as one thread leaves it between its calls. -/
def released (pLoggerMutex : Bool) : Option Bool := if pLoggerMutex = true then some false else none

def held (pLoggerMutex : Bool) : Option Bool := if pLoggerMutex = true then some true else none

theorem writeMutexLock_released {s : System} {pLoggerMutex : Bool} (h : s.lockWrite = released pLoggerMutex) :
    writeMutexLock s = some { s with lockWrite := held pLoggerMutex } := by
  obtain ⟨files, lockWrite⟩ := s
  cases pLoggerMutex
  · obtain rfl : lockWrite = none := h
    rfl
  · obtain rfl : lockWrite = some false := h
    rfl

theorem writeMutexUnlock_held {s : System} {pLoggerMutex : Bool} (h : s.lockWrite = held pLoggerMutex) :
    writeMutexUnlock s = { s with lockWrite := released pLoggerMutex } := by
  rw [writeMutexUnlock, h]
  cases pLoggerMutex <;> rfl

section Write

variable {t : FileThread} {base ext mF : Str} {pLoggerMutex : Bool} {archives : List Str} {live : Option Str}
  {s : System}

theorem find?_listing (h : Named base ext) (hentries : s.files.entries = listing base ext archives live) :
    s.files.find? (logName base ext) = live := by
  cases live with
  | some content => exact SortedMap.find?_of_entries hentries
  | none =>
      rw [SortedMap.find?_eq_none_iff]
      intro hmem
      obtain ⟨e, he, heq⟩ := List.mem_map.mp hmem
      rw [hentries, listing, Option.toList_none, List.map_nil, List.append_nil] at he
      obtain ⟨j, _, _, hj⟩ := mem_numbered he
      exact absurd (hj.symm.trans heq) (ne_of_lt (archiveName_lt_logName h j))

theorem entries_insert_listing (h : Named base ext) (hentries : s.files.entries = listing base ext archives live)
    (content : Str) : (s.files.insert (logName base ext) content).entries =
      listing base ext archives (some content) := by
  cases live with
  | some _ => exact SortedMap.entries_insert_of_mem hentries
  | none =>
      refine SortedMap.entries_insert_between hentries ?_ (by simp)
      intro e he
      obtain ⟨j, _, _, hj⟩ := mem_numbered he
      rw [hj]
      exact archiveName_lt_logName h j

theorem write_eq (maxArchiveCount : Nat) (text : Str) (h : Named base ext) (hname : basename (t.path ++ mF) = logName base ext)
    (hlock : s.lockWrite = released pLoggerMutex)
    (hentries : s.files.entries = listing base ext archives live) :
    ∃ files, files.entries = listing base ext archives (some (live.getD [] ++ text)) ∧
      write t maxArchiveCount mF s text =
        if t.categoryStore = .LOCAL_STORE ∧ t.maxFileSize < (live.getD [] ++ text).length then
          (recreateFileList maxArchiveCount (logName base ext) ⟨files, held pLoggerMutex⟩).map writeMutexUnlock
        else some ⟨files, released pLoggerMutex⟩ := by
  refine ⟨_, entries_insert_listing h hentries (live.getD [] ++ text), ?_⟩
  rw [write, writeMutexLock_released hlock]
  simp only [hname, Option.bind_some, find?_listing h hentries]
  rw [writeMutexUnlock_held rfl]

end Write


section Run

variable {t : FileThread} {maxArchiveCount : Nat} {base ext mF : Str} {pLoggerMutex : Bool}
  {texts archives : List Str} {text : Str} {live : Option Str} {s : System}

theorem newest_concat (full : List Str) (content : Str) (m : Nat) :
    (full.drop (full.length - m) ++ [content]).drop ((full.drop (full.length - m)).length + 1 - m) =
      (full ++ [content]).drop ((full ++ [content]).length - m) := by
  rw [← List.drop_append_of_le_length (by omega), List.drop_drop, List.length_drop]
  congr 1
  simp
  omega

theorem add_of_lt {maxFileSize : Nat} {g : Generations} (hfull : maxFileSize < (g.live ++ text).length) :
    g.add maxFileSize text = ⟨g.full ++ [g.live ++ text], []⟩ := if_pos hfull

theorem add_of_le {maxFileSize : Nat} {g : Generations} (hfull : ¬ maxFileSize < (g.live ++ text).length) :
    g.add maxFileSize text = ⟨g.full, g.live ++ text⟩ := if_neg hfull

/-- A call returns and keeps the newest generations, unless it has one to delete under the lock. -/
theorem write_kept (hstore : t.categoryStore = .LOCAL_STORE) (hM : 1 ≤ maxArchiveCount)
    (hM' : maxArchiveCount ≤ 100000) (h : Named base ext) (hname : basename (t.path ++ mF) = logName base ext)
    (hlock : s.lockWrite = released pLoggerMutex)
    (hk : Kept t.maxFileSize maxArchiveCount base ext texts s archives live)
    (hfew : pLoggerMutex = false ∨ rotations t.maxFileSize (texts ++ [text]) ≤ maxArchiveCount) :
    ∃ s' archives' live', write t maxArchiveCount mF s text = some s' ∧
      s'.lockWrite = released pLoggerMutex ∧
      Kept t.maxFileSize maxArchiveCount base ext (texts ++ [text]) s' archives' live' := by
  obtain ⟨files, hfiles, hwrite⟩ := write_eq maxArchiveCount text h hname hlock hk.entries
  have hadd := ofTexts_concat t.maxFileSize texts text
  have hnewest := hk.newest
  rw [rotations] at hnewest
  rw [hwrite, hk.writing]
  rw [hk.writing] at hfiles
  by_cases hfull : t.maxFileSize < ((ofTexts t.maxFileSize texts).live ++ text).length
  · rw [add_of_lt hfull] at hadd
    rw [if_pos ⟨hstore, hfull⟩]
    have hroom : archives.length < maxArchiveCount ∨ held pLoggerMutex = none := by
      rcases hfew with rfl | hfew
      · exact .inr rfl
      · refine .inl ?_
        rw [rotations, hadd, List.length_append, List.length_singleton] at hfew
        rw [hnewest, List.length_drop]
        omega
    obtain ⟨files', hrun, hfiles'⟩ := recreateFileList_listing (s := ⟨files, held pLoggerMutex⟩) h hM hM'
      hk.count hroom hfiles
    refine ⟨⟨files', released pLoggerMutex⟩, _, none, ?_, rfl, .of_newest hfiles' ?_ ?_⟩
    · rw [hrun, Option.map_some, writeMutexUnlock_held rfl]
    · rw [rotations, hadd, hnewest]
      exact newest_concat _ _ _
    · rw [hadd]
      rfl
  · rw [add_of_le hfull] at hadd
    rw [if_neg fun hboth => hfull hboth.2]
    refine ⟨_, archives, _, rfl, rfl, .of_newest hfiles ?_ ?_⟩
    · rw [rotations, hadd]
      exact hnewest
    · rw [hadd]
      rfl

/-- The call that has an archive to delete under the lock does not return. -/
theorem write_blocked (hstore : t.categoryStore = .LOCAL_STORE) (h : Named base ext)
    (hname : basename (t.path ++ mF) = logName base ext) (hlock : s.lockWrite = released true)
    (hk : Kept t.maxFileSize maxArchiveCount base ext texts s archives live)
    (hold : rotations t.maxFileSize texts ≤ maxArchiveCount)
    (hmany : maxArchiveCount < rotations t.maxFileSize (texts ++ [text])) :
    write t maxArchiveCount mF s text = none := by
  obtain ⟨files, hfiles, hwrite⟩ := write_eq maxArchiveCount text h hname hlock hk.entries
  have hadd := ofTexts_concat t.maxFileSize texts text
  have hnewest := hk.newest
  rw [Nat.sub_eq_zero_of_le hold, List.drop_zero] at hnewest
  rw [hwrite, hk.writing]
  rw [hk.writing] at hfiles
  by_cases hfull : t.maxFileSize < ((ofTexts t.maxFileSize texts).live ++ text).length
  · rw [rotations, hadd, add_of_lt hfull, List.length_append, List.length_singleton] at hmany
    rw [rotations] at hold
    rw [if_pos ⟨hstore, hfull⟩, recreateFileList_eq h hfiles]
    have hentries : listing base ext archives (some ((ofTexts t.maxFileSize texts).live ++ text)) ≠ [] := by
      simp [listing]
    obtain ⟨e, l, hel⟩ := List.exists_cons_of_ne_nil hentries
    rw [hel, List.map_cons, recreateEntries_blocked (by rw [hnewest]; omega) rfl]
    rfl
  · rw [rotations, hadd, add_of_le hfull] at hmany
    exact absurd hold (Nat.not_le_of_lt hmany)

theorem run_concat (s : System) (texts : List Str) (text : Str) :
    run t maxArchiveCount mF s (texts ++ [text]) =
      (run t maxArchiveCount mF s texts).bind fun s' => write t maxArchiveCount mF s' text := by
  rw [run, List.foldlM_append]
  congr 1
  funext s'
  simp

theorem rotations_le_concat (maxFileSize : Nat) (texts : List Str) (text : Str) :
    rotations maxFileSize texts ≤ rotations maxFileSize (texts ++ [text]) := by
  rw [rotations, rotations, ofTexts_concat]
  exact length_full_le maxFileSize _ text

theorem run_returns (pLoggerMutex : Bool) (hstore : t.categoryStore = .LOCAL_STORE) (hM : 1 ≤ maxArchiveCount)
    (hM' : maxArchiveCount ≤ 100000) (h : Named base ext) (hname : basename (t.path ++ mF) = logName base ext)
    (hfew : pLoggerMutex = false ∨ rotations t.maxFileSize texts ≤ maxArchiveCount) :
    ∃ s archives live, run t maxArchiveCount mF (.new pLoggerMutex) texts = some s ∧
      s.lockWrite = released pLoggerMutex ∧
      Kept t.maxFileSize maxArchiveCount base ext texts s archives live := by
  induction texts using List.reverseRecOn with
  | nil => exact ⟨_, [], none, rfl, rfl, .of_newest rfl List.drop_nil.symm rfl⟩
  | append_singleton texts text ih =>
      have hfew' := hfew.imp_right (le_trans (rotations_le_concat t.maxFileSize texts text))
      obtain ⟨s, archives, live, hrun, hlock, hk⟩ := ih hfew'
      rw [run_concat, hrun]
      exact write_kept hstore hM hM' h hname hlock hk hfew

theorem run_blocked (hstore : t.categoryStore = .LOCAL_STORE) (hM : 1 ≤ maxArchiveCount)
    (hM' : maxArchiveCount ≤ 100000) (h : Named base ext) (hname : basename (t.path ++ mF) = logName base ext)
    (hmany : maxArchiveCount < rotations t.maxFileSize texts) :
    run t maxArchiveCount mF (.new true) texts = none := by
  induction texts using List.reverseRecOn with
  | nil => exact absurd hmany (Nat.not_lt_zero maxArchiveCount)
  | append_singleton texts text ih =>
      rw [run_concat]
      rcases Nat.lt_or_ge maxArchiveCount (rotations t.maxFileSize texts) with hlt | hle
      · rw [ih hlt, Option.bind_none]
      · obtain ⟨s, archives, live, hrun, hlock, hk⟩ := run_returns true hstore hM hM' h hname (.inr hle)
        rw [hrun, Option.bind_some]
        exact write_blocked hstore h hname hlock hk hle hmany

end Run

/-- Every call returns with the newest generations kept in order exactly if no
archive has to be deleted yet, or there is no lock. -/
theorem run_kept_iff {t : FileThread} (hstore : t.categoryStore = .LOCAL_STORE) {maxArchiveCount : Nat}
    (hM : 1 ≤ maxArchiveCount) (hM' : maxArchiveCount ≤ 100000) {base ext mF : Str} (h : Named base ext)
    (hname : basename (t.path ++ mF) = logName base ext) (pLoggerMutex : Bool) (texts : List Str) :
    (∃ s archives live, run t maxArchiveCount mF (.new pLoggerMutex) texts = some s ∧
        Kept t.maxFileSize maxArchiveCount base ext texts s archives live) ↔
      pLoggerMutex = false ∨ rotations t.maxFileSize texts ≤ maxArchiveCount := by
  constructor
  · rintro ⟨s, archives, live, hrun, _⟩
    cases pLoggerMutex with
    | false => exact .inl rfl
    | true =>
        refine .inr (Nat.le_of_not_lt fun hmany => ?_)
        rw [run_blocked hstore hM hM' h hname hmany] at hrun
        cases hrun
  · intro hfew
    obtain ⟨s, archives, live, hrun, _, hk⟩ := run_returns pLoggerMutex hstore hM hM' h hname hfew
    exact ⟨s, archives, live, hrun, hk⟩

def rotatingThread : FileThread := ⟨"/logs/".toList, .LOCAL_STORE, 0, .empty⟩

/-- The first rotation keeps the text. -/
theorem run_kept_once : ∃ s archives live,
    run rotatingThread 1 "shop/a.log".toList (.new true) ["x".toList] = some s ∧
      Kept 0 1 "a".toList "log".toList ["x".toList] s archives live :=
  (run_kept_iff (t := rotatingThread) rfl (Nat.le_refl 1) (by decide)
    ⟨by decide, by decide, 'l', "og".toList, rfl, rfl⟩ (by decide +kernel) true ["x".toList]).mpr (.inr (by decide))

/-- The second rotation has an archive to delete, and does not return. -/
theorem second_rotation_blocked : ¬ ∀ (t : FileThread) (maxArchiveCount : Nat) (base ext mF : Str)
    (texts : List Str), t.categoryStore = .LOCAL_STORE → 1 ≤ maxArchiveCount → maxArchiveCount ≤ 100000 →
      Named base ext → basename (t.path ++ mF) = logName base ext →
        ∃ s archives live, run t maxArchiveCount mF (.new true) texts = some s ∧
          Kept t.maxFileSize maxArchiveCount base ext texts s archives live := by
  intro h
  obtain ⟨s, archives, live, hrun, _⟩ := h rotatingThread 1 "a".toList "log".toList "shop/a.log".toList
    ["x".toList, "y".toList] rfl (Nat.le_refl 1) (by decide) ⟨by decide, by decide, 'l', "og".toList, rfl, rfl⟩
    (by decide +kernel)
  have hnone : run rotatingThread 1 "shop/a.log".toList (.new true) ["x".toList, "y".toList] = none := by
    rfl
  rw [hnone] at hrun
  cases hrun

end Generations

end RadioServices.Logger

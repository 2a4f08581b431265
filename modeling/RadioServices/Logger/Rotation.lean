import RadioServices.Lib.Decimal
import RadioServices.Lib.Directory
import RadioServices.Logger.FileThread

namespace RadioServices.Logger.Rotation

open Lib Lib.C Lib.Decimal

/-- `find_last_of(c, pos)`, where `none` is `npos`. -/
def findLastOf (s : Str) (c : Char) (pos : Option Nat) : Option Nat :=
  let t := match pos with
    | none => s
    | some n => s.take (n + 1)
  if c ∈ t then some (t.length - 1 - t.reverse.idxOf c) else none

def getPos (s : Str) (c : Char) (n : Option Nat) : Option Nat :=
  let value := if n = some 0 then none else findLastOf s c n
  if value = none then findLastOf s c none else value

/-- `pos - 1`, which is `npos` at 0. -/
def before : Nat → Option Nat
  | 0 => none
  | pos + 1 => some pos

def substr (s : Str) : Option Nat → Str
  | none => s
  | some n => s.take n

def sel (fileName dName : Str) : Bool :=
  if dName = ['.'] ∨ dName = ['.', '.'] then false
  else match getPos fileName '.' (some 0), getPos dName '.' (some 0) with
  | some vFileName, some vDName =>
      if fileName.drop (vFileName + 1) ≠ dName.drop (vDName + 1) then false
      else substr fileName (getPos fileName '.' (before vFileName)) ==
        substr dName (getPos dName '.' (before vDName))
  | _, _ => false

/-- The directory of a log, and whether `lockWrite` is held, if there is a `pLoggerMutex`. -/
structure System where
  files : SortedMap Str Str
  lockWrite : Option Bool

/-- It does not return when the caller holds the lock already. -/
def writeMutexLock (s : System) : Option System :=
  match s.lockWrite with
  | none => some s
  | some false => some { s with lockWrite := some true }
  | some true => none

def writeMutexUnlock (s : System) : System := { s with lockWrite := s.lockWrite.map fun _ => false }

def fileDelete (f : Str) (s : System) : Option System :=
  (writeMutexLock s).map fun s => writeMutexUnlock { s with files := s.files.erase f }

def scandir (files : SortedMap Str Str) (fileName : Str) : List Str := files.keys.filter (sel fileName)

/-- `%s.%05lu.%s` -/
def archiveName (fileName fileExt : Str) (n : Nat) : Str := fileName ++ '.' :: (padded 5 n ++ '.' :: fileExt)

def recreateEntries (fileName fileExt : Str) (index : Nat) : Nat → List Str → System → Option System
  | _, [], s => some s
  | i, str :: entry, s =>
      if i < index then (fileDelete str s).bind (recreateEntries fileName fileExt index (i + 1) entry)
      else
        recreateEntries fileName fileExt index (i + 1) entry
          { s with files := s.files.rename str (archiveName fileName fileExt (i - index)) }

def recreateFileList (maxArchiveCount : Nat) (fileName : Str) (s : System) : Option System :=
  let entry := scandir s.files fileName
  let n := entry.length
  if n = 0 then some s
  else
    let pos := getPos fileName '.' (some 0)
    let fileExt := match pos with
      | none => fileName
      | some pos => fileName.drop (pos + 1)
    let index := if n < maxArchiveCount then 0 else n - maxArchiveCount
    recreateEntries (substr fileName (getPos fileName '.' (pos.bind before))) fileExt index 0 entry s

def basename (s : Str) : Str := (s.reverse.takeWhile (· ≠ DELIMITER)).reverse

/-- `filethread::Write`, when the file opens and takes the whole text. -/
def write (t : FileThread) (maxArchiveCount : Nat) (mF : Str) (s : System) (text : Str) : Option System :=
  let fileName := basename (t.path ++ mF)
  (writeMutexLock s).bind fun s =>
    let content := (s.files.find? fileName).getD [] ++ text
    let s := { s with files := s.files.insert fileName content }
    if t.categoryStore = .LOCAL_STORE ∧ t.maxFileSize < content.length then
      (recreateFileList maxArchiveCount fileName s).map writeMutexUnlock
    else some (writeMutexUnlock s)

def perform (maxArchiveCount : Nat) (s : System) : FileOp → Option System
  | .write path text =>
      some { s with files := s.files.insert (basename path) ((s.files.find? (basename path)).getD [] ++ text) }
  | .recreateFileList path => recreateFileList maxArchiveCount (basename path) s
  | _ => none

/-- The operations asked for under the lock, if the file takes the text, are the whole of `Write`. -/
theorem write_eq_perform (t : FileThread) (maxArchiveCount : Nat) (mF : Str) (s : System) (text : Str)
    (env : FileEnv) (hopened : (env.outcome (t.path ++ mF)).opened = true)
    (haccepted : text.length ≤ (env.outcome (t.path ++ mF)).accepted)
    (hsize : (env.outcome (t.path ++ mF)).size =
      ((s.files.find? (basename (t.path ++ mF))).getD [] ++ text).length) :
    write t maxArchiveCount mF s text = (writeMutexLock s).bind fun s =>
      ((t.write env mF text).foldlM (perform maxArchiveCount) s).map writeMutexUnlock := by
  have hfiles : ∀ s', writeMutexLock s = some s' → s'.files = s.files := by
    intro s' hs'
    rw [writeMutexLock] at hs'
    split at hs' <;> cases hs' <;> rfl
  rw [write]
  cases hlock : writeMutexLock s with
  | none => rfl
  | some s' =>
      have heq := hfiles s' hlock
      simp only [Option.bind_some, FileThread.write, hopened, if_true, List.take_of_length_le haccepted, hsize,
        heq]
      split
      · simp [perform, heq]
      · simp [perform, heq]

def System.new (pLoggerMutex : Bool) : System := ⟨.empty, if pLoggerMutex = true then some false else none⟩

def run (t : FileThread) (maxArchiveCount : Nat) (mF : Str) (s : System) (texts : List Str) : Option System :=
  texts.foldlM (write t maxArchiveCount mF) s

section Names

theorem findLastOf_append {c : Char} (s : Str) {t : Str} (h : c ∉ t) :
    findLastOf (s ++ c :: t) c none = some s.length := by
  have hidx : (s ++ c :: t).reverse.idxOf c = t.length := by
    rw [List.reverse_append, List.reverse_cons, List.append_assoc,
      List.idxOf_append_of_notMem (by simpa using h)]
    simp
  simp only [findLastOf, List.mem_append, List.mem_cons, true_or, or_true, if_true, hidx]
  congr 1
  simp

theorem getPos_of_not_mem {s : Str} {c : Char} {n : Option Nat}
    (h : ∀ m, n = some m → c ∉ s.take (m + 1)) : getPos s c n = findLastOf s c none := by
  cases n with
  | none => simp [getPos]
  | some m =>
      have hnone : findLastOf s c (some m) = none := by
        rw [findLastOf]
        exact if_neg (h m rfl)
      simp [getPos, hnone]

theorem getPos_zero {c : Char} (s : Str) {t : Str} (h : c ∉ t) :
    getPos (s ++ c :: t) c (some 0) = some s.length := by
  rw [getPos, if_pos rfl]
  exact findLastOf_append s h

variable {base ext : Str}

theorem getPos_before_live (hbase : '.' ∉ base) (hext : '.' ∉ ext) :
    getPos (base ++ '.' :: ext) '.' (before base.length) = some base.length := by
  rw [getPos_of_not_mem, findLastOf_append base hext]
  intro m hm
  cases base with
  | nil => cases hm
  | cons c base =>
      obtain rfl : base.length = m := by simpa [before] using hm
      rw [show base.length + 1 = (c :: base).length from rfl, List.take_left']
      · exact hbase
      · rfl

theorem getPos_before_archive {number : Str} (hnumber : '.' ∉ number) (hne : number ≠ []) :
    getPos ((base ++ '.' :: number) ++ '.' :: ext) '.' (before (base ++ '.' :: number).length) =
      some base.length := by
  have hlen : (base ++ '.' :: number).length = base.length + number.length + 1 := by simp; omega
  have hpos := List.length_pos_iff.mpr hne
  have hlast : findLastOf ((base ++ '.' :: number) ++ '.' :: ext) '.' (some (base.length + number.length)) =
      findLastOf (base ++ '.' :: number) '.' none := by
    rw [findLastOf, findLastOf, List.take_left' hlen]
  have hzero : some (base.length + number.length) ≠ some 0 := by
    intro heq
    have hsum := Option.some.inj heq
    omega
  rw [hlen, before, getPos, if_neg hzero, hlast, findLastOf_append base hnumber]
  rfl

/-- A base and an extension without dots. The extension starts with a letter. -/
structure Named (base ext : Str) : Prop where
  base_dot : '.' ∉ base
  ext_dot : '.' ∉ ext
  letter : ∃ c t, ext = c :: t ∧ c.isAlpha = true

def logName (base ext : Str) : Str := base ++ '.' :: ext

theorem archiveName_eq (base ext : Str) (n : Nat) :
    archiveName base ext n = (base ++ '.' :: padded 5 n) ++ '.' :: ext := by
  simp [archiveName]

theorem dot_not_mem_padded (n : Nat) : '.' ∉ padded 5 n := by
  intro h
  have hdigit := isDigit_of_mem_padded h
  simp at hdigit

theorem drop_append_cons (s t : Str) (c : Char) : (s ++ c :: t).drop (s.length + 1) = t := by
  rw [List.append_cons, List.drop_left' (by simp)]

variable (h : Named base ext)
include h

theorem sel_of_append {s : Str} (hmask : substr (s ++ '.' :: ext)
    (getPos (s ++ '.' :: ext) '.' (before s.length)) = base) : sel (logName base ext) (s ++ '.' :: ext) = true := by
  have hdots : ¬ (s ++ '.' :: ext = ['.'] ∨ s ++ '.' :: ext = ['.', '.']) := by
    obtain ⟨c, t, rfl, _⟩ := h.letter
    have hc : c ≠ '.' := fun hc => h.ext_dot (hc ▸ List.mem_cons_self)
    have hmem : c ∈ s ++ '.' :: c :: t := by simp
    rintro (heq | heq) <;> simp [heq, hc] at hmem
  rw [sel, if_neg hdots, logName, getPos_zero base h.ext_dot, getPos_zero s h.ext_dot]
  simp only [drop_append_cons, getPos_before_live h.base_dot h.ext_dot, hmask]
  simp [substr]

theorem sel_logName : sel (logName base ext) (logName base ext) = true := by
  apply sel_of_append h
  rw [getPos_before_live h.base_dot h.ext_dot]
  exact List.take_left

theorem sel_archiveName (n : Nat) : sel (logName base ext) (archiveName base ext n) = true := by
  rw [archiveName_eq]
  apply sel_of_append h
  rw [getPos_before_archive (dot_not_mem_padded n) (padded_ne_nil 5 n), substr, List.append_assoc]
  exact List.take_left

omit h in
theorem archiveName_lt {i j : Nat} (hij : i < j) (hj : j < 100000) :
    archiveName base ext i < archiveName base ext j := by
  apply List.append_left_lt
  exact List.cons_lt_cons_iff.mpr (.inr ⟨rfl, padded_append_lt (by omega) hij hj _ _⟩)

theorem archiveName_lt_logName (i : Nat) : archiveName base ext i < logName base ext := by
  apply List.append_left_lt
  apply List.cons_lt_cons_iff.mpr (.inr ⟨rfl, ?_⟩)
  obtain ⟨c, t, rfl, hc⟩ := h.letter
  obtain ⟨d, ds, hd⟩ := List.exists_cons_of_ne_nil (padded_ne_nil 5 i)
  have hdigit := digit_bounds (isDigit_of_mem_padded (hd ▸ List.mem_cons_self : d ∈ padded 5 i))
  have hletter : 65 ≤ c.toNat := by
    rcases Bool.or_eq_true_iff.mp (show (c.isUpper || c.isLower) = true from hc) with hc | hc
    · exact (of_decide_eq_true (show decide (c.val ≥ 'A'.val ∧ c.val ≤ 'Z'.val) = true from hc)).1
    · have hlower : c.val ≥ 'a'.val := of_decide_eq_true (Bool.and_eq_true_iff.mp hc).1
      have hnat : 97 ≤ c.toNat := hlower
      omega
  have hlt : d < c := by
    change d.toNat < c.toNat
    omega
  rw [hd]
  exact List.cons_lt_cons_iff.mpr (.inl hlt)

end Names

def numbered (base ext : Str) : Nat → List Str → List (Str × Str)
  | _, [] => []
  | i, content :: archives => (archiveName base ext i, content) :: numbered base ext (i + 1) archives

/-- The archives, numbered without gaps, and the live file if there is one. -/
def listing (base ext : Str) (archives : List Str) (live : Option Str) : List (Str × Str) :=
  numbered base ext 0 archives ++ live.toList.map fun content => (logName base ext, content)

section Entries

variable {base ext : Str}

theorem mem_numbered {archives : List Str} {i : Nat} {e : Str × Str} (he : e ∈ numbered base ext i archives) :
    ∃ j, i ≤ j ∧ j < i + archives.length ∧ e.1 = archiveName base ext j := by
  induction archives generalizing i with
  | nil => cases he
  | cons content archives ih =>
      rcases List.mem_cons.mp he with rfl | he
      · exact ⟨i, Nat.le_refl i, by simp, rfl⟩
      · obtain ⟨j, hi, hj, heq⟩ := ih he
        exact ⟨j, by omega, by simp; omega, heq⟩

theorem numbered_append (base ext : Str) (archives archives' : List Str) (i : Nat) :
    numbered base ext i (archives ++ archives') =
      numbered base ext i archives ++ numbered base ext (i + archives.length) archives' := by
  induction archives generalizing i with
  | nil => rfl
  | cons content archives ih =>
      rw [List.cons_append, numbered, ih, numbered, List.cons_append, List.length_cons,
        Nat.add_right_comm, Nat.add_assoc]

theorem length_numbered (archives : List Str) (i : Nat) : (numbered base ext i archives).length = archives.length := by
  induction archives generalizing i with
  | nil => rfl
  | cons content archives ih => rw [numbered, List.length_cons, List.length_cons, ih]

variable (h : Named base ext)
include h

theorem scandir_listing {files : SortedMap Str Str} {archives : List Str} {live : Option Str}
    (hfiles : files.entries = listing base ext archives live) :
    scandir files (logName base ext) = (listing base ext archives live).map Prod.fst := by
  rw [scandir, SortedMap.keys, hfiles, List.filter_eq_self]
  intro name hname
  obtain ⟨e, he, rfl⟩ := List.mem_map.mp hname
  rcases List.mem_append.mp he with he | he
  · obtain ⟨j, _, _, heq⟩ := mem_numbered he
    rw [heq]
    exact sel_archiveName h j
  · obtain ⟨content, _, rfl⟩ := List.mem_map.mp he
    exact sel_logName h

omit h in
theorem lt_archiveName {moved : List Str} (hlen : moved.length < 100000) :
    ∀ e ∈ numbered base ext 0 moved, e.1 < archiveName base ext moved.length := by
  intro e he
  obtain ⟨j, _, hj, heq⟩ := mem_numbered he
  rw [heq]
  exact archiveName_lt (by omega) hlen

omit h in
theorem entries_rename_archive {files : SortedMap Str Str} {moved : List Str} {str content : Str}
    {rest : List (Str × Str)} (hlen : moved.length < 100000)
    (hfiles : files.entries = numbered base ext 0 moved ++ (str, content) :: rest)
    (hrest : ∀ e ∈ rest, archiveName base ext moved.length < e.1) :
    (files.rename str (archiveName base ext moved.length)).entries =
      numbered base ext 0 (moved ++ [content]) ++ rest := by
  rw [SortedMap.entries_rename hfiles (lt_archiveName hlen) hrest, numbered_append, List.append_assoc]
  simp [numbered]

theorem recreateEntries_rename (index i : Nat) (moved : List Str) {archives : List Str} {content : Str}
    (s : System) (hi : i = index + moved.length) (hbound : i + archives.length ≤ 100000)
    (hlast : moved.length + archives.length < 100000)
    (hfiles : s.files.entries =
      numbered base ext 0 moved ++ (numbered base ext i archives ++ [(logName base ext, content)])) :
    ∃ files, recreateEntries base ext index i
        ((numbered base ext i archives ++ [(logName base ext, content)]).map Prod.fst) s =
          some { s with files := files } ∧
      files.entries = numbered base ext 0 (moved ++ (archives ++ [content])) := by
  induction archives generalizing i moved s with
  | nil =>
      have hnumber : i - index = moved.length := by omega
      have hentries := entries_rename_archive (by simpa using hlast) hfiles (by simp)
      refine ⟨_, ?_, by simpa using hentries⟩
      simp only [numbered, List.nil_append, List.map_cons, List.map_nil, recreateEntries]
      rw [if_neg (by omega), hnumber]
  | cons a archives ih =>
      rw [List.length_cons] at hbound hlast
      have hnumber : i - index = moved.length := by omega
      have hrest : ∀ e ∈ numbered base ext (i + 1) archives ++ [(logName base ext, content)],
          archiveName base ext moved.length < e.1 := by
        intro e he
        rcases List.mem_append.mp he with he | he
        · obtain ⟨j, hj, hlt, heq⟩ := mem_numbered he
          rw [heq]
          exact archiveName_lt (by omega) (by omega)
        · rw [List.mem_singleton.mp he]
          exact archiveName_lt_logName h moved.length
      have hentries := entries_rename_archive (by omega) hfiles hrest
      obtain ⟨files, hrun, hfiles'⟩ := ih (i + 1) (moved ++ [a])
        { s with files := s.files.rename (archiveName base ext i) (archiveName base ext moved.length) }
        (by simp; omega) (by omega) (by simp; omega) hentries
      refine ⟨files, ?_, by simpa using hfiles'⟩
      simp only [numbered, List.cons_append, List.map_cons, recreateEntries]
      rw [if_neg (by omega), hnumber, hrun]

omit h in
theorem recreateEntries_delete (base ext : Str) {index i : Nat} {deleted rest : List (Str × Str)} {s : System}
    (hi : i + deleted.length = index) (hlock : deleted = [] ∨ s.lockWrite = none)
    (hfiles : s.files.entries = deleted ++ rest) :
    ∃ files, recreateEntries base ext index i ((deleted ++ rest).map Prod.fst) s =
        recreateEntries base ext index index (rest.map Prod.fst) { s with files := files } ∧
      files.entries = rest := by
  induction deleted generalizing i s with
  | nil =>
      obtain rfl : i = index := hi
      exact ⟨s.files, rfl, hfiles⟩
  | cons e deleted ih =>
      have hnone : s.lockWrite = none := hlock.resolve_left (List.cons_ne_nil e deleted)
      rw [List.length_cons] at hi
      have hdelete : fileDelete e.1 s = some { s with files := s.files.erase e.1 } := by
        simp [fileDelete, writeMutexLock, writeMutexUnlock, hnone]
      obtain ⟨files, hrun, hfiles'⟩ := ih (i := i + 1) (s := { s with files := s.files.erase e.1 })
        (by omega) (.inr hnone) (SortedMap.entries_erase (p := []) hfiles)
      refine ⟨files, ?_, hfiles'⟩
      simp only [List.cons_append, List.map_cons, recreateEntries]
      rw [if_pos (by omega), hdelete, Option.bind_some, hrun]

omit h in
theorem recreateEntries_blocked {index : Nat} {name : Str} {entry : List Str} {s : System}
    (hindex : 0 < index) (hheld : s.lockWrite = some true) :
    recreateEntries base ext index 0 (name :: entry) s = none := by
  simp only [recreateEntries]
  rw [if_pos hindex, fileDelete, writeMutexLock, hheld]
  rfl

theorem recreateFileList_eq {maxArchiveCount : Nat} {archives : List Str} {content : Str} {s : System}
    (hfiles : s.files.entries = listing base ext archives (some content)) :
    recreateFileList maxArchiveCount (logName base ext) s =
      recreateEntries base ext (archives.length + 1 - maxArchiveCount) 0
        ((listing base ext archives (some content)).map Prod.fst) s := by
  have hlen : ((listing base ext archives (some content)).map Prod.fst).length = archives.length + 1 := by
    simp [listing, length_numbered]
  have hindex : (if archives.length + 1 < maxArchiveCount then 0 else archives.length + 1 - maxArchiveCount) =
      archives.length + 1 - maxArchiveCount := by
    split <;> omega
  rw [recreateFileList, scandir_listing h hfiles]
  simp only [hlen, hindex]
  rw [if_neg (by omega)]
  have hpos : getPos (logName base ext) '.' (some 0) = some base.length := getPos_zero base h.ext_dot
  have hbase : substr (logName base ext) (getPos (logName base ext) '.' (before base.length)) = base := by
    rw [logName, getPos_before_live h.base_dot h.ext_dot]
    exact List.take_left
  have hext : (logName base ext).drop (base.length + 1) = ext := drop_append_cons base ext '.'
  simp only [hpos, Option.bind_some, hbase, hext]

/-- The oldest archive goes when there is one too many, unless it has to be deleted under the lock. -/
theorem recreateFileList_listing {maxArchiveCount : Nat} {archives : List Str} {content : Str} {s : System}
    (hM : 1 ≤ maxArchiveCount) (hM' : maxArchiveCount ≤ 100000) (hle : archives.length ≤ maxArchiveCount)
    (hlock : archives.length < maxArchiveCount ∨ s.lockWrite = none)
    (hfiles : s.files.entries = listing base ext archives (some content)) :
    ∃ files, recreateFileList maxArchiveCount (logName base ext) s = some { s with files := files } ∧
      files.entries =
        listing base ext ((archives ++ [content]).drop (archives.length + 1 - maxArchiveCount)) none := by
  rw [recreateFileList_eq h hfiles]
  generalize hindex : archives.length + 1 - maxArchiveCount = index
  have hsplit : listing base ext archives (some content) = numbered base ext 0 (archives.take index) ++
      (numbered base ext index (archives.drop index) ++ [(logName base ext, content)]) := by
    have hnum := numbered_append base ext (archives.take index) (archives.drop index) 0
    rw [List.take_append_drop, List.length_take_of_le (by omega), Nat.zero_add] at hnum
    rw [listing, hnum, List.append_assoc]
    rfl
  have hdeleted : numbered base ext 0 (archives.take index) = [] ∨ s.lockWrite = none := by
    apply hlock.imp_left
    intro hlt
    rw [show index = 0 by omega]
    rfl
  rw [hsplit] at hfiles ⊢
  obtain ⟨files, hrun, hrest⟩ := recreateEntries_delete base ext (i := 0)
    (by rw [length_numbered, List.length_take_of_le (by omega), Nat.zero_add]) hdeleted hfiles
  obtain ⟨files', hrun', hfiles'⟩ := recreateEntries_rename h index index []
    { s with files := files } rfl (by rw [List.length_drop]; omega)
    (by rw [List.length_drop, List.length_nil]; omega) hrest
  refine ⟨files', by rw [hrun, hrun'], ?_⟩
  rw [hfiles', listing, List.drop_append_of_le_length (by omega)]
  simp

end Entries

end RadioServices.Logger.Rotation

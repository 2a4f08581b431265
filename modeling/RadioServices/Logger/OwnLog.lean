import RadioServices.Logger.Rotation

namespace RadioServices.Logger.OwnLog

open Lib Lib.C Lib.Decimal Rotation

section Names

variable {base ext name : Str}

def extension (name : Str) : Str := (name.reverse.takeWhile (· ≠ '.')).reverse

def stem (name : Str) : Str := (name.reverse.dropWhile (· ≠ '.')).tail.reverse

/-- What is compared of two names: the stem up to a last dot of its own, unless the stem is a single character. -/
def mask (stem' : Str) : Str := if 2 ≤ stem'.length ∧ '.' ∈ stem' then stem stem' else stem'

theorem reverse_logName (base ext : Str) : (base ++ '.' :: ext).reverse = ext.reverse ++ '.' :: base.reverse := by
  rw [List.reverse_append, List.reverse_cons, List.append_assoc, List.singleton_append]

theorem extension_append (base : Str) (hext : '.' ∉ ext) : extension (base ++ '.' :: ext) = ext := by
  rw [extension, reverse_logName, Cut.takeWhile_ne_append (by rwa [List.mem_reverse]), List.reverse_reverse]

theorem stem_append (base : Str) (hext : '.' ∉ ext) : stem (base ++ '.' :: ext) = base := by
  rw [stem, reverse_logName, Cut.dropWhile_ne_append (by rwa [List.mem_reverse]), List.tail_cons,
    List.reverse_reverse]

theorem exists_last_dot (h : '.' ∈ name) : ∃ base ext, name = base ++ '.' :: ext ∧ '.' ∉ ext := by
  obtain ⟨ext, base, hrev, hext⟩ := List.eq_append_cons_of_mem (List.mem_reverse.mpr h)
  refine ⟨base.reverse, ext.reverse, ?_, by rwa [List.mem_reverse]⟩
  rw [← List.reverse_reverse name, hrev, List.reverse_append, List.reverse_cons, List.append_assoc,
    List.singleton_append]

theorem getPos_eq_some (base : Str) (hext : '.' ∉ ext) (n : Nat) (hn : n + 2 = base.length) :
    getPos (base ++ '.' :: ext) '.' (some (n + 1)) = some (mask base).length := by
  have hne : some (n + 1) ≠ some 0 := fun h => Nat.succ_ne_zero n (Option.some.inj h)
  have htake : (base ++ '.' :: ext).take (n + 1 + 1) = base := List.take_left' hn.symm
  have hfind : findLastOf (base ++ '.' :: ext) '.' (some (n + 1)) = findLastOf base '.' none := by
    rw [findLastOf, findLastOf, htake]
  rw [getPos, if_neg hne, hfind, mask]
  by_cases hdot : '.' ∈ base
  · obtain ⟨front, number, rfl, hnumber⟩ := exists_last_dot hdot
    rw [findLastOf_append front hnumber, if_neg (Option.some_ne_none _), if_pos ⟨by omega, hdot⟩,
      stem_append front hnumber]
  · have hnone : findLastOf base '.' none = none := if_neg hdot
    rw [hnone, if_pos rfl, if_neg fun h => hdot h.2, findLastOf_append base hext]

theorem substr_getPos (base : Str) (hext : '.' ∉ ext) :
    substr (base ++ '.' :: ext) (getPos (base ++ '.' :: ext) '.' (before base.length)) = mask base := by
  match base with
  | [] =>
      have hpos : getPos ('.' :: ext) '.' none = some 0 := by
        rw [getPos_of_not_mem (by intro m h; cases h)]
        exact findLastOf_append [] hext
      rw [List.length_nil, before, List.nil_append, hpos]
      rfl
  | [c] =>
      rw [List.length_singleton, before, getPos_zero [c] hext]
      rfl
  | c :: d :: base =>
      have hprefix : mask (c :: d :: base) <+: c :: d :: base := by
        rw [mask]
        split
        · rename_i hdot
          obtain ⟨front, number, hsplit, hnumber⟩ := exists_last_dot hdot.2
          rw [hsplit, stem_append front hnumber]
          exact List.prefix_append _ _
        · exact List.prefix_rfl
      obtain ⟨rest, hrest⟩ := hprefix
      rw [List.length_cons, List.length_cons, before, getPos_eq_some _ hext base.length rfl, substr]
      generalize mask (c :: d :: base) = front at hrest
      rw [← hrest, List.append_assoc, List.take_left]

/-- The names that are taken for the log or one of its archives. -/
def LookAlike (base ext name : Str) : Prop :=
  name ≠ ['.'] ∧ name ≠ ['.', '.'] ∧ '.' ∈ name ∧ extension name = ext ∧ mask (stem name) = mask base

instance (base ext name : Str) : Decidable (LookAlike base ext name) := inferInstanceAs (Decidable (_ ∧ _))

theorem sel_iff (base : Str) (hext : '.' ∉ ext) (name : Str) :
    sel (logName base ext) name = true ↔ LookAlike base ext name := by
  rw [sel, LookAlike, logName]
  by_cases hdots : name = ['.'] ∨ name = ['.', '.']
  · rw [if_pos hdots]
    apply iff_of_false Bool.false_ne_true
    intro h
    exact hdots.elim h.1 h.2.1
  rw [if_neg hdots, getPos_zero base hext]
  rw [not_or] at hdots
  by_cases hdot : '.' ∈ name
  · obtain ⟨base', ext', rfl, hext'⟩ := exists_last_dot hdot
    rw [getPos_zero base' hext', extension_append base' hext', stem_append base' hext']
    dsimp only
    rw [drop_append_cons, drop_append_cons, substr_getPos base hext, substr_getPos base' hext']
    by_cases hsame : ext = ext'
    · rw [if_neg (not_not_intro hsame), beq_iff_eq]
      exact ⟨fun h => ⟨hdots.1, hdots.2, hdot, hsame.symm, h.symm⟩, fun h => h.2.2.2.2.symm⟩
    · rw [if_pos hsame]
      exact iff_of_false Bool.false_ne_true fun h => hsame h.2.2.2.1.symm
  · have hnone : getPos name '.' (some 0) = none := by
      rw [getPos, if_pos rfl, if_pos rfl, findLastOf]
      exact if_neg hdot
    rw [hnone]
    exact iff_of_false Bool.false_ne_true fun h => hdot h.2.2.1

end Names

section Operations

/-- The log itself and the files that only a number tells apart from it. -/
def Own (base ext name : Str) : Prop :=
  name = logName base ext ∨ ∃ digits, digits ≠ [] ∧ (∀ c ∈ digits, c.isDigit = true) ∧
    name = base ++ '.' :: (digits ++ '.' :: ext)

inductive Operation
  | delete (f : Str)
  | rename (f f' : Str)

def Operation.perform (s : System) : Operation → Option System
  | .delete f => fileDelete f s
  | .rename f f' => some { s with files := s.files.rename f f' }

def Operation.Moves (f : Str) : Operation → Prop
  | .delete g => g = f
  | .rename g g' => g = f ∧ g ≠ g'

def Operation.Spares (f : Str) : Operation → Prop
  | .delete g => f ≠ g
  | .rename g g' => g = g' ∨ f ≠ g ∧ f ≠ g'

def operation (fileName fileExt : Str) (index i : Nat) (str : Str) : Operation :=
  if i < index then .delete str else .rename str (archiveName fileName fileExt (i - index))

theorem recreateEntries_eq_foldlM (fileName fileExt : Str) (index i : Nat) (entry : List Str) (s : System) :
    recreateEntries fileName fileExt index i entry s =
      (entry.mapIdx fun k => operation fileName fileExt index (i + k)).foldlM Operation.perform s := by
  induction entry generalizing i s with
  | nil => rfl
  | cons str entry ih =>
      have hshift : (fun k => operation fileName fileExt index (i + (k + 1))) =
          fun k => operation fileName fileExt index (i + 1 + k) := by
        funext k
        rw [Nat.add_right_comm, Nat.add_assoc]
      rw [List.mapIdx_cons, List.foldlM_cons, recreateEntries, hshift]
      by_cases hi : i < index
      · have hop : operation fileName fileExt index (i + 0) str = .delete str := if_pos hi
        rw [if_pos hi, hop]
        exact congrArg (fileDelete str s).bind (funext fun t => ih (i + 1) t)
      · have hop : operation fileName fileExt index (i + 0) str =
            .rename str (archiveName fileName fileExt (i - index)) := if_neg hi
        rw [if_neg hi, hop]
        exact ih (i + 1) _

variable {ops : List Operation} {s s' : System}

theorem find?_perform {op : Operation} {name : Str} (h : op.Spares name) (hs : op.perform s = some s') :
    s'.files.find? name = s.files.find? name := by
  cases op with
  | delete f =>
      have hlock : ∀ t, writeMutexLock s = some t → t.files = s.files := by
        intro t ht
        rw [writeMutexLock] at ht
        split at ht <;> cases ht <;> rfl
      obtain ⟨t, ht, rfl⟩ := Option.map_eq_some_iff.mp hs
      rw [writeMutexUnlock, hlock t ht]
      exact SortedMap.find?_erase_of_ne h
  | rename f f' =>
      obtain rfl := Option.some.inj hs
      rcases h with rfl | ⟨hf, hf'⟩
      · exact SortedMap.find?_rename_self s.files f name
      · exact SortedMap.find?_rename_of_ne hf hf'

theorem find?_foldlM {name : Str} (h : ∀ op ∈ ops, op.Spares name) (hs : ops.foldlM Operation.perform s = some s') :
    s'.files.find? name = s.files.find? name := by
  induction ops generalizing s with
  | nil =>
      obtain rfl := Option.some.inj hs
      rfl
  | cons op ops ih =>
      rw [List.foldlM_cons, Option.bind_eq_bind, Option.bind_eq_some_iff] at hs
      obtain ⟨t, ht, hrest⟩ := hs
      rw [ih (fun o ho => h o (List.mem_cons_of_mem op ho)) hrest, find?_perform (h op List.mem_cons_self) ht]

theorem perform_of_free (op : Operation) (h : s.lockWrite ≠ some true) :
    ∃ t, op.perform s = some t ∧ t.lockWrite ≠ some true := by
  cases op with
  | delete f =>
      rw [Operation.perform, fileDelete, writeMutexLock]
      cases hlock : s.lockWrite with
      | none => exact ⟨_, rfl, by simp [writeMutexUnlock, hlock]⟩
      | some held =>
          cases held with
          | false => exact ⟨_, rfl, by simp [writeMutexUnlock]⟩
          | true => exact absurd hlock h
  | rename f f' => exact ⟨_, rfl, h⟩

theorem foldlM_of_free (ops : List Operation) (h : s.lockWrite ≠ some true) :
    ∃ t, ops.foldlM Operation.perform s = some t := by
  induction ops generalizing s with
  | nil => exact ⟨s, rfl⟩
  | cons op ops ih =>
      obtain ⟨t, ht, hfree⟩ := perform_of_free op h
      obtain ⟨u, hu⟩ := ih hfree
      refine ⟨u, ?_⟩
      rw [List.foldlM_cons, ht]
      exact hu

theorem foldlM_of_rename (h : ∀ op ∈ ops, ∃ f f', op = .rename f f') :
    ∃ t, ops.foldlM Operation.perform s = some t := by
  induction ops generalizing s with
  | nil => exact ⟨s, rfl⟩
  | cons op ops ih =>
      obtain ⟨f, f', rfl⟩ := h op List.mem_cons_self
      exact ih fun o ho => h o (List.mem_cons_of_mem _ ho)

end Operations

section Rotation

def operations (maxArchiveCount : Nat) (fileName : Str) (s : System) : List Operation :=
  let entry := scandir s.files fileName
  let pos := getPos fileName '.' (some 0)
  let fileExt := match pos with
    | none => fileName
    | some pos => fileName.drop (pos + 1)
  entry.mapIdx (operation (substr fileName (getPos fileName '.' (pos.bind before))) fileExt
    (entry.length - maxArchiveCount))

theorem recreateFileList_eq_foldlM (maxArchiveCount : Nat) (fileName : Str) (s : System) :
    recreateFileList maxArchiveCount fileName s = (operations maxArchiveCount fileName s).foldlM Operation.perform s := by
  have hindex (n : Nat) : (if n < maxArchiveCount then 0 else n - maxArchiveCount) = n - maxArchiveCount := by
    split <;> omega
  rw [recreateFileList, operations]
  dsimp only
  rw [hindex]
  by_cases hnone : (scandir s.files fileName).length = 0
  · rw [if_pos hnone, List.length_eq_zero_iff.mp hnone]
    rfl
  · have hzero (fileName fileExt : Str) (index : Nat) :
        (fun k => operation fileName fileExt index (0 + k)) = operation fileName fileExt index := by
      funext k
      rw [Nat.zero_add]
    rw [if_neg hnone, recreateEntries_eq_foldlM]
    exact congrArg (fun f => (List.mapIdx f (scandir s.files fileName)).foldlM Operation.perform s) (hzero _ _ _)

variable {maxArchiveCount : Nat} {base ext : Str} {s : System}

def lookAlikes (base ext : Str) (s : System) : List Str := s.files.keys.filter fun name => LookAlike base ext name

def surplus (maxArchiveCount : Nat) (base ext : Str) (s : System) : Nat :=
  (lookAlikes base ext s).length - maxArchiveCount

theorem operations_eq (hext : '.' ∉ ext) : operations maxArchiveCount (logName base ext) s =
    (lookAlikes base ext s).mapIdx (operation (mask base) ext (surplus maxArchiveCount base ext s)) := by
  have hentry : scandir s.files (logName base ext) = lookAlikes base ext s := by
    rw [scandir, lookAlikes]
    apply List.filter_congr
    intro name _
    rw [Bool.eq_iff_iff, decide_eq_true_iff]
    exact sel_iff base hext name
  rw [operations, hentry, logName, getPos_zero base hext]
  dsimp only [Option.bind_some]
  rw [substr_getPos base hext, drop_append_cons, surplus]

theorem mem_operations (hext : '.' ∉ ext) {op : Operation} : op ∈ operations maxArchiveCount (logName base ext) s ↔
    ∃ k f, (lookAlikes base ext s)[k]? = some f ∧
      op = operation (mask base) ext (surplus maxArchiveCount base ext s) k f := by
  rw [operations_eq hext, List.mem_mapIdx]
  constructor
  · rintro ⟨k, hk, rfl⟩
    exact ⟨k, (lookAlikes base ext s)[k], List.getElem?_eq_getElem hk, rfl⟩
  · rintro ⟨k, f, hf, rfl⟩
    obtain ⟨hk, rfl⟩ := List.getElem?_eq_some_iff.mp hf
    exact ⟨k, hk, rfl⟩

/-- Only the log and its archives are deleted or given another name, and every other file keeps its name and what is
in it. -/
structure OnlyOwn (maxArchiveCount : Nat) (base ext : Str) (s s' : System) : Prop where
  moved : ∀ f, (∃ op ∈ operations maxArchiveCount (logName base ext) s, op.Moves f) → Own base ext f
  kept : ∀ name content, ¬ Own base ext name → s.files.find? name = some content → s'.files.find? name = some content

/-- An archive has to go, but the lock is held already. -/
def Blocked (maxArchiveCount : Nat) (base ext : Str) (s : System) : Prop :=
  s.lockWrite = some true ∧ 0 < surplus maxArchiveCount base ext s

/-- A file that looks like the log or an archive is one, or has the name it would get. -/
def InPlace (maxArchiveCount : Nat) (base ext : Str) (s : System) : Prop :=
  ∀ k f, (lookAlikes base ext s)[k]? = some f → Own base ext f ∨
    surplus maxArchiveCount base ext s ≤ k ∧
      f = archiveName (mask base) ext (k - surplus maxArchiveCount base ext s)

theorem recreateFileList_of_blocked (hext : '.' ∉ ext) (h : Blocked maxArchiveCount base ext s) :
    recreateFileList maxArchiveCount (logName base ext) s = none := by
  obtain ⟨hheld, hpos⟩ := h
  rw [recreateFileList_eq_foldlM, operations_eq hext]
  cases hentry : lookAlikes base ext s with
  | nil =>
      rw [surplus, hentry, List.length_nil, Nat.zero_sub] at hpos
      exact absurd hpos (Nat.lt_irrefl 0)
  | cons f entry =>
      have hop : operation (mask base) ext (surplus maxArchiveCount base ext s) 0 f = .delete f := if_pos hpos
      have hlock : fileDelete f s = none := by
        rw [fileDelete, writeMutexLock, hheld]
        rfl
      rw [List.mapIdx_cons, List.foldlM_cons, hop, Operation.perform, hlock]
      rfl

theorem recreateFileList_returns (hext : '.' ∉ ext) (h : ¬ Blocked maxArchiveCount base ext s) :
    ∃ s', recreateFileList maxArchiveCount (logName base ext) s = some s' := by
  rw [recreateFileList_eq_foldlM]
  by_cases hheld : s.lockWrite = some true
  · apply foldlM_of_rename
    intro op hop
    obtain ⟨k, f, -, rfl⟩ := (mem_operations hext).mp hop
    have hnot : ¬ k < surplus maxArchiveCount base ext s := fun hk => h ⟨hheld, Nat.zero_lt_of_lt hk⟩
    exact ⟨_, _, if_neg hnot⟩
  · exact foldlM_of_free _ hheld

theorem archiveName_injective {fileName : Str} {i j : Nat} (h : archiveName fileName ext i = archiveName fileName ext j) :
    i = j := by
  have htail := (List.cons.inj (List.append_cancel_left h)).2
  exact padded_injective (List.append_cancel_right htail)

theorem lookAlike_archiveName (hext : '.' ∉ ext) (i : Nat) : LookAlike base ext (archiveName (mask base) ext i) := by
  have hpos := List.length_pos_iff.mpr (padded_ne_nil 5 i)
  have hlength : 3 ≤ (archiveName (mask base) ext i).length := by
    rw [archiveName, List.length_append, List.length_cons, List.length_append, List.length_cons]
    omega
  have hstem : 2 ≤ (mask base ++ '.' :: padded 5 i).length ∧ '.' ∈ mask base ++ '.' :: padded 5 i := by
    refine ⟨?_, List.mem_append_right _ List.mem_cons_self⟩
    rw [List.length_append, List.length_cons]
    omega
  have hne {name : Str} (hname : name.length < 3) : archiveName (mask base) ext i ≠ name := by
    intro heq
    rw [heq] at hlength
    omega
  refine ⟨hne (by decide), hne (by decide), List.mem_append_right _ List.mem_cons_self, ?_, ?_⟩
  · rw [archiveName_eq, extension_append _ hext]
  · rw [archiveName_eq, stem_append _ hext]
    exact (if_pos hstem).trans (stem_append _ (dot_not_mem_padded i))

theorem mem_lookAlikes {name content : Str} (hfile : s.files.find? name = some content)
    (hname : LookAlike base ext name) : ∃ k : Nat, (lookAlikes base ext s)[k]? = some name := by
  have hkey : name ∈ s.files.keys := SortedMap.mem_keys_iff.mpr ⟨content, hfile⟩
  exact List.mem_iff_getElem?.mp (List.mem_filter.mpr ⟨hkey, decide_eq_true hname⟩)

theorem spares_of_inPlace (hext : '.' ∉ ext) (h : InPlace maxArchiveCount base ext s) {name content : Str}
    (hname : ¬ Own base ext name) (hfile : s.files.find? name = some content) {op : Operation}
    (hop : op ∈ operations maxArchiveCount (logName base ext) s) : op.Spares name := by
  obtain ⟨k, f, hf, rfl⟩ := (mem_operations hext).mp hop
  rw [operation]
  split
  · rename_i hk
    rintro rfl
    rcases h k _ hf with hown | ⟨hle, -⟩
    · exact hname hown
    · omega
  · rename_i hk
    by_cases hplace : f = archiveName (mask base) ext (k - surplus maxArchiveCount base ext s)
    · exact .inl hplace
    · refine .inr ⟨?_, ?_⟩
      · rintro rfl
        exact (h k _ hf).elim hname fun hin => hplace hin.2
      · intro htarget
        have hlook : LookAlike base ext name := htarget ▸ lookAlike_archiveName hext _
        obtain ⟨m, hm⟩ := mem_lookAlikes hfile hlook
        rcases h m name hm with hown | ⟨hle, hin⟩
        · exact hname hown
        · have hsame := archiveName_injective (htarget.symm.trans hin)
          obtain rfl : k = m := by omega
          rw [hf, Option.some.injEq] at hm
          exact hplace (hm.trans hin)

theorem own_of_moves (hext : '.' ∉ ext) (h : InPlace maxArchiveCount base ext s) {op : Operation} {f : Str}
    (hop : op ∈ operations maxArchiveCount (logName base ext) s) (hmoves : op.Moves f) : Own base ext f := by
  obtain ⟨k, g, hg, rfl⟩ := (mem_operations hext).mp hop
  rw [operation] at hmoves
  split at hmoves
  · rename_i hk
    obtain rfl : g = f := hmoves
    exact (h k g hg).resolve_right fun hin => absurd hk (Nat.not_lt.mpr hin.1)
  · obtain ⟨rfl, hne⟩ := hmoves
    exact (h k g hg).resolve_right fun hin => hne hin.2

theorem inPlace_of_moves (hext : '.' ∉ ext)
    (h : ∀ f, (∃ op ∈ operations maxArchiveCount (logName base ext) s, op.Moves f) → Own base ext f) :
    InPlace maxArchiveCount base ext s := by
  intro k f hf
  have hop := (@mem_operations maxArchiveCount _ _ s hext _).mpr ⟨k, f, hf, rfl⟩
  by_cases hk : k < surplus maxArchiveCount base ext s
  · refine .inl (h f ⟨_, hop, ?_⟩)
    rw [operation, if_pos hk]
    rfl
  · by_cases hplace : f = archiveName (mask base) ext (k - surplus maxArchiveCount base ext s)
    · exact .inr ⟨Nat.not_lt.mp hk, hplace⟩
    · refine .inl (h f ⟨_, hop, ?_⟩)
      rw [operation, if_neg hk]
      exact ⟨rfl, hplace⟩

/-- A rotation touches only its own files if and only if it hangs before it begins, or every file that looks like one
of them is one or has the name it would get. -/
theorem onlyOwn_iff (maxArchiveCount : Nat) (base : Str) {ext : Str} (hext : '.' ∉ ext) (s : System) :
    (∀ s', recreateFileList maxArchiveCount (logName base ext) s = some s' → OnlyOwn maxArchiveCount base ext s s') ↔
      Blocked maxArchiveCount base ext s ∨ InPlace maxArchiveCount base ext s := by
  by_cases hblocked : Blocked maxArchiveCount base ext s
  · refine iff_of_true (fun s' hs' => ?_) (.inl hblocked)
    rw [recreateFileList_of_blocked hext hblocked] at hs'
    cases hs'
  · rw [or_iff_right hblocked]
    constructor
    · intro h
      obtain ⟨s', hs'⟩ := recreateFileList_returns hext hblocked
      exact inPlace_of_moves hext (h s' hs').moved
    · intro h s' hs'
      refine ⟨fun f ⟨op, hop, hmoves⟩ => own_of_moves hext h hop hmoves, fun name content hname hfile => ?_⟩
      rw [recreateFileList_eq_foldlM] at hs'
      rw [find?_foldlM (fun op hop => spares_of_inPlace hext h hname hfile hop) hs', hfile]

def twoLogs : System :=
  ⟨(SortedMap.empty.insert (logName ['a'] ['l', 'o', 'g']) ['1']).insert (logName ['a', '.', 'b'] ['l', 'o', 'g']) ['2'],
    none⟩

theorem not_onlyOwn : ¬ ∀ (maxArchiveCount : Nat) (base ext : Str) (s s' : System), '.' ∉ ext →
    s.files.find? (logName base ext) ≠ none → recreateFileList maxArchiveCount (logName base ext) s = some s' →
      OnlyOwn maxArchiveCount base ext s s' := by
  intro h
  obtain ⟨s', hs', hgone⟩ : ∃ s', recreateFileList 5 (logName ['a'] ['l', 'o', 'g']) twoLogs = some s' ∧
      s'.files.find? (logName ['a', '.', 'b'] ['l', 'o', 'g']) = none := ⟨_, rfl, by decide⟩
  have honly := h 5 ['a'] ['l', 'o', 'g'] twoLogs s' (by decide) (by decide) hs'
  have hnot : ¬ Own ['a'] ['l', 'o', 'g'] (logName ['a', '.', 'b'] ['l', 'o', 'g']) := by
    rintro (heq | ⟨digits, hne, hdigits, heq⟩)
    · exact absurd heq (by decide)
    · have hfront : ['b'] ++ '.' :: ['l', 'o', 'g'] = digits ++ '.' :: ['l', 'o', 'g'] :=
        @List.append_cancel_left _ ['a', '.'] _ _ heq
      have hb : ['b'] = digits := List.append_cancel_right hfront
      have hdigit := hdigits 'b' (hb ▸ List.mem_cons_self)
      cases hdigit
  have hkept := honly.kept _ ['2'] hnot (by decide)
  rw [hgone] at hkept
  cases hkept

def neighbours : System :=
  ⟨((SortedMap.empty.insert (logName ['a'] ['l', 'o', 'g']) ['1']).insert "a.1.log".toList ['2']).insert
    (logName ['b'] ['l', 'o', 'g']) ['3'], none⟩

theorem onlyOwn_demo : ∃ s', recreateFileList 1 (logName ['a'] ['l', 'o', 'g']) neighbours = some s' ∧
    OnlyOwn 1 ['a'] ['l', 'o', 'g'] neighbours s' := by
  have hdigit : ∀ c ∈ ['1'], c.isDigit = true := fun c hc => List.mem_singleton.mp hc ▸ rfl
  have harchive : Own ['a'] ['l', 'o', 'g'] "a.1.log".toList := .inr ⟨['1'], by decide, hdigit, rfl⟩
  have hin : InPlace 1 ['a'] ['l', 'o', 'g'] neighbours := by
    intro k f hf
    have hall : lookAlikes ['a'] ['l', 'o', 'g'] neighbours =
        ["a.1.log".toList, logName ['a'] ['l', 'o', 'g']] := by decide
    rw [hall] at hf
    rcases List.mem_pair.mp (List.mem_of_getElem? hf) with rfl | rfl
    · exact .inl harchive
    · exact .inl (.inl rfl)
  have honly := (onlyOwn_iff 1 ['a'] (by decide) neighbours).mpr (.inr hin)
  exact ⟨_, rfl, honly _ rfl⟩

end Rotation

end RadioServices.Logger.OwnLog

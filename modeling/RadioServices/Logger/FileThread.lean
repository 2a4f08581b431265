import RadioServices.Logger.Message

namespace RadioServices.Logger

open Lib Lib.C

structure Config where
  folderEntry : Str
  currentStoreType : TcStore
  maxFileSize : Nat
  maxListSize : Nat
  registeredErrorLevel : Nat
  remoteSizeInMemo : Int

def Config.folder (c : Config) : Str :=
  let s := if c.folderEntry.head? ≠ some DELIMITER ∧ c.folderEntry.head? ≠ some '.' then
      DELIMITER :: c.folderEntry
    else c.folderEntry
  if s.getLast? ≠ some DELIMITER then s ++ [DELIMITER] else s

inductive FileOp
  | write (path text : Str)
  | recreateFileList (path : Str)
  | unlink (path : Str)
  | clearDirectory (path : Str)
  deriving DecidableEq

/-- How the calls made for one file go. `rotated` tells whether the call of
`RecreateFileList` returns. -/
structure FileOutcome where
  directory : Bool
  opened : Bool
  accepted : Nat
  size : Nat
  rotated : Bool

/-- The answers to a thread's file calls. The calls of `unlink` that meet a
directory are given by their number. -/
structure FileEnv where
  outcome : Str → FileOutcome
  isDirectory : Nat → Bool

structure FileThread where
  path : Str
  categoryStore : TcStore
  maxFileSize : Nat
  msgList : Mmessagelist

namespace FileThread

def new (c : Config) (mList : Mmessagelist) : FileThread :=
  ⟨c.folder, c.currentStoreType, c.maxFileSize, mList⟩

def write (t : FileThread) (env : FileEnv) (mF s : Str) : List FileOp :=
  let ss := t.path ++ mF
  let o := env.outcome ss
  if o.opened then
    .write ss (s.take o.accepted) ::
      if t.categoryStore = .LOCAL_STORE ∧ t.maxFileSize < o.size then [.recreateFileList ss] else []
  else []

def checkFileDirectory (t : FileThread) (env : FileEnv) (mFile : Str) : Bool :=
  (env.outcome (t.path ++ mFile)).directory

def writeMessages (t : FileThread) (env : FileEnv) (e : Str × Vmessage) : List FileOp :=
  if t.checkFileDirectory env e.1 then
    if e.2.flatten ≠ [] then t.write env e.1 e.2.flatten else []
  else []

def returns (t : FileThread) (env : FileEnv) (e : Str × Vmessage) : Bool :=
  decide (.recreateFileList (t.path ++ e.1) ∉ t.writeMessages env e) || (env.outcome (t.path ++ e.1)).rotated

def writeList (t : FileThread) (env : FileEnv) : List (Str × Vmessage) → List FileOp
  | [] => []
  | e :: l => t.writeMessages env e ++ if t.returns env e then t.writeList env l else []

def runWork (t : FileThread) (env : FileEnv) : List FileOp :=
  if t.categoryStore = .LOCAL_STORE then t.writeList env t.msgList.entries else []

def runWorkReturns (t : FileThread) (env : FileEnv) : Bool :=
  decide (t.categoryStore ≠ .LOCAL_STORE) || t.msgList.entries.all (t.returns env)

def asDirectory (f : Str) : Str := if f.getLast? ≠ some DELIMITER then f ++ [DELIMITER] else f

def fileDelete (isDirectory : Bool) (f : Str) : List FileOp :=
  let f := if f.head? ≠ some DELIMITER ∧ f.head? ≠ some '.' then DELIMITER :: f else f
  .unlink f :: if isDirectory then [.clearDirectory (asDirectory f)] else []

/-- The path a nonempty name of a delete request stands for. -/
def deletePath (path domain s : Str) : Str :=
  path ++ domain ++ if s.head? ≠ some DELIMITER then DELIMITER :: s else s

/-- The paths named by one string of the list, cut at each semicolon. -/
def filePaths (path domain str : Str) : List Str :=
  ((str.splitOn ';').filter (· ≠ [])).map (deletePath path domain)

def listFile (t : FileThread) : List Str :=
  t.msgList.entries.flatMap fun e => e.2.flatMap (filePaths t.path e.1)

def deleteAll (isDirectory : Nat → Bool) : List Str → List FileOp
  | [] => []
  | str :: files => fileDelete (isDirectory 0) str ++ deleteAll (fun i => isDirectory (i + 1)) files

def tryToDeleteFile (t : FileThread) (env : FileEnv) : List FileOp :=
  deleteAll env.isDirectory t.listFile

end FileThread

def msgToLocalStore (c : Config) (ml : Mmessagelist) (evCode : TcEvent) (env : FileEnv) : List FileOp :=
  let wrkFile := FileThread.new c ml
  if evCode = .evMsg then wrkFile.runWork env else wrkFile.tryToDeleteFile env

def msgToLocalStoreReturns (c : Config) (ml : Mmessagelist) (evCode : TcEvent) (env : FileEnv) : Bool :=
  decide (evCode ≠ .evMsg) || (FileThread.new c ml).runWorkReturns env

section Effects

def written (p : Str) (ops : List FileOp) : Str :=
  ops.flatMap fun
    | .write path text => if path = p then text else []
    | _ => []

def unlinked (ops : List FileOp) : List Str :=
  ops.filterMap fun
    | .unlink path => some path
    | _ => none

def logged (folder p : Str) (requests : List Request) : Str :=
  requests.flatMap fun
    | .message file text => if folder ++ file = p then text else []
    | .delete _ _ => []

def named (folder : Str) (requests : List Request) : List Str :=
  requests.flatMap fun
    | .message _ _ => []
    | .delete domain names => FileThread.filePaths folder domain names

/-- The operations do what the requests ask for: every log message goes, once,
to its file, every file named for deletion is deleted, and no other is. -/
structure Settled (folder : Str) (requests : List Request) (ops : List FileOp) : Prop where
  written : ∀ p, written p ops = logged folder p requests
  deleted : (unlinked ops).Perm (named folder requests)
  cleared : ∀ d, .clearDirectory d ∈ ops → ∃ p ∈ named folder requests, d = FileThread.asDirectory p

def Writable (folder : Str) (env : FileEnv) (requests : List Request) : Prop :=
  ∀ file text, .message file text ∈ requests →
    (env.outcome (folder ++ file)).directory = true ∧ (env.outcome (folder ++ file)).opened = true ∧
      (logged folder (folder ++ file) requests).length ≤ (env.outcome (folder ++ file)).accepted ∧
      (env.outcome (folder ++ file)).rotated = true

theorem written_append (p : Str) (ops ops' : List FileOp) :
    written p (ops ++ ops') = written p ops ++ written p ops' := List.flatMap_append

theorem written_flatMap {α : Type*} (p : Str) (l : List α) (f : α → List FileOp) :
    written p (l.flatMap f) = l.flatMap fun a => written p (f a) := by
  induction l with
  | nil => rfl
  | cons a l ih => rw [List.flatMap_cons, List.flatMap_cons, written_append, ih]

theorem unlinked_append (ops ops' : List FileOp) :
    unlinked (ops ++ ops') = unlinked ops ++ unlinked ops' := List.filterMap_append

end Effects

theorem Config.folder_head (c : Config) :
    c.folder.head? = some DELIMITER ∨ c.folder.head? = some '.' := by
  have hhead (s : Str) (h : s.head? = some DELIMITER ∨ s.head? = some '.') :
      (if s.getLast? ≠ some DELIMITER then s ++ [DELIMITER] else s).head? = some DELIMITER ∨
        (if s.getLast? ≠ some DELIMITER then s ++ [DELIMITER] else s).head? = some '.' := by
    cases s with
    | nil => simp at h
    | cons d s => split <;> simpa using h
  simp only [Config.folder]
  split
  · exact hhead _ (.inl rfl)
  · rename_i h
    exact hhead _ (by tauto)

namespace FileThread

variable {c : Config} {env : FileEnv} {requests : List Request} {ml : Mmessagelist}

theorem written_write_of_ne (t : FileThread) {mF p : Str} (h : t.path ++ mF ≠ p) (s : Str) :
    written p (t.write env mF s) = [] := by
  simp only [write]
  split
  · split <;> simp [written, h]
  · rfl

theorem written_writeMessages_of_ne (t : FileThread) {e : Str × Vmessage} {p : Str}
    (h : t.path ++ e.1 ≠ p) : written p (t.writeMessages env e) = [] := by
  simp only [writeMessages]
  split
  · split
    · exact t.written_write_of_ne h _
    · rfl
  · rfl

theorem written_writeMessages (t : FileThread) {file : Str} {v : Vmessage}
    (hdir : (env.outcome (t.path ++ file)).directory = true)
    (hopen : (env.outcome (t.path ++ file)).opened = true)
    (haccepted : v.flatten.length ≤ (env.outcome (t.path ++ file)).accepted) :
    written (t.path ++ file) (t.writeMessages env (file, v)) = v.flatten := by
  simp only [writeMessages, checkFileDirectory, hdir, if_true]
  split
  · simp only [write, hopen, if_true, List.take_of_length_le haccepted]
    split <;> simp [written]
  · rename_i h
    exact (not_not.mp h).symm

theorem logged_items (folder file : Str) (h : ∀ r ∈ requests, ∃ f s, r = .message f s) :
    logged folder (folder ++ file) requests =
      (((SortedMap.collect (requests.map Request.item)).find? file).getD []).flatten := by
  rw [SortedMap.getD_find?_collect]
  induction requests with
  | nil => rfl
  | cons r requests ih =>
      obtain ⟨f, s, rfl⟩ := h r List.mem_cons_self
      have hrest := ih fun r hr => h r (List.mem_cons_of_mem _ hr)
      simp only [logged, List.flatMap_cons, List.map_cons, List.flatten_append] at hrest ⊢
      rw [hrest]
      by_cases hf : f = file
      · simp [Request.item, hf]
      · simp [Request.item, hf]

theorem logged_of_not_mem {folder p : Str}
    (h : ∀ file text, .message file text ∈ requests → folder ++ file ≠ p) :
    logged folder p requests = [] := by
  apply List.flatMap_eq_nil_iff.mpr
  intro r hr
  cases r with
  | message file text => exact if_neg (h file text hr)
  | delete _ _ => rfl

theorem unlinked_writeMessages (t : FileThread) (e : Str × Vmessage) :
    unlinked (t.writeMessages env e) = [] := by
  simp only [writeMessages, write]
  split
  · split
    · split
      · split <;> rfl
      · rfl
    · rfl
  · rfl

theorem not_clearDirectory_writeMessages (t : FileThread) (e : Str × Vmessage) (d : Str) :
    .clearDirectory d ∉ t.writeMessages env e := by
  simp only [writeMessages, write]
  split
  · split
    · split
      · split <;> simp
      · simp
    · simp
  · simp

theorem named_of_messages {folder : Str} (h : ∀ r ∈ requests, ∃ f s, r = .message f s) :
    named folder requests = [] := by
  apply List.flatMap_eq_nil_iff.mpr
  intro r hr
  obtain ⟨f, s, rfl⟩ := h r hr
  rfl

theorem writeMessages_of_nil (t : FileThread) {e : Str × Vmessage} (h : e.2.flatten = []) :
    t.writeMessages env e = [] := by
  rw [writeMessages, if_neg (not_not.mpr h)]
  exact ite_self []

theorem mem_writeMessages_of_mem {t : FileThread} {l : List (Str × Vmessage)} {op : FileOp}
    (h : op ∈ t.writeList env l) : ∃ e ∈ l, op ∈ t.writeMessages env e := by
  induction l with
  | nil => cases h
  | cons e l ih =>
      rw [writeList] at h
      rcases List.mem_append.mp h with h | h
      · exact ⟨e, List.mem_cons_self, h⟩
      · split at h
        · obtain ⟨e', he', h⟩ := ih h
          exact ⟨e', List.mem_cons_of_mem e he', h⟩
        · cases h

theorem writeList_of_returns {t : FileThread} {l : List (Str × Vmessage)}
    (h : ∀ e ∈ l, t.returns env e = true) : t.writeList env l = l.flatMap (t.writeMessages env) := by
  induction l with
  | nil => rfl
  | cons e l ih =>
      rw [writeList, if_pos (h e List.mem_cons_self), ih fun e' he' => h e' (List.mem_cons_of_mem e he'),
        List.flatMap_cons]

theorem written_runWork {t : FileThread} (hstore : t.categoryStore = .LOCAL_STORE)
    (h : ∀ e ∈ t.msgList.entries, t.returns env e = true) (file : Str) :
    written (t.path ++ file) (t.runWork env) =
      (t.msgList.find? file).elim [] fun v => written (t.path ++ file) (t.writeMessages env (file, v)) := by
  rw [runWork, if_pos hstore, writeList_of_returns h, written_flatMap]
  apply SortedMap.flatMap_entries t.msgList file _
  intro e he
  exact t.written_writeMessages_of_ne fun h => he (List.append_cancel_left h)

theorem written_runWork_of_ne {t : FileThread} {p : Str} (hp : ∀ file, t.path ++ file ≠ p) :
    written p (t.runWork env) = [] := by
  apply List.flatMap_eq_nil_iff.mpr
  intro op hop
  rw [runWork] at hop
  split at hop
  · obtain ⟨e, _, hop⟩ := mem_writeMessages_of_mem hop
    have hnil : written p (t.writeMessages env e) = [] := t.written_writeMessages_of_ne (hp e.1)
    exact List.flatMap_eq_nil_iff.mp hnil op hop
  · cases hop

section Messages

variable (hml : ml = SortedMap.collect (requests.map Request.item))
  (hmessages : ∀ r ∈ requests, ∃ f s, r = .message f s) (hwritable : Writable c.folder env requests)
include hml hmessages

theorem flatten_of_find? (folder : Str) {file : Str} {v : Vmessage} (hfind : ml.find? file = some v) :
    v.flatten = logged folder (folder ++ file) requests := by
  rw [logged_items folder file hmessages, ← hml, hfind]
  rfl

theorem flatten_of_not_mem {file : Str} {v : Vmessage} (hfind : ml.find? file = some v)
    (hnot : ¬ ∃ text, .message file text ∈ requests) : v.flatten = [] := by
  rw [flatten_of_find? hml hmessages [] hfind]
  refine logged_of_not_mem fun f s hr h => hnot ⟨s, ?_⟩
  rwa [← List.append_cancel_left h]

include hwritable

theorem returns_of_writable : ∀ e ∈ ml.entries, (new c ml).returns env e = true := by
  intro e he
  have hfind := SortedMap.find?_of_mem_entries (k := e.1) (v := e.2) he
  rw [returns, Bool.or_eq_true]
  by_cases hmem : ∃ text, .message e.1 text ∈ requests
  · obtain ⟨text, hmem⟩ := hmem
    exact .inr (hwritable e.1 text hmem).2.2.2
  · rw [writeMessages_of_nil _ (flatten_of_not_mem hml hmessages hfind hmem)]
    exact .inl (decide_eq_true List.not_mem_nil)

theorem written_runWork_messages (hstore : c.currentStoreType = .LOCAL_STORE) (file : Str) :
    written (c.folder ++ file) ((new c ml).runWork env) = logged c.folder (c.folder ++ file) requests := by
  have hrun := written_runWork (t := new c ml) hstore (returns_of_writable hml hmessages hwritable) file
  rw [show c.folder = (new c ml).path from rfl, hrun, show (new c ml).msgList = ml from rfl]
  change _ = logged c.folder (c.folder ++ file) requests
  cases hfind : ml.find? file with
  | none =>
      rw [logged_items c.folder file hmessages, ← hml, hfind]
      rfl
  | some v =>
      have hflatten := flatten_of_find? hml hmessages c.folder hfind
      rw [Option.elim_some, ← hflatten]
      by_cases hmem : ∃ text, .message file text ∈ requests
      · obtain ⟨text, hmem⟩ := hmem
        obtain ⟨hdir, hopen, haccepted, -⟩ := hwritable file text hmem
        exact (new c ml).written_writeMessages hdir hopen (hflatten ▸ haccepted)
      · have hnil := flatten_of_not_mem hml hmessages hfind hmem
        rw [writeMessages_of_nil _ hnil, hnil]
        rfl

theorem runWork_settled (hstore : c.currentStoreType = .LOCAL_STORE) :
    Settled c.folder requests ((new c ml).runWork env) := by
  have hmem : ∀ op ∈ (new c ml).runWork env, ∃ e, op ∈ (new c ml).writeMessages env e := by
    intro op hop
    rw [runWork] at hop
    split at hop
    · obtain ⟨e, _, hop⟩ := mem_writeMessages_of_mem hop
      exact ⟨e, hop⟩
    · cases hop
  constructor
  · intro p
    by_cases hp : ∃ file, c.folder ++ file = p
    · obtain ⟨file, rfl⟩ := hp
      exact written_runWork_messages hml hmessages hwritable hstore file
    · rw [written_runWork_of_ne fun file h => hp ⟨file, h⟩, logged_of_not_mem fun f _ _ h => hp ⟨f, h⟩]
  · have hnone : unlinked ((new c ml).runWork env) = [] := by
      apply List.filterMap_eq_nil_iff.mpr
      intro op hop
      obtain ⟨e, hop⟩ := hmem op hop
      exact List.filterMap_eq_nil_iff.mp ((new c ml).unlinked_writeMessages e) op hop
    rw [hnone, named_of_messages hmessages]
  · intro d hd
    obtain ⟨e, hd⟩ := hmem _ hd
    exact absurd hd ((new c ml).not_clearDirectory_writeMessages e d)

end Messages

theorem deletePath_head (domain s : Str) :
    (deletePath c.folder domain s).head? = some DELIMITER ∨
      (deletePath c.folder domain s).head? = some '.' := by
  have h := c.folder_head
  cases hf : c.folder with
  | nil => rw [hf] at h; simp at h
  | cons d folder => rw [hf] at h; simpa [deletePath] using h

theorem fileDelete_of_head {f : Str} (h : f.head? = some DELIMITER ∨ f.head? = some '.')
    (isDirectory : Bool) :
    fileDelete isDirectory f = .unlink f :: if isDirectory then [.clearDirectory (asDirectory f)] else [] := by
  have hnot : ¬ (f.head? ≠ some DELIMITER ∧ f.head? ≠ some '.') := by tauto
  rw [fileDelete, if_neg hnot]

theorem unlinked_deleteAll {files : List Str}
    (h : ∀ f ∈ files, f.head? = some DELIMITER ∨ f.head? = some '.') (isDirectory : Nat → Bool) :
    unlinked (deleteAll isDirectory files) = files := by
  induction files generalizing isDirectory with
  | nil => rfl
  | cons f files ih =>
      have htail := ih (fun g hg => h g (List.mem_cons_of_mem _ hg)) fun i => isDirectory (i + 1)
      rw [deleteAll, unlinked_append, htail, fileDelete_of_head (h f List.mem_cons_self)]
      cases isDirectory 0 <;> rfl

theorem clearDirectory_deleteAll {files : List Str} {d : Str}
    (h : ∀ f ∈ files, f.head? = some DELIMITER ∨ f.head? = some '.') {isDirectory : Nat → Bool}
    (hd : .clearDirectory d ∈ deleteAll isDirectory files) : ∃ f ∈ files, d = asDirectory f := by
  induction files generalizing isDirectory with
  | nil => simp [deleteAll] at hd
  | cons f files ih =>
      rw [deleteAll, fileDelete_of_head (h f List.mem_cons_self), List.mem_append] at hd
      rcases hd with hd | hd
      · refine ⟨f, List.mem_cons_self, ?_⟩
        cases hdir : isDirectory 0 <;> simp_all
      · obtain ⟨g, hg, rfl⟩ := ih (fun g hg => h g (List.mem_cons_of_mem _ hg)) hd
        exact ⟨g, List.mem_cons_of_mem _ hg, rfl⟩

theorem written_deleteAll (p : Str) (isDirectory : Nat → Bool) (files : List Str) :
    written p (deleteAll isDirectory files) = [] := by
  induction files generalizing isDirectory with
  | nil => rfl
  | cons f files ih =>
      rw [deleteAll, written_append, ih, fileDelete]
      cases isDirectory 0 <;> rfl

theorem logged_of_deletes {folder p : Str} (h : ∀ r ∈ requests, ∃ d s, r = .delete d s) :
    logged folder p requests = [] := by
  apply List.flatMap_eq_nil_iff.mpr
  intro r hr
  obtain ⟨d, s, rfl⟩ := h r hr
  rfl

theorem listFile_perm (hml : ml = SortedMap.collect (requests.map Request.item))
    (h : ∀ r ∈ requests, ∃ d s, r = .delete d s) :
    (new c ml).listFile.Perm (named c.folder requests) := by
  have hitems : (new c ml).listFile = ml.items.flatMap fun e => filePaths c.folder e.1 e.2 := by
    simp only [listFile, SortedMap.items, List.flatMap_assoc, List.flatMap_map]
    rfl
  have hnamed : named c.folder requests =
      (requests.map Request.item).flatMap fun e => filePaths c.folder e.1 e.2 := by
    rw [List.flatMap_map, named]
    apply List.flatMap_congr
    intro r hr
    obtain ⟨d, s, rfl⟩ := h r hr
    rfl
  rw [hitems, hnamed, hml]
  exact (SortedMap.items_collect_perm _).flatMap_right _

theorem tryToDeleteFile_settled (hml : ml = SortedMap.collect (requests.map Request.item))
    (hdeletes : ∀ r ∈ requests, ∃ d s, r = .delete d s) :
    Settled c.folder requests ((new c ml).tryToDeleteFile env) := by
  have hhead : ∀ f ∈ (new c ml).listFile, f.head? = some DELIMITER ∨ f.head? = some '.' := by
    intro f hf
    obtain ⟨e, _, hf⟩ := List.mem_flatMap.mp hf
    obtain ⟨str, _, hf⟩ := List.mem_flatMap.mp hf
    obtain ⟨s, _, rfl⟩ := List.mem_map.mp hf
    exact deletePath_head e.1 s
  have hperm := listFile_perm (c := c) hml hdeletes
  constructor
  · intro p
    rw [tryToDeleteFile, written_deleteAll, logged_of_deletes hdeletes]
  · rw [tryToDeleteFile, unlinked_deleteAll hhead]
    exact hperm
  · intro d hd
    obtain ⟨f, hf, rfl⟩ := clearDirectory_deleteAll hhead hd
    exact ⟨f, hperm.mem_iff.mp hf, rfl⟩

end FileThread

end RadioServices.Logger

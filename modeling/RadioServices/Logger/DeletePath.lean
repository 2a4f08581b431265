import RadioServices.Lib.Lines
import RadioServices.Lib.Paths
import RadioServices.Logger.FileThread

namespace RadioServices.Logger.DeletePath

open Lib Lib.C Lib.Paths FileThread TLogMsg

def writePath (c : Config) (m : TLogMsg) : Str := c.folder ++ m.globalFileName

def deleted (c : Config) (m : TLogMsg) (env : FileEnv) : List Str :=
  unlinked ((FileThread.new c
    (SortedMap.collect ([Request.delete m.domain m.fullfilename].map Request.item))).tryToDeleteFile env)

/-- One path is deleted, the path that is written, the file under its domain. -/
def SameFile (c : Config) (m : TLogMsg) : Prop :=
  ∃ p, (∀ env, deleted c m env = [p]) ∧ collapse DELIMITER (writePath c m) = collapse DELIMITER p ∧
    collapse DELIMITER p = collapse DELIMITER (c.folder ++ m.domain ++ DELIMITER :: m.filename)

/-- A file that is not in a directory of its own, as one name. -/
def PlainName (filename : Str) : Prop :=
  filename ≠ [] ∧ ';' ∉ filename ∧ ∀ d ∈ directoryPart filename, ∀ c ∈ d, c = DELIMITER

/-- What a file name adds to the path of its domain, before the name. -/
def directories (filename : Str) : Str :=
  match directoryPart filename with
  | none => []
  | some (c :: t) => if c = DELIMITER then t else c :: t
  | some [] => []

theorem writePath_eq (c : Config) (m : TLogMsg) :
    writePath c m = c.folder ++ m.domain ++ DELIMITER ::
      ((if directories m.filename = [] then [] else directories m.filename ++ [DELIMITER]) ++ m.filename) := by
  change c.folder ++ (m.domain ++ DELIMITER ::
    (if directories m.filename = [] then [] else directories m.filename ++ [DELIMITER]) ++ m.filename) = _
  simp only [List.append_assoc, List.cons_append]

theorem directories_all_iff (filename : Str) :
    (∀ c ∈ directories filename, c = DELIMITER) ↔
      ∀ d ∈ directoryPart filename, ∀ c ∈ d, c = DELIMITER := by
  rw [directories]
  cases directoryPart filename with
  | none => simp
  | some d =>
      cases d with
      | nil => simp
      | cons c t =>
          by_cases hc : c = DELIMITER
          · simp [hc]
          · simp [hc]

theorem deleted_perm (c : Config) (m : TLogMsg) (env : FileEnv) :
    (deleted c m env).Perm (filePaths c.folder m.domain m.filename) := by
  have hdelete : ∀ r ∈ [Request.delete m.domain m.fullfilename], ∃ d s, r = .delete d s := by
    intro r hr
    exact ⟨_, _, List.mem_singleton.mp hr⟩
  have h : (deleted c m env).Perm (named c.folder [.delete m.domain m.fullfilename]) :=
    (FileThread.tryToDeleteFile_settled rfl hdelete).deleted
  rwa [named, List.flatMap_singleton] at h

theorem collapse_deletePath (path domain s : Str) :
    collapse DELIMITER (deletePath path domain s) =
      collapse DELIMITER (path ++ domain ++ DELIMITER :: s) := by
  rw [deletePath]
  split
  · rfl
  · rename_i h
    cases s with
    | nil => simp at h
    | cons c t =>
        have hc : c = DELIMITER := by simpa using h
        rw [hc]
        exact (collapse_append_cons_cons _ _).symm

theorem filePaths_of_plain {filename : Str} (path domain : Str) (hne : filename ≠ [])
    (hsep : ';' ∉ filename) : filePaths path domain filename = [deletePath path domain filename] := by
  rw [filePaths, List.splitOn_eq_singleton hsep]
  simp [hne]

theorem exists_piece {path domain filename p : Str} (h : filePaths path domain filename = [p]) :
    ∃ s, ';' ∉ s ∧ p = deletePath path domain s := by
  have hp : p ∈ filePaths path domain filename := h ▸ List.mem_singleton_self p
  obtain ⟨s, hs, rfl⟩ := List.mem_map.mp hp
  exact ⟨s, Lines.not_mem_of_mem_splitOn (List.mem_filter.mp hs).1, rfl⟩

theorem not_mem_of_collapse {s t u : Str} {c : Char} (hc : c ≠ DELIMITER)
    (h : collapse DELIMITER (u ++ DELIMITER :: s) = collapse DELIMITER (u ++ DELIMITER :: t))
    (hs : c ∉ s) : c ∉ t := by
  have hcount := congrArg (List.count c) h
  rw [count_collapse hc, count_collapse hc, List.count_append, List.count_append,
    List.count_cons_of_ne hc.symm, List.count_cons_of_ne hc.symm, List.count_eq_zero.mpr hs] at hcount
  exact List.count_eq_zero.mp (by omega)

theorem directories_of_collapse {d s u : Str}
    (h : collapse DELIMITER (u ++ DELIMITER :: ((if d = [] then [] else d ++ [DELIMITER]) ++ s)) =
      collapse DELIMITER (u ++ DELIMITER :: s)) : ∀ c ∈ d, c = DELIMITER := by
  intro c hmem
  by_contra hc
  have hcount := congrArg (List.count c) h
  rw [if_neg (List.ne_nil_of_mem hmem), count_collapse hc, count_collapse hc] at hcount
  simp only [List.count_append, List.count_cons] at hcount
  have hpos := List.count_pos_iff.mpr hmem
  omega

theorem collapse_of_directories {d : Str} (hd : ∀ c ∈ d, c = DELIMITER) (s u : Str) :
    collapse DELIMITER (u ++ DELIMITER :: ((if d = [] then [] else d ++ [DELIMITER]) ++ s)) =
      collapse DELIMITER (u ++ DELIMITER :: s) := by
  refine collapse_append_of_all (fun c hc => ?_) u s
  split at hc
  · cases hc
  · rcases List.mem_append.mp hc with hc | hc
    · exact hd c hc
    · exact List.mem_singleton.mp hc

/-- The written file is the deleted one if and only if its name has no directory of its own. -/
theorem sameFile_iff (c : Config) (m : TLogMsg) : SameFile c m ↔ PlainName m.filename := by
  constructor
  · rintro ⟨p, hp, hwrite, hdelete⟩
    have hpaths : filePaths c.folder m.domain m.filename = [p] := by
      have hperm := deleted_perm c m ⟨fun _ => ⟨true, true, 0, 0, true⟩, fun _ => false⟩
      rw [hp] at hperm
      exact (List.singleton_perm.mp hperm).symm
    obtain ⟨s, hs, hps⟩ := exists_piece hpaths
    have hsep : ';' ∉ m.filename := by
      rw [hps, collapse_deletePath] at hdelete
      exact not_mem_of_collapse (by decide) hdelete hs
    have hne : m.filename ≠ [] := by
      intro hnil
      rw [hnil] at hpaths
      cases hpaths
    rw [hdelete, writePath_eq] at hwrite
    exact ⟨hne, hsep, (directories_all_iff m.filename).mp (directories_of_collapse hwrite)⟩
  · rintro ⟨hne, hsep, hdirs⟩
    have hpath := collapse_deletePath c.folder m.domain m.filename
    refine ⟨deletePath c.folder m.domain m.filename, fun env => ?_, ?_, hpath⟩
    · have hperm := deleted_perm c m env
      rw [filePaths_of_plain _ _ hne hsep] at hperm
      exact List.perm_singleton.mp hperm
    · rw [hpath, writePath_eq]
      exact collapse_of_directories ((directories_all_iff m.filename).mpr hdirs) _ _

/-- The file of "a/b.log" is written in a/a. -/
theorem not_sameFile : ¬ ∀ (c : Config) (m : TLogMsg), SameFile c m := by
  intro h
  let c : Config := ⟨"log".toList, .LOCAL_STORE, 1000, 10, 0, 0⟩
  let m : TLogMsg := ⟨.empty, [], "shop".toList, "a/b.log".toList, [], [], 0, .evEmpty⟩
  obtain ⟨p, -, hwrite, hdelete⟩ := h c m
  have hwritten : collapse DELIMITER (writePath c m) = "/log/shop/a/a/b.log".toList := by decide
  have hdeleted : collapse DELIMITER (c.folder ++ m.domain ++ DELIMITER :: m.filename) =
      "/log/shop/a/b.log".toList := by decide
  rw [hwritten, hdelete, hdeleted] at hwrite
  exact absurd hwrite (by decide)

end RadioServices.Logger.DeletePath

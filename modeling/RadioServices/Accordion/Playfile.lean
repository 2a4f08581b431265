import RadioServices.Lib.Lines
import RadioServices.Accordion.Parameters

namespace RadioServices.Accordion.Playfile

open Lib Lib.C Tparameters

/-- What `set_change_playlist` writes to the playfile for its list. -/
def playfileText (pl : Lplaylist) : Str := pl.flatMap fun it => it ++ ['\n']

/-- What the calls of `getline` leave in a buffer of 256 bytes, for the lines of a
file. The last call fails: it meets the end of the file, or a line that does not fit. -/
def getlines : List Str → List Str
  | [] => [[]]
  | line :: lines => if line.length < 256 then line :: getlines lines else [line.take 255]

def dotExt (aacStreamtype : Bool) : Str := if aacStreamtype then ".aac".toList else ".mp3".toList

def strstr (str ext : Str) : Bool := (find ext str).isSome

def readPlayfile (aacStreamtype : Bool) (fileExists : Str → Bool) (text : Str) : Lplaylist :=
  (getlines (Lines.lines '\n' text)).filter fun str => strstr str (dotExt aacStreamtype) && fileExists str

def jingles (aacStreamtype : Bool) (jinglePath : Str) (names : List Str) : Lplaylist :=
  (names.filter fun name => strstr name (dotExt aacStreamtype)).map fun name => jinglePath ++ '/' :: name

structure Start where
  parameters : Tparameters
  playfileDefault : Bool

/-- The constructor. There may be no playfile and no jingle directory. -/
def new (aacStreamtype : Bool) (playlistPath jinglePath : Str) (fileExists : Str → Bool)
    (playfile : Option Str) (directory : Option (List Str)) : Start :=
  let playlist := (playfile.map (readPlayfile aacStreamtype fileExists)).getD []
  let playfileDefault := decide (playlist = [])
  let playlist := if playfileDefault = true then
      playlist ++ (directory.map (jingles aacStreamtype jinglePath)).getD []
    else playlist
  ⟨⟨aacStreamtype, playlistPath, false, decide (playlist ≠ []), playlist⟩, playfileDefault⟩

variable {p : Tparameters} {fileExists fileExists' : Str → Bool} {mPlaylist jinglePath : Str}
  {directory : Option (List Str)} {pl : Lplaylist}

def Survives (p : Tparameters) (jinglePath : Str) (fileExists : Str → Bool)
    (directory : Option (List Str)) (pl : Lplaylist) : Prop :=
  let start := new p.aacStreamtype p.playlistPath jinglePath fileExists (some (playfileText pl)) directory
  start.parameters.playlist = pl ∧ start.playfileDefault = false

theorem readTrack_mem {acc : Str × Lplaylist} {s f : Str} (h : f ∈ (p.readTrack fileExists acc s).2) :
    f ∈ acc.2 ∨ fileExists f = true ∧ ∃ path id, f = p.trackFile path id := by
  rw [readTrack] at h
  split at h
  · exact .inl h
  · split at h
    next hfile =>
      rcases List.mem_append.mp h with h | h
      · exact .inl h
      · rw [List.mem_singleton] at h
        subst h
        exact .inr ⟨hfile.2.2, _, _, rfl⟩
    · exact .inl h

theorem foldl_readTrack_mem {l : List Str} {acc : Str × Lplaylist} {f : Str}
    (h : f ∈ (l.foldl (p.readTrack fileExists) acc).2) :
    f ∈ acc.2 ∨ fileExists f = true ∧ ∃ path id, f = p.trackFile path id := by
  induction l generalizing acc with
  | nil => exact .inl h
  | cons s l ih =>
      rcases ih h with h | h
      · exact readTrack_mem h
      · exact .inr h

theorem mem_receive (h : p.receive fileExists mPlaylist = some pl) {f : Str} (hf : f ∈ pl) :
    fileExists f = true ∧ ∃ path id, f = p.trackFile path id := by
  simp only [receive, Option.bind_eq_bind, Option.bind_eq_some_iff] at h
  obtain ⟨s, -, h⟩ := h
  rw [← Option.some.inj h] at hf
  rcases foldl_readTrack_mem hf with hf | hf
  · cases hf
  · exact hf

theorem find_append_self {pat : Str} (hpat : pat ≠ []) (s : Str) : (find pat (s ++ pat)).isSome = true := by
  induction s with
  | nil =>
      cases pat with
      | nil => exact absurd rfl hpat
      | cons c pat => simp [find]
  | cons c s ih =>
      rw [List.cons_append, find]
      split
      · rfl
      · exact ih

theorem strstr_trackFile (path id : Str) : strstr (p.trackFile path id) (dotExt p.aacStreamtype) = true := by
  have hext : '.' :: p.ext = dotExt p.aacStreamtype := by
    rw [ext, dotExt]
    cases p.aacStreamtype <;> rfl
  rw [strstr, trackFile, hext]
  refine find_append_self ?_ _
  rw [← hext]
  exact List.cons_ne_nil _ _

theorem mem_getlines {lines : List Str} {str : Str} (h : str ∈ getlines lines) :
    str.length < 256 ∧ ∀ c ∈ str, ∃ line ∈ lines, c ∈ line := by
  induction lines with
  | nil =>
      rw [getlines, List.mem_singleton] at h
      simp [h]
  | cons line lines ih =>
      rw [getlines] at h
      split at h
      · rename_i hlength
        rcases List.mem_cons.mp h with rfl | h
        · exact ⟨hlength, fun c hc => ⟨_, List.mem_cons_self, hc⟩⟩
        · obtain ⟨hlt, hchars⟩ := ih h
          refine ⟨hlt, fun c hc => ?_⟩
          obtain ⟨l, hl, hc⟩ := hchars c hc
          exact ⟨l, List.mem_cons_of_mem _ hl, hc⟩
      · rw [List.mem_singleton.mp h]
        refine ⟨?_, fun c hc => ⟨line, List.mem_cons_self, List.mem_of_mem_take hc⟩⟩
        rw [List.length_take]
        omega

theorem getlines_of_short {lines : List Str} (h : ∀ line ∈ lines, line.length < 256) :
    getlines lines = lines ++ [[]] := by
  induction lines with
  | nil => rfl
  | cons line lines ih =>
      rw [getlines, if_pos (h line List.mem_cons_self), ih fun l hl => h l (List.mem_cons_of_mem _ hl),
        List.cons_append]

theorem survives_iff_readPlayfile (hne : pl ≠ []) : Survives p jinglePath fileExists directory pl ↔
    readPlayfile p.aacStreamtype fileExists (playfileText pl) = pl := by
  simp only [Survives, new, Option.map_some, Option.getD_some]
  by_cases hnil : readPlayfile p.aacStreamtype fileExists (playfileText pl) = []
  · simp only [hnil, decide_true, Bool.true_eq_false, and_false, false_iff]
    exact hne.symm
  · simp [hnil]

theorem readPlayfile_of_short (h : ∀ f ∈ pl, f.length < 256 ∧ '\n' ∉ f)
    (hread : ∀ f ∈ pl, strstr f (dotExt p.aacStreamtype) = true ∧ fileExists f = true) :
    readPlayfile p.aacStreamtype fileExists (playfileText pl) = pl := by
  have hlines : Lines.lines '\n' (playfileText pl) = pl :=
    (Lines.lines_terminated_iff pl).mpr fun f hf => (h f hf).2
  rw [readPlayfile, hlines, getlines_of_short fun f hf => (h f hf).1, List.filter_append]
  have hlast : strstr [] (dotExt p.aacStreamtype) = false := by
    rw [dotExt]
    cases p.aacStreamtype <;> rfl
  have hall : pl.filter (fun str => strstr str (dotExt p.aacStreamtype) && fileExists str) = pl := by
    apply List.filter_eq_self.mpr
    intro f hf
    rw [(hread f hf).1, (hread f hf).2]
    rfl
  rw [hall, List.filter_cons_of_neg (by simp [hlast]), List.filter_nil, List.append_nil]

theorem short_of_readPlayfile (h : readPlayfile p.aacStreamtype fileExists (playfileText pl) = pl) :
    ∀ f ∈ pl, f.length < 256 ∧ '\n' ∉ f := by
  intro f hf
  rw [← h] at hf
  obtain ⟨hlength, hchars⟩ := mem_getlines (List.mem_filter.mp hf).1
  refine ⟨hlength, fun hmem => ?_⟩
  obtain ⟨line, hline, hc⟩ := hchars '\n' hmem
  exact Lines.not_mem_of_mem_lines hline hc

/-- An accepted playlist whose files are still there survives a restart if and only
if each path is one line that fits the buffer. -/
theorem survives_iff (hpl : p.receive fileExists mPlaylist = some pl) (hne : pl ≠ [])
    (hpresent : ∀ f ∈ pl, fileExists' f = true) :
    Survives p jinglePath fileExists' directory pl ↔ ∀ f ∈ pl, f.length < 256 ∧ '\n' ∉ f := by
  rw [survives_iff_readPlayfile hne]
  constructor
  · exact short_of_readPlayfile
  · intro h
    refine readPlayfile_of_short h fun f hf => ⟨?_, hpresent f hf⟩
    obtain ⟨-, path, id, rfl⟩ := mem_receive hpl hf
    exact strstr_trackFile path id

def mp3Player (playlistPath : Str) : Tparameters := ⟨false, playlistPath, false, true, []⟩

def twoTracks : Lplaylist := ["/music/rock/0/17.mp3".toList, "/music/folk/0/4.mp3".toList]

theorem survives_iff_demo : Survives (mp3Player "/music".toList) "/jingle".toList (fun _ => true) none twoTracks ↔
    ∀ f ∈ twoTracks, f.length < 256 ∧ '\n' ∉ f :=
  survives_iff
    (show (mp3Player "/music".toList).receive (fun _ => true) "finish\n17|rock|song\n4|folk|tune\n".toList =
      some twoTracks from rfl)
    (List.cons_ne_nil _ _) (fun _ _ => rfl)

/-- A path of more than 255 bytes ends the reading. -/
theorem not_survives : ¬ ∀ (p : Tparameters) (jinglePath : Str) (fileExists : Str → Bool)
    (directory : Option (List Str)) (mPlaylist : Str) (pl : Lplaylist),
    p.receive fileExists mPlaylist = some pl → pl ≠ [] → Survives p jinglePath fileExists directory pl := by
  intro h
  let p := mp3Player ('/' :: List.replicate 250 'm')
  have hreceive : p.receive (fun _ => true) "finish\n17|rock|song\n".toList =
      some [('/' :: List.replicate 250 'm') ++ "/rock/0/17.mp3".toList] := by decide +kernel
  have hsurvives := h p "/jingle".toList (fun _ => true) none _ _ hreceive (List.cons_ne_nil _ _)
  have hplaylist := hsurvives.1
  have hread : (new p.aacStreamtype p.playlistPath "/jingle".toList (fun _ => true)
      (some (playfileText [('/' :: List.replicate 250 'm') ++ "/rock/0/17.mp3".toList])) none).parameters.playlist =
        [] := by decide +kernel
  rw [hread] at hplaylist
  cases hplaylist

end RadioServices.Accordion.Playfile

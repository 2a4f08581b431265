import RadioServices.Accordion.Playlist
import RadioServices.Accordion.Playfile
import RadioServices.Lib.Decimal
import Mathlib.Data.List.InsertIdx

namespace RadioServices.Station.Resume

open Lib.C Lib.Runs Accordion Accordion.Playlist

/-- What `save_idx` writes. -/
def idxText (idx : Nat) : Str := Nat.toDigits 10 idx

/-- What `load_idx` reads: the number at the beginning of the first 254 characters of the first line. -/
def readIdx (npfile : Option Str) : Int :=
  match npfile with
  | none => 0
  | some text => atoi ((text.takeWhile (· ≠ '\n')).take 254)

def advance (playList : Lplaylist) (npfile : Option Str) : Nat :=
  let idx := readIdx npfile
  if idx ≠ 0 ∧ idx + 1 < playList.length then (idx + 1).toNat else 0

/-- The settings of a channel, and the files that are there. -/
structure Site where
  aacStreamtype : Bool
  playlistPath : Str
  jinglePath : Str
  fileExists : Str → Bool
  directory : Option (List Str)

def Site.newParameters (site : Site) (playfile : Option Str) : Tparameters :=
  (Playfile.new site.aacStreamtype site.playlistPath site.jinglePath site.fileExists playfile site.directory).parameters

def Site.begin (site : Site) (playfile npfile : Option Str) : Lplaylist × Nat :=
  let p := site.newParameters playfile
  (p.playlist, if p.playfileExists = true then advance p.playlist npfile else 0)

/-- The process before `TPlaylist` takes its list, before `start`, and from then on. -/
inductive Process
  | reading
  | loaded (playList : Lplaylist)
  | playing (s : State)

/-- The parameters, the files on the disk, and the process. `index` is what stands in the file of the index before
`start`, and `stored` the list that the playfile is read as or that was written to it last. -/
structure Channel where
  parameters : Tparameters
  playfile : Option Str
  index : Option Nat
  stored : Lplaylist
  process : Process

def Channel.npfile (w : Channel) : Option Str :=
  match w.process with
  | .playing s => s.npfile.map idxText
  | _ => w.index.map idxText

def restart (site : Site) (w : Channel) : Lplaylist × Nat := site.begin w.playfile w.npfile

/-- The positions, in the playlist as it was loaded, of the tracks that are left. The attempts come with the latest
first. -/
def left (n : Nat) : List Attempt → List Nat
  | [] => List.range n
  | a :: l => if a.outcome = .removed then (left n l).eraseIdx a.index else left n l

section Index

end Index

section Left

variable {n : Nat} {l : List Attempt} {loaded : Lplaylist} {loadedRate : Int} {a : Attempt}

end Left

section Saved

def Saved (s : State) : Prop := ∀ a ∈ s.attempts.head?, s.npfile = a.saved

structure Same (s t : State) : Prop where
  npfile : t.npfile = s.npfile
  saved : t.attempts.head?.map Attempt.saved = s.attempts.head?.map Attempt.saved

theorem Same.refl (s : State) : Same s s := ⟨rfl, rfl⟩

theorem Same.trans {s t u : State} (h : Same s t) (h' : Same t u) : Same s u :=
  ⟨h'.npfile.trans h.npfile, h'.saved.trans h.saved⟩

end Saved

section Channel

variable {site : Site} {w : Channel} {playfile : Option Str}

/-- The playfile is the one the process found, or holds the list stored last. -/
def Backed (site : Site) (playfile : Option Str) (w : Channel) : Prop :=
  w.playfile = playfile ∧ w.stored = (site.newParameters playfile).playlist ∨
    w.playfile = some (Playfile.playfileText w.stored) ∧ w.stored ≠ [] ∧
      ∀ f ∈ w.stored, Playfile.strstr f (Playfile.dotExt site.aacStreamtype) = true ∧ site.fileExists f = true

def Going (w : Channel) : Prop := ∀ s, w.process = .playing s → Playlist.Inv s ∧ Saved s

structure Inv (site : Site) (playfile : Option Str) (w : Channel) : Prop where
  type : w.parameters.aacStreamtype = site.aacStreamtype
  backed : Backed site playfile w
  going : Going w

end Channel

def demoTracks : Lplaylist := ["/m/1.aac".toList, "/m/2.aac".toList, "/m/3.aac".toList]

end RadioServices.Station.Resume

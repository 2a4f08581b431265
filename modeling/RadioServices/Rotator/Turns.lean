import RadioServices.Rotator.Order
import RadioServices.Rotator.Termination

namespace RadioServices.Rotator.Turns

open Lib Lib.C Lib.RoundRobin TRotatorCtrl Machine Termination FolderOrder

/-- The visit finds the folder used up, and its index is not below the record count of
the longest one either: the loop calls `prepare` after it and starts again from the
first folder. With gaps between the keys a shorter folder does so, too. -/
def exhausts (c : TRotatorCtrl) (folder : Str) : Bool :=
  match c.hfolders.find? folder with
  | some hf => decide (arraySize hf.ht ≤ hf.index ∧ c.maxHtSize ≤ hf.index)
  | none => false

def begun (m m' : Machine) : List (Str × Bool) :=
  match m.control, m'.control with
  | .outer _, .inner _ folder _ => [(folder, exhausts m.ctrl folder)]
  | _, _ => []

def turn (c : TRotatorCtrl) (vs : List (Str × Bool)) : Nat :=
  sinceRestart (vs.map Prod.snd) % c.foldersOrder.size

section Step

variable {env : Env} {c d : TRotatorCtrl} {m : Machine} {vs : List (Str × Bool)}

end Step

section Demo

def demoArray : HashTable :=
  [(.str DEFAULT_FOLDERS, .array [
    folderNode "A" [trackRecord "x" "one" none, trackRecord "x" "two" none],
    folderNode "B" [trackRecord "y" "three" none]])]

def demo : TRotatorCtrl := (new (Env.at 0) demoArray (.maxTracks 6)).get rfl

theorem demo_new : new (Env.at 0) demoArray (.maxTracks 6) = some demo :=
  (@Option.some_get _ (new (Env.at 0) demoArray (.maxTracks 6)) rfl).symm

end Demo

end RadioServices.Rotator.Turns

import RadioServices.Lib.CString

namespace RadioServices.Rotator

open Lib.C

inductive ZendKey
  | long (h : Int)
  | str (s : Str)
  deriving DecidableEq

/-- The values the rotator tells apart. Every other type is `other`. -/
inductive Zval
  | array (ht : List (ZendKey × Zval))
  | string (s : Str)
  | long (n : Int)
  | isTrue
  | other

abbrev HashTable := List (ZendKey × Zval)

/-- The engine builds no larger array. -/
def HT_MAX_SIZE : Nat := 0x80000000

def arraySize (ht : HashTable) : Nat := ht.length

def zendHashFind (ht : HashTable) (k : ZendKey) : Option Zval :=
  (ht.find? (fun e => e.1 = k)).map Prod.snd

def zendHashIndexFind (ht : HashTable) (i : Int) : Option Zval := zendHashFind ht (.long i)

theorem mem_of_zendHashIndexFind {ht : HashTable} {i : Int} {v : Zval}
    (h : zendHashIndexFind ht i = some v) : ∃ k, (k, v) ∈ ht := by
  obtain ⟨e, he, rfl⟩ := Option.map_eq_some_iff.mp h
  exact ⟨e.1, List.mem_of_find?_eq_some he⟩

def zendHashIndexExists (ht : HashTable) (i : Int) : Bool := (zendHashIndexFind ht i).isSome

def findDataInNode (ht : HashTable) (name : Str) : Option Zval := zendHashFind ht (.str name)

def getNodePtr (ht : HashTable) (name : Str) : Option HashTable :=
  match findDataInNode ht name with
  | some (.array node) => some node
  | _ => none

/-- The walk of `searchNextHashIndex` over the remaining `fuel` indexes. -/
def nextHashIndex (ht : HashTable) : Nat → Nat → Nat
  | 0, i => i
  | fuel + 1, i => if zendHashIndexExists ht i then i else nextHashIndex ht fuel (i + 1)

/-- The first index from `index` on that has a record and is below the number
of records, or that number. An index beyond it is returned as it is. -/
def searchNextHashIndex (ht : HashTable) (index : Nat) : Nat :=
  nextHashIndex ht (arraySize ht - index) index

theorem nextHashIndex_le_of_exists {ht : HashTable} {i j : Nat} (hi : zendHashIndexExists ht i = true)
    (fuel : Nat) (hj : j ≤ i) (hfuel : i < j + fuel) : nextHashIndex ht fuel j ≤ i := by
  induction fuel generalizing j with
  | zero => omega
  | succ fuel ih =>
      simp only [nextHashIndex]
      split
      · exact hj
      · rename_i hno
        have hne : j ≠ i := fun h => hno (h ▸ hi)
        exact ih (by omega) (by omega)

theorem searchNextHashIndex_le_of_exists {ht : HashTable} {i j : Nat}
    (hi : zendHashIndexExists ht i = true) (hlt : i < arraySize ht) (hj : j ≤ i) :
    searchNextHashIndex ht j ≤ i :=
  nextHashIndex_le_of_exists hi _ hj (by omega)

theorem le_nextHashIndex (ht : HashTable) (fuel i : Nat) : i ≤ nextHashIndex ht fuel i := by
  induction fuel generalizing i with
  | zero => exact le_rfl
  | succ fuel ih =>
      simp only [nextHashIndex]
      split
      · exact le_rfl
      · exact Nat.le_trans (Nat.le_succ i) (ih (i + 1))

theorem le_searchNextHashIndex (ht : HashTable) (i : Nat) : i ≤ searchNextHashIndex ht i :=
  le_nextHashIndex ht _ i

end RadioServices.Rotator

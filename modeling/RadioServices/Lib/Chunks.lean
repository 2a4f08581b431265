import Mathlib.Data.List.Basic

namespace RadioServices.Lib.Chunks

universe u

variable {α : Type u}

/-- The elements a reader of `r` at a time takes in its call number `i`. -/
def chunk (r i : Nat) (l : List α) : List α := (l.drop (i * r)).take r

def calls (r n : Nat) : Nat := (n + r - 1) / r

end RadioServices.Lib.Chunks

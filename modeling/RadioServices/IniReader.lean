import RadioServices.Lib.CString
import RadioServices.Lib.SortedMap
import Mathlib.Data.List.Infix
import Mathlib.Data.List.Lex
import Mathlib.Data.String.Basic

namespace RadioServices.IniReader

open Lib Lib.C

def tolower (s : Str) : Str := s.map Char.toLower

structure Triple where
  sectionName : Str
  name : Str
  value : Str
  section_nul : '\x00' ∉ sectionName
  name_nul : '\x00' ∉ name
  name_eq : '=' ∉ name

def makeKey (sectionName name : Str) : Str := tolower (sectionName ++ '=' :: name)

/-- The lines of a value that comes in several are put together. -/
def appendValue (old value : Str) : Str := (if 0 < old.length then old ++ ['\n'] else old) ++ value

def valueHandler (values : SortedMap Str Str) (t : Triple) : SortedMap Str Str :=
  let key := makeKey t.sectionName t.name
  values.insert key (appendValue ((values.find? key).getD []) t.value)

def iniParse (triples : List Triple) : SortedMap Str Str := triples.foldl valueHandler .empty

/-- `find`, where `none` is `npos`. -/
def find (s pattern : Str) : Option Nat := (List.range (s.length + 1)).find? fun i => decide (pattern <+: s.drop i)

def sectionExists (values : SortedMap Str Str) (sectionName : Str) : Bool :=
  values.keys.any fun s => decide (find s (tolower sectionName) = some 0)

def strstr (s pattern : Str) : Bool := decide (cstr pattern <:+: cstr s)

/-- What follows the first equality sign of a key, which has one. -/
def afterSign (key : Str) : Str := (strchr key '=').elim [] List.tail

def getSection (values : SortedMap Str Str) (sectionName : Str) : SortedMap Str Str :=
  let key := makeKey sectionName []
  values.entries.foldl (fun v it => if strstr it.1 key = true then v.insert (afterSign it.1) it.2 else v) .empty

section Keys

theorem toLower_eq_iff {c d : Char} (hd : d.toNat < 65) : c.toLower = d ↔ c = d := by
  delta Char.toLower
  split
  · rename_i hupper
    have hA : 65 ≤ c.toNat := hupper.1
    have hZ : c.toNat ≤ 90 := hupper.2
    refine iff_of_false (fun h => ?_) fun h => ?_
    · have hsum : (c.val + ('a'.val - 'A'.val)).toNat = d.toNat := congrArg Char.toNat h
      have hcase : ('a'.val - 'A'.val).toNat = 32 := rfl
      have hval : c.val.toNat = c.toNat := rfl
      rw [UInt32.toNat_add, hcase, hval] at hsum
      omega
    · rw [h] at hA
      omega
  · exact Iff.rfl

theorem mem_tolower {c : Char} (hc : c.toNat < 65) (s : Str) : c ∈ tolower s ↔ c ∈ s := by
  rw [tolower, List.mem_map]
  constructor
  · rintro ⟨d, hd, heq⟩
    rwa [← (toLower_eq_iff hc).mp heq]
  · intro h
    exact ⟨c, h, (toLower_eq_iff hc).mpr rfl⟩

theorem makeKey_eq (sectionName name : Str) : makeKey sectionName name = tolower sectionName ++ '=' :: tolower name := by
  rw [makeKey, tolower, List.map_append, List.map_cons]
  rfl

def key (t : Triple) : Str := makeKey t.sectionName t.name

theorem nul_not_mem_key (t : Triple) : '\x00' ∉ key t := by
  rw [key, makeKey, mem_tolower (by decide), List.mem_append, List.mem_cons]
  rintro (h | h | h)
  · exact t.section_nul h
  · exact absurd h (by decide)
  · exact t.name_nul h

theorem eq_not_mem_name (t : Triple) : '=' ∉ tolower t.name := by
  rw [mem_tolower (by decide)]
  exact t.name_eq

theorem append_eq_iff {a b n n' : Str} (hn : '=' ∉ n) (hn' : '=' ∉ n') : a ++ '=' :: n = b ++ '=' :: n' ↔ a = b ∧ n = n' := by
  constructor
  · intro h
    have hrev := congrArg List.reverse h
    simp only [List.reverse_append, List.reverse_cons, List.append_assoc, List.singleton_append] at hrev
    have hcut := congrArg (List.takeWhile (· ≠ '=')) hrev
    rw [Cut.takeWhile_ne_append (by simpa using hn), Cut.takeWhile_ne_append (by simpa using hn'),
      List.reverse_inj] at hcut
    rw [hcut] at h
    exact ⟨List.append_cancel_right h, hcut⟩
  · rintro ⟨rfl, rfl⟩
    rfl

theorem afterSign_append {a : Str} (h : '=' ∉ a) (b : Str) : afterSign (a ++ '=' :: b) = b := by
  rw [afterSign, strchr_append h]
  rfl

/-- What follows the first sign is a name if and only if the section has none. -/
theorem eq_mem_afterSign (t : Triple) : '=' ∈ afterSign (key t) ↔ '=' ∈ t.sectionName := by
  have hlower := @mem_tolower '=' (by decide) t.sectionName
  rw [key, makeKey_eq, ← hlower]
  by_cases h : '=' ∈ tolower t.sectionName
  · obtain ⟨a, b, hsection, ha⟩ := List.eq_append_cons_of_mem h
    rw [hsection, List.append_assoc, List.cons_append, afterSign_append ha]
    exact iff_of_true (List.mem_append_right _ List.mem_cons_self) (List.mem_append_right _ List.mem_cons_self)
  · rw [afterSign_append h]
    exact iff_of_false (eq_not_mem_name t) h

theorem afterSign_key {t : Triple} (h : '=' ∉ t.sectionName) : afterSign (key t) = tolower t.name := by
  rw [key, makeKey_eq, afterSign_append (by rwa [mem_tolower (by decide)])]

end Keys

section Values

def joined (own : List Triple) : Str := (own.map Triple.value).foldl appendValue []

def readValue (own : List Triple) : Option Str := if own = [] then none else some (joined own)

theorem readValue_concat (own : List Triple) (t : Triple) :
    readValue (own ++ [t]) = some (appendValue ((readValue own).getD []) t.value) := by
  have hne : own ++ [t] ≠ [] := by simp
  rw [readValue, if_neg hne, joined, List.map_append, List.foldl_append, readValue]
  by_cases hown : own = []
  · rw [if_pos hown, hown]
    rfl
  · rw [if_neg hown]
    rfl

theorem find?_iniParse (triples : List Triple) (k : Str) :
    (iniParse triples).find? k = readValue (triples.filter fun t => decide (key t = k)) := by
  induction triples using List.reverseRecOn with
  | nil => rfl
  | append_singleton triples t ih =>
      have hparse : iniParse (triples ++ [t]) = valueHandler (iniParse triples) t := by
        rw [iniParse, List.foldl_append]
        rfl
      have hhandler : valueHandler (iniParse triples) t = (iniParse triples).insert (key t)
          (appendValue (((iniParse triples).find? (key t)).getD []) t.value) := rfl
      rw [hparse, hhandler, SortedMap.find?_insert, List.filter_append]
      by_cases hk : k = key t
      · have hone : [t].filter (fun t => decide (key t = k)) = [t] := by
          rw [List.filter_singleton, decide_eq_true hk.symm, cond_true]
        rw [if_pos hk, hone, readValue_concat, ← hk, ih]
      · have hnone : [t].filter (fun t => decide (key t = k)) = [] := by
          rw [List.filter_singleton, decide_eq_false (Ne.symm hk), cond_false]
        rw [if_neg hk, hnone, List.append_nil, ih]

theorem mem_keys_iniParse {triples : List Triple} {k : Str} :
    k ∈ (iniParse triples).keys ↔ ∃ t ∈ triples, key t = k := by
  rw [SortedMap.mem_keys_iff, find?_iniParse, readValue]
  constructor
  · rintro ⟨v, hv⟩
    split at hv
    · cases hv
    · rename_i hne
      obtain ⟨t, ht⟩ := List.exists_mem_of_ne_nil _ hne
      obtain ⟨hmem, hkey⟩ := List.mem_filter.mp ht
      exact ⟨t, hmem, of_decide_eq_true hkey⟩
  · rintro ⟨t, ht, rfl⟩
    have hne : triples.filter (fun u => decide (key u = key t)) ≠ [] :=
      List.ne_nil_of_mem (List.mem_filter.mpr ⟨ht, decide_eq_true rfl⟩)
    exact ⟨_, if_neg hne⟩

end Values

end RadioServices.IniReader

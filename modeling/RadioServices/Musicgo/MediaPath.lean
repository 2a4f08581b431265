import RadioServices.Lib.Decimal
import RadioServices.Musicgo.Request

namespace RadioServices.Musicgo.MediaPath

open Lib Lib.C Lib.Paths Request
open Accordion (find getSubPath)

section Ends

variable {delim mem : Str} {p : Nat}

theorem strtok_some {t : Token} (h : strtok delim mem p = some t) :
    t.mem.length = mem.length ∧ p < mem.length ∧ p < t.next ∧ t.next ≤ mem.length ∧
      t.pch + t.text.length ≤ mem.length := by
  rw [strtok] at h
  generalize ((mem.drop p).takeWhile fun c => decide (c ∈ delim)).length = skipped at h
  have htext := List.IsPrefix.length_le <|
    List.takeWhile_prefix (fun c => decide (c ≠ '\x00' ∧ c ∉ delim)) (l := mem.drop (p + skipped))
  rw [List.length_drop] at htext
  generalize (mem.drop (p + skipped)).takeWhile (fun c => decide (c ≠ '\x00' ∧ c ∉ delim)) = text at h htext
  split at h
  · cases h
  rename_i hne
  have hpos := List.length_pos_iff.mpr hne
  split at h
  · obtain rfl := Option.some.inj h
    dsimp only
    omega
  · rename_i hchar
    obtain rfl := Option.some.inj h
    have hstop : p + skipped + text.length < mem.length := by
      by_contra hend
      refine hchar ?_
      rw [List.getD_eq_getElem?_getD, List.getElem?_eq_none (Nat.le_of_not_lt hend)]
      rfl
    dsimp only
    rw [List.length_set]
    omega

theorem getFileData_ends {fuel v : Nat} {r : Request} (hfuel : mem.length < v + fuel) (hpos : 0 < fuel) :
    ∃ r' mem', getFileData fuel mem v r = some (r', mem') ∧ mem'.length = mem.length := by
  induction fuel generalizing mem v r with
  | zero => exact absurd hpos (Nat.lt_irrefl 0)
  | succ fuel ih =>
      rw [getFileData]
      cases htoken : strtok " ?&".toList mem v with
      | none => exact ⟨r, mem, rfl, rfl⟩
      | some t =>
          obtain ⟨hlength, -, hlt, hnext, -⟩ := strtok_some htoken
          obtain ⟨r', mem', hrest, hsame⟩ := @ih t.mem t.next
            (r.readToken t.text (t.mem.drop (t.pch + t.text.length + 1))) (by omega) (by omega)
          exact ⟨r', mem', hrest, hsame.trans hlength⟩

theorem readLine_ends (r : Request) (t : Token) :
    ∃ r' mem', r.readLine t = some (r', mem') ∧ mem'.length = t.mem.length := by
  rw [readLine]
  split
  · exact getFileData_ends (by omega) (Nat.succ_pos _)
  · split
    · exact getFileData_ends (by omega) (Nat.succ_pos _)
    · exact ⟨r, t.mem, rfl, rfl⟩

theorem readLines_ends {fuel pshift : Nat} {r : Request} (hfuel : mem.length < pshift + fuel) (hpos : 0 < fuel) :
    ∃ r', readLines fuel mem pshift r = some r' := by
  induction fuel generalizing mem pshift r with
  | zero => exact absurd hpos (Nat.lt_irrefl 0)
  | succ fuel ih =>
      rw [readLines]
      cases htoken : strtok "\r\n".toList mem pshift with
      | none => exact ⟨r, rfl⟩
      | some t =>
          obtain ⟨hlength, hlt, -⟩ := strtok_some htoken
          obtain ⟨r', mem', hline, hsame⟩ := readLine_ends r t
          obtain ⟨r'', hrest⟩ := @ih mem' (pshift + t.text.length + 2) r' (by omega) (by omega)
          refine ⟨r'', ?_⟩
          simp only [hline, Option.bind_eq_bind, Option.bind_some, hrest]

theorem parse_ends (r : Request) (recvStr behind : Str) : ∃ r', r.parse recvStr behind = some r' :=
  readLines_ends (by omega) (Nat.succ_pos _)

end Ends

section Path

variable {aliases : SortedMap Str Str} {r : Request}

def up : Str := "..".toList

/-- A path is empty or leads from a configured directory on, without going up. -/
def Permitted (aliases : SortedMap Str Str) (path : Str) : Prop :=
  path = [] ∨ ∃ aliasName root, aliases.find? aliasName = some root ∧ Below '/' up root path

/-- A track of its own and a file for its date are requested as a whole, and one of them is. -/
def Complete (r : Request) : Prop :=
  (r.parameters.mData.isAac = true ∨ r.isMp3 = true) ∧
    (r.parameters.mData.isAac = true → r.id ≠ 0 ∧ r.module ≠ none) ∧
    (r.isMp3 = true → r.date ≠ none ∧ r.hash ≠ none)

instance (r : Request) : Decidable (Complete r) := inferInstanceAs (Decidable (_ ∧ _ ∧ _))

/-- What the request names, behind the directory of its alias and in front of the name or the extension
the code gives to the file. -/
def named (r : Request) : Str :=
  if r.parameters.mData.isAac = true then r.module.getD [] ++ '/' :: getSubPath r.id ++ ['/']
  else r.date.getD [] ++ '/' :: r.hash.getD []

/-- A complete request names something that leads from a configured directory on. -/
def Confined (aliases : SortedMap Str Str) (r : Request) : Prop :=
  Complete r → ∃ aliasName root, aliases.find? aliasName = some root ∧
    LeadsBelow '/' up root (aliasPath aliases r ++ named r)

def fileName (r : Request) : Str :=
  if r.parameters.mData.isAac = true then (toString r.id).toList ++ ".aac".toList else ".mp3".toList

theorem filePath_of_complete (h : Complete r) :
    (filePath aliases r).1 = aliasPath aliases r ++ named r ++ fileName r := by
  obtain ⟨hsome, haac, hmp3⟩ := h
  have hnone : ¬ (r.parameters.mData.isAac = false ∧ r.isMp3 = false) := by
    rintro ⟨haac, hmp3⟩
    simp [haac, hmp3] at hsome
  have htrack : ¬ (r.parameters.mData.isAac = true ∧ (r.id = 0 ∨ r.module = none)) := by
    rintro ⟨htrue, hmissing⟩
    exact hmissing.elim (haac htrue).1 (haac htrue).2
  have hfile : ¬ (r.isMp3 = true ∧ (r.date = none ∨ r.hash = none)) := by
    rintro ⟨htrue, hmissing⟩
    exact hmissing.elim (hmp3 htrue).1 (hmp3 htrue).2
  rw [filePath, if_neg hnone, if_neg htrack, if_neg hfile, named, fileName]
  split
  · simp only [List.append_assoc, List.cons_append, List.nil_append]
  · simp only [List.append_assoc]

theorem filePath_of_not_complete (h : ¬ Complete r) : (filePath aliases r).1 = [] := by
  rw [filePath]
  split
  · rfl
  rename_i hnone
  split
  · rfl
  rename_i htrack
  split
  · rfl
  rename_i hfile
  refine absurd ⟨?_, fun haac => ?_, fun hmp3 => ?_⟩ h
  · by_contra hboth
    rw [not_or, Bool.not_eq_true, Bool.not_eq_true] at hboth
    exact hnone hboth
  · exact not_or.mp fun hmissing => htrack ⟨haac, hmissing⟩
  · exact not_or.mp fun hmissing => hfile ⟨hmp3, hmissing⟩

theorem filePath_ne_nil (h : Complete r) : (filePath aliases r).1 ≠ [] := by
  rw [filePath_of_complete h]
  refine List.append_ne_nil_of_right_ne_nil _ ?_
  rw [fileName]
  split
  · exact List.append_ne_nil_of_right_ne_nil _ (by decide)
  · decide

theorem slash_not_mem_fileName (r : Request) : '/' ∉ fileName r := by
  rw [fileName]
  split
  · rw [List.mem_append, not_or]
    exact ⟨Decimal.not_mem_toString (by decide) (by decide) r.id, by decide⟩
  · decide

theorem append_fileName_ne_up (r : Request) (last : Str) : last ++ fileName r ≠ up := by
  intro h
  have hdots : ∀ c ∈ fileName r, c = '.' := by
    intro c hc
    have hmem : c ∈ up := h ▸ List.mem_append_right _ hc
    simpa [up] using hmem
  rw [fileName] at hdots
  split at hdots
  · exact absurd (hdots 'a' (List.mem_append_right _ (by decide))) (by decide)
  · exact absurd (hdots 'm' (by decide)) (by decide)

theorem permitted_filePath : Permitted aliases (filePath aliases r).1 ↔ Confined aliases r := by
  by_cases h : Complete r
  · have hne := @filePath_ne_nil aliases r h
    rw [filePath_of_complete h] at hne ⊢
    rw [Permitted, Confined]
    constructor
    · rintro (hnil | ⟨aliasName, root, hroot, hbelow⟩)
      · exact absurd hnil hne
      · exact fun _ => ⟨aliasName, root, hroot,
          (below_append (slash_not_mem_fileName r) (append_fileName_ne_up r)).mp hbelow⟩
    · intro hconfined
      obtain ⟨aliasName, root, hroot, hleads⟩ := hconfined h
      exact .inr ⟨aliasName, root, hroot,
        (below_append (slash_not_mem_fileName r) (append_fileName_ne_up r)).mpr hleads⟩
  · rw [filePath_of_not_complete h]
    exact iff_of_true (.inl rfl) fun hcomplete => absurd hcomplete h

/-- Whether a request leads to a file below the configured directories. -/
theorem sparse_permitted (aliases : SortedMap Str Str) (startPosition duration : Int) (recvStr behind : Str) :
    ∃ r path r', (new startPosition duration).parse recvStr behind = some r ∧
      sparse aliases startPosition duration recvStr behind = some (path, r') ∧
        (Permitted aliases path ↔ Confined aliases r) := by
  obtain ⟨r, hparse⟩ := parse_ends (new startPosition duration) recvStr behind
  refine ⟨r, (filePath aliases r).1, (filePath aliases r).2, hparse, ?_, permitted_filePath⟩
  rw [sparse, hparse]
  rfl

/-- Every configured directory has a delimiter at its end and does not go up itself. -/
def Plain (aliases : SortedMap Str Str) : Prop :=
  ∀ aliasName root, aliases.find? aliasName = some root → ∃ d, root = d ++ ['/'] ∧ up ∉ d.splitOn '/'

/-- With a configured alias it is the module, the date and the hash alone that must not go up. -/
theorem confined_of_alias (hplain : Plain aliases) {root : Str}
    (hroot : aliases.find? (r.aliasName.getD DEFAULT_ALIAS) = some root) :
    Confined aliases r ↔ (Complete r → up ∉ ((named r).splitOn '/').dropLast) := by
  obtain ⟨d, rfl, hup⟩ := hplain _ _ hroot
  have hpath : aliasPath aliases r = d ++ ['/'] := by
    rw [aliasPath, hroot]
    rfl
  rw [Confined, hpath]
  refine forall_congr' fun _ => ⟨?_, fun h => ?_⟩
  · rintro ⟨aliasName, root, hfound, hleads⟩
    obtain ⟨d', rfl, hup'⟩ := hplain _ _ hfound
    have hall := hleads.not_mem hup'
    rw [dropLast_splitOn_append, List.mem_append, not_or] at hall
    exact hall.2
  · exact ⟨_, _, hroot, leadsBelow_iff.mpr ⟨named r, rfl, h⟩⟩

/-- With an unknown alias it must itself begin with a configured directory. -/
theorem confined_of_unknown (hplain : Plain aliases) (hnone : aliases.find? (r.aliasName.getD DEFAULT_ALIAS) = none) :
    Confined aliases r ↔ (Complete r → up ∉ ((named r).splitOn '/').dropLast ∧
      ∃ aliasName root, aliases.find? aliasName = some root ∧ root <+: named r) := by
  have hpath : aliasPath aliases r = [] := by
    rw [aliasPath, hnone]
    rfl
  rw [Confined, hpath, List.nil_append]
  refine forall_congr' fun _ => ⟨?_, ?_⟩
  · rintro ⟨aliasName, root, hfound, hleads⟩
    obtain ⟨d, rfl, hup⟩ := hplain _ _ hfound
    obtain ⟨rest, hrest, -⟩ := leadsBelow_iff.mp hleads
    exact ⟨hleads.not_mem hup, aliasName, _, hfound, rest, hrest.symm⟩
  · rintro ⟨hall, aliasName, root, hfound, rest, hrest⟩
    obtain ⟨d, rfl, -⟩ := hplain _ _ hfound
    rw [← hrest, dropLast_splitOn_append, List.mem_append, not_or] at hall
    exact ⟨aliasName, _, hfound, leadsBelow_iff.mpr ⟨rest, hrest.symm, hall.2⟩⟩

end Path

section Demo

def demoAliases : SortedMap Str Str := SortedMap.empty.insert DEFAULT_ALIAS "/media/".toList

/-- A module that goes up twice. -/
theorem sparse_goes_up : ¬ ∀ (aliases : SortedMap Str Str) (startPosition duration : Int) (recvStr behind path : Str)
    (r : Request), sparse aliases startPosition duration recvStr behind = some (path, r) → Permitted aliases path := by
  intro hevery
  have hpath : (sparse demoAliases 10 40 "GET /?id=1&module=../../etc HTTP/1.1\r\n\r\n".toList []).map Prod.fst =
      some "/media/../../etc/0/1.aac".toList := by decide +kernel
  obtain ⟨⟨path, r⟩, hsparse, hpath⟩ := Option.map_eq_some_iff.mp hpath
  obtain rfl : path = "/media/../../etc/0/1.aac".toList := hpath
  obtain hnil | ⟨aliasName, root, hfound, rest, hrest, hup⟩ := hevery _ _ _ _ _ _ _ hsparse
  · exact absurd hnil (by decide)
  · rcases SortedMap.find?_insert_cases hfound with ⟨-, rfl⟩ | ⟨-, hnone⟩
    · have hdir : asDir '/' "/media/".toList = "/media/".toList := by decide
      rw [hdir] at hrest
      obtain rfl : "../../etc/0/1.aac".toList = rest := @List.append_cancel_left _ "/media/".toList _ _ hrest
      exact hup (by decide)
    · cases hnone

end Demo

end RadioServices.Musicgo.MediaPath

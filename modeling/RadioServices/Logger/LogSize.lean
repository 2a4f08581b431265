import RadioServices.Lib.Scan
import RadioServices.Accordion.Parameters

namespace RadioServices.Logger.LogSize

open Lib Lib.C Lib.Scan
open Accordion (find prefix_of_find find_eq_none)

def COMMENT_INFO : Str := "#ERROR ".toList

def sz : Nat := 3 * 512

/-- What `strstr` does at a position of the memory. -/
def strstrVerdict (pat rest : Str) : Verdict :=
  if pat.isPrefixOf rest = true then .accept
  else if rest.head? = some '\x00' then .stop
  else .pass

/-- How many characters are compared, the first one that differs included. -/
def compared : Str → Str → Nat
  | [], _ => 0
  | _ :: _, [] => 1
  | a :: pat, c :: rest => if a = c then compared pat rest + 1 else 1

/-- The file afterwards and the places in the buffer that were read. -/
structure Checked where
  file : Str
  reads : List Nat

def tail (old : Str) : Str := old.drop (old.length - sz)

/-- The buffer with the memory behind it, at the end of which a NUL is. -/
def buffer (old behind : Str) : Str := tail old ++ behind ++ ['\x00']

/-- The part for a log that is too large. `fseek` fails on one that is shorter than the buffer, and
`fwrite` takes as many bytes as were read, wherever it begins. -/
def cutLog (header old behind : Str) : Checked :=
  if old.length < sz then ⟨header, []⟩
  else
    let b := buffer old behind
    let looked := scanReads (strstrVerdict COMMENT_INFO) (fun rest => List.range (compared COMMENT_INFO rest)) 0 b
    match scan (strstrVerdict COMMENT_INFO) 0 b with
    | none => ⟨header, looked⟩
    | some e => ⟨header ++ (b.drop e).take sz, looked ++ List.range' e sz⟩

/-- `check_log_size` of accordion. -/
def checkLogSize (header old behind : Str) (fsize : Int) : Checked :=
  if fsize = 0 then ⟨old, []⟩
  else if fsize ≤ old.length then cutLog header old behind
  else ⟨old, []⟩

/-- `check_log_size` of logger, where the header is a C string. -/
def checkLogSizeC (header old behind : Str) (fsize : Int) : Checked :=
  checkLogSize (cstr header) old behind fsize

def fromMarker (old : Str) : Str := if old.length < sz then [] else (find COMMENT_INFO (tail old)).getD []

/-- The header and the tail from its marker on are left, and nothing is read behind the buffer. -/
structure TailKept (header old : Str) (c : Checked) : Prop where
  file : c.file = header ++ fromMarker old
  inside : ∀ i ∈ c.reads, i < sz

/-- The tail begins with a marker, or it has none and a NUL instead. -/
def Markable (old : Str) : Prop :=
  old.length < sz ∨ COMMENT_INFO <+: tail old ∨ '\x00' ∈ tail old ∧ ¬ COMMENT_INFO <:+: tail old

instance (old : Str) : Decidable (Markable old) :=
  inferInstanceAs (Decidable (_ ∨ _ ∨ _ ∧ ¬ _))

section Compared

theorem compared_le (pat rest : Str) : compared pat rest ≤ pat.length := by
  induction pat generalizing rest with
  | nil => exact Nat.le_refl _
  | cons a pat ih =>
      cases rest with
      | nil => exact Nat.succ_le_succ (Nat.zero_le _)
      | cons c rest =>
          rw [compared, List.length_cons]
          split
          · exact Nat.succ_le_succ (ih rest)
          · exact Nat.succ_le_succ (Nat.zero_le _)

theorem compared_append {pat : Str} {c : Char} (h : c ∉ pat) (a b : Str) :
    compared pat (a ++ c :: b) ≤ a.length + 1 := by
  induction pat generalizing a with
  | nil => exact Nat.zero_le _
  | cons d pat ih =>
      cases a with
      | nil =>
          rw [List.nil_append, compared, if_neg fun heq : d = c => h (heq ▸ List.mem_cons_self)]
          exact Nat.le_refl _
      | cons x a =>
          rw [List.cons_append, compared, List.length_cons]
          split
          · exact Nat.succ_le_succ (ih (fun hmem => h (List.mem_cons_of_mem _ hmem)) a)
          · exact Nat.succ_le_succ (Nat.zero_le _)

theorem compared_pos {rest : Str} : 0 < compared COMMENT_INFO rest := by
  have hmarker : COMMENT_INFO = '#' :: "ERROR ".toList := rfl
  rw [hmarker]
  cases rest with
  | nil => exact Nat.one_pos
  | cons c rest =>
      rw [compared]
      split
      · exact Nat.succ_pos _
      · exact Nat.one_pos

end Compared

section Search

variable {old behind : Str} {k : Nat}

theorem length_tail (h : ¬ old.length < sz) : (tail old).length = sz := by
  rw [tail, List.length_drop]
  omega

theorem strstrVerdict_accept {rest : Str} :
    strstrVerdict COMMENT_INFO rest = .accept ↔ COMMENT_INFO <+: rest := by
  rw [strstrVerdict, ← List.isPrefixOf_iff_prefix]
  split
  · rename_i h
    exact iff_of_true rfl h
  · rename_i h
    refine iff_of_false ?_ h
    split <;> exact Verdict.noConfusion

theorem strstrVerdict_stop {rest : Str} :
    strstrVerdict COMMENT_INFO rest = .stop ↔ ∃ t, rest = '\x00' :: t := by
  rw [strstrVerdict]
  constructor
  · intro h
    split at h
    · cases h
    · split at h
      · rename_i hhead
        exact List.head?_eq_some_iff.mp hhead
      · cases h
  · rintro ⟨t, rfl⟩
    rfl

theorem buffer_take (h : ¬ old.length < sz) : (buffer old behind).take sz = tail old := by
  rw [buffer, List.append_assoc]
  exact List.take_left' (length_tail h)

theorem buffer_drop (hk : k ≤ (tail old).length) :
    (buffer old behind).drop k = (tail old).drop k ++ (behind ++ ['\x00']) := by
  rw [buffer, List.append_assoc, List.drop_append_of_le_length hk]

/-- The search does not pass the end of the memory. -/
theorem exists_end (old behind : Str) : ∃ k < (buffer old behind).length,
    strstrVerdict COMMENT_INFO ((buffer old behind).drop k) ≠ .pass ∧
      Passed (strstrVerdict COMMENT_INFO) (buffer old behind) k := by
  have hlast : (buffer old behind).drop (tail old ++ behind).length = ['\x00'] := by
    rw [buffer, List.drop_left]
  obtain ⟨k, hk, hne, hpassed⟩ := @exists_first _ (strstrVerdict COMMENT_INFO) (buffer old behind)
    (tail old ++ behind).length (by rw [hlast]; decide)
  refine ⟨k, ?_, hne, hpassed⟩
  rw [buffer, List.length_append, List.length_singleton]
  exact Nat.lt_succ_of_le hk

theorem search_of_no_marker (h : ¬ old.length < sz) (hmem : '\x00' ∈ tail old)
    (hnone : ¬ COMMENT_INFO <:+: tail old) :
    scan (strstrVerdict COMMENT_INFO) 0 (buffer old behind) = none ∧
      ∀ i ∈ scanReads (strstrVerdict COMMENT_INFO) (fun rest => List.range (compared COMMENT_INFO rest)) 0
        (buffer old behind), i < sz := by
  obtain ⟨x, y, htail, -⟩ := List.eq_append_cons_of_mem hmem
  have hx : x.length < sz := by
    rw [← length_tail h, htail, List.length_append, List.length_cons]
    omega
  have hnul : '\x00' ∉ COMMENT_INFO := by decide
  have hdrop (k : Nat) (hk : k ≤ x.length) :
      (buffer old behind).drop k = x.drop k ++ '\x00' :: (y ++ behind ++ ['\x00']) := by
    rw [buffer, htail, List.append_assoc, List.append_assoc, List.drop_append_of_le_length hk, List.append_assoc]
    rfl
  have hnot (k : Nat) (hk : k ≤ x.length) : strstrVerdict COMMENT_INFO ((buffer old behind).drop k) ≠ .accept := by
    intro haccept
    rw [strstrVerdict_accept, hdrop k hk, ← List.isPrefixOf_iff_prefix, Accordion.isPrefixOf_append_cons hnul,
      List.isPrefixOf_iff_prefix] at haccept
    refine hnone ((haccept.isInfix.trans (List.drop_suffix k x).isInfix).trans ?_)
    rw [htail]
    exact (List.prefix_append _ _).isInfix
  have hend : strstrVerdict COMMENT_INFO ((buffer old behind).drop x.length) = .stop := by
    rw [strstrVerdict_stop, hdrop _ (Nat.le_refl _), List.drop_length]
    exact ⟨_, rfl⟩
  have hpass : strstrVerdict COMMENT_INFO ((buffer old behind).drop x.length) ≠ .pass := by
    rw [hend]
    exact Verdict.noConfusion
  constructor
  · rw [scan_eq_none_iff]
    intro i _ haccept
    exact ⟨x.length, Nat.lt_of_not_le fun hle => hnot i hle haccept, hend⟩
  · intro i hi
    obtain ⟨j, _, hpassed, o, ho, rfl⟩ := mem_scanReads_iff.mp hi
    have hj : j ≤ x.length := Nat.le_of_not_lt fun hlt => hpass (hpassed _ hlt)
    have hcompared := compared_append hnul (x.drop j) (y ++ behind ++ ['\x00'])
    rw [← hdrop j hj, List.length_drop] at hcompared
    have hlt := List.mem_range.mp ho
    omega

end Search

section Kept

variable {header old : Str} (behind : Str)

theorem sz_eq : sz = 1536 := rfl

theorem cutLog_of_none (h : ¬ old.length < sz)
    (hscan : scan (strstrVerdict COMMENT_INFO) 0 (buffer old behind) = none) :
    cutLog header old behind = ⟨header, scanReads (strstrVerdict COMMENT_INFO)
      (fun rest => List.range (compared COMMENT_INFO rest)) 0 (buffer old behind)⟩ := by
  rw [cutLog, if_neg h]
  dsimp only
  rw [hscan]

theorem cutLog_of_some (h : ¬ old.length < sz) {e : Nat}
    (hscan : scan (strstrVerdict COMMENT_INFO) 0 (buffer old behind) = some e) :
    cutLog header old behind = ⟨header ++ ((buffer old behind).drop e).take sz,
      scanReads (strstrVerdict COMMENT_INFO) (fun rest => List.range (compared COMMENT_INFO rest)) 0
        (buffer old behind) ++ List.range' e sz⟩ := by
  rw [cutLog, if_neg h]
  dsimp only
  rw [hscan]

theorem fromMarker_of_long (h : ¬ old.length < sz) : fromMarker old = (find COMMENT_INFO (tail old)).getD [] :=
  if_neg h

theorem tailKept_of_markable (h : Markable old) : TailKept header old (cutLog header old behind) := by
  by_cases hlen : old.length < sz
  · rw [cutLog, if_pos hlen]
    refine ⟨?_, fun i hi => absurd hi List.not_mem_nil⟩
    rw [fromMarker, if_pos hlen, List.append_nil]
  have hmarker : COMMENT_INFO ≠ [] := by decide
  rcases h.resolve_left hlen with hprefix | ⟨hmem, hnone⟩
  · -- the search ends where it begins, and the whole buffer is written
    have hne : tail old ≠ [] := List.ne_nil_of_length_pos (by rw [length_tail hlen, sz_eq]; omega)
    have haccept : strstrVerdict COMMENT_INFO ((buffer old behind).drop 0) = .accept := by
      rw [strstrVerdict_accept, buffer_drop (Nat.zero_le _), List.drop_zero]
      exact hprefix.trans (List.prefix_append _ _)
    have hlength : 0 < (buffer old behind).length := by
      rw [buffer, List.length_append]
      exact Nat.succ_pos _
    have hscan : scan (strstrVerdict COMMENT_INFO) 0 (buffer old behind) = some 0 :=
      scan_eq_some_iff.mpr ⟨0, hlength, rfl, haccept, passed_zero⟩
    have hfind : find COMMENT_INFO (tail old) = some (tail old) := by
      cases htail : tail old with
      | nil => exact absurd htail hne
      | cons c t =>
          rw [htail] at hprefix
          rw [find, if_pos (List.isPrefixOf_iff_prefix.mpr hprefix)]
    rw [cutLog_of_some behind hlen hscan]
    refine ⟨?_, fun i hi => ?_⟩
    · rw [fromMarker_of_long hlen, hfind, List.drop_zero, buffer_take hlen, Option.getD_some]
    · rcases List.mem_append.mp hi with hi | hi
      · obtain ⟨j, _, hpassed, o, ho, rfl⟩ := mem_scanReads_iff.mp hi
        have hj : j = 0 := by
          by_contra hne
          exact Verdict.noConfusion (haccept.symm.trans (hpassed 0 (Nat.pos_of_ne_zero hne)))
        have hle := compared_le COMMENT_INFO ((buffer old behind).drop j)
        have hlt := List.mem_range.mp ho
        have hseven : COMMENT_INFO.length = 7 := rfl
        rw [sz_eq]
        omega
      · have hrange := List.mem_range'_1.mp hi
        omega
  · obtain ⟨hscan, hreads⟩ := @search_of_no_marker _ behind hlen hmem hnone
    rw [cutLog_of_none behind hlen hscan]
    constructor
    · rw [fromMarker_of_long hlen, (find_eq_none hmarker).mpr hnone, Option.getD_none, List.append_nil]
    · dsimp only
      exact hreads

theorem markable_of_tailKept (h : TailKept header old (cutLog header old behind)) : Markable old := by
  by_cases hlen : old.length < sz
  · exact .inl hlen
  obtain ⟨hfile, hinside⟩ := h
  obtain ⟨k, hk, hne, hpassed⟩ := exists_end old behind
  have hmarker : COMMENT_INFO ≠ [] := by decide
  cases hverdict : strstrVerdict COMMENT_INFO ((buffer old behind).drop k) with
  | pass => exact absurd hverdict hne
  | accept =>
      -- the buffer's size is written from the match on
      have hscan : scan (strstrVerdict COMMENT_INFO) 0 (buffer old behind) = some k :=
        scan_eq_some_iff.mpr ⟨k, hk, (Nat.zero_add k).symm, hverdict, hpassed⟩
      rw [cutLog_of_some behind hlen hscan] at hinside
      have hsz := sz_eq
      have hlast := hinside (k + (sz - 1)) (List.mem_append_right _ (List.mem_range'_1.mpr (by omega)))
      obtain rfl : k = 0 := by omega
      have hprefix := strstrVerdict_accept.mp hverdict
      rw [List.drop_zero] at hprefix
      have hle : COMMENT_INFO.length ≤ (tail old).length := by
        rw [length_tail hlen, sz_eq]
        exact Nat.le_of_ble_eq_true rfl
      refine .inr (.inl (List.prefix_of_prefix_length_le hprefix ?_ hle))
      rw [buffer, List.append_assoc]
      exact List.prefix_append _ _
  | stop =>
      have hscan : scan (strstrVerdict COMMENT_INFO) 0 (buffer old behind) = none := by
        rw [scan_eq_none_iff]
        intro i _ haccept
        refine ⟨k, Nat.lt_of_not_le fun hle => ?_, hverdict⟩
        rcases hle.eq_or_lt with rfl | hlt
        · exact Verdict.noConfusion (haccept.symm.trans hverdict)
        · exact Verdict.noConfusion (haccept.symm.trans (hpassed i hlt))
      rw [cutLog_of_none behind hlen hscan] at hfile hinside
      dsimp only at hfile hinside
      obtain ⟨t, ht⟩ := strstrVerdict_stop.mp hverdict
      have hread : k ∈ scanReads (strstrVerdict COMMENT_INFO)
          (fun rest => List.range (compared COMMENT_INFO rest)) 0 (buffer old behind) :=
        mem_scanReads_iff.mpr ⟨k, hk, hpassed, 0, List.mem_range.mpr compared_pos, by omega⟩
      have hlt := hinside k hread
      have hmem : '\x00' ∈ tail old := by
        rw [buffer_drop (by rw [length_tail hlen]; exact hlt.le)] at ht
        cases hdrop : (tail old).drop k with
        | nil =>
            have hlength := congrArg List.length hdrop
            rw [List.length_drop, length_tail hlen, List.length_nil] at hlength
            omega
        | cons c u =>
            rw [hdrop, List.cons_append] at ht
            rw [← (List.cons.inj ht).1]
            exact (List.drop_sublist k (tail old)).subset (hdrop ▸ List.mem_cons_self)
      refine .inr (.inr ⟨hmem, fun hinfix => ?_⟩)
      rw [fromMarker_of_long hlen] at hfile
      cases hfind : find COMMENT_INFO (tail old) with
      | none => exact (find_eq_none hmarker).mp hfind hinfix
      | some u =>
          rw [hfind, Option.getD_some] at hfile
          have hnil : u = [] := List.self_eq_append_right.mp hfile
          have hbegins := prefix_of_find hfind
          rw [hnil, List.prefix_nil] at hbegins
          exact hmarker hbegins

theorem checkLogSize_of_large {fsize : Int} (hpos : 0 < fsize) (hsize : fsize ≤ old.length) :
    checkLogSize header old behind fsize = cutLog header old behind := by
  rw [checkLogSize, if_neg hpos.ne', if_pos hsize]

/-- A log that is too large keeps its tail from the first marker on, and nothing is read behind the buffer, if and
only if it is shorter than the buffer, the tail begins with a marker, or it has a NUL and no marker. -/
theorem tail_kept_iff (header old behind : Str) (fsize : Int) (hpos : 0 < fsize) (hsize : fsize ≤ old.length) :
    (TailKept header old (checkLogSize header old behind fsize) ↔ Markable old) ∧
      (TailKept (cstr header) old (checkLogSizeC header old behind fsize) ↔ Markable old) := by
  rw [checkLogSizeC, checkLogSize_of_large behind hpos hsize, checkLogSize_of_large behind hpos hsize]
  exact ⟨⟨markable_of_tailKept behind, tailKept_of_markable behind⟩,
    ⟨markable_of_tailKept behind, tailKept_of_markable behind⟩⟩

/-- A log of one buffer's size, with a marker behind what it begins with. -/
def markedLog (front : Str) : Str := front ++ COMMENT_INFO ++ List.replicate (sz - 7 - front.length) 'x'

theorem length_markedLog {front : Str} (h : front.length ≤ sz - 7) : (markedLog front).length = sz := by
  have hseven : COMMENT_INFO.length = 7 := rfl
  have hsz := sz_eq
  rw [markedLog, List.length_append, List.length_append, List.length_replicate]
  omega

theorem tail_markedLog {front : Str} (h : front.length ≤ sz - 7) : tail (markedLog front) = markedLog front := by
  rw [tail, length_markedLog h, Nat.sub_self, List.drop_zero]

theorem tail_kept_iff_marked :
    TailKept "header".toList (markedLog []) (checkLogSize "header".toList (markedLog []) [] 1536) ∧
      TailKept "header".toList (markedLog []) (checkLogSizeC "header".toList (markedLog []) [] 1536) := by
  have hlength : (1536 : Int) ≤ (markedLog []).length := by
    rw [length_markedLog (Nat.zero_le _), sz_eq]
    exact Int.le_refl _
  have hmarkable : Markable (markedLog []) := by
    refine .inr (.inl ?_)
    rw [tail_markedLog (Nat.zero_le _)]
    exact List.prefix_append _ _
  have h := tail_kept_iff "header".toList (markedLog []) [] 1536 (by decide) hlength
  exact ⟨h.1.mpr hmarkable, h.2.mpr hmarkable⟩

/-- The marker comes second in the buffer, and as many bytes as it has are written from there on. -/
theorem tail_written_beyond :
    ¬ (∀ (header old behind : Str) (fsize : Int), 0 < fsize → fsize ≤ old.length →
        TailKept header old (checkLogSize header old behind fsize)) ∧
      ¬ ∀ (header old behind : Str) (fsize : Int), 0 < fsize → fsize ≤ old.length →
        TailKept (cstr header) old (checkLogSizeC header old behind fsize) := by
  have hone : ['y'].length ≤ sz - 7 := Nat.le_of_ble_eq_true rfl
  have hlength : (1536 : Int) ≤ (markedLog ['y']).length := by
    rw [length_markedLog hone, sz_eq]
    exact Int.le_refl _
  have hnot : ¬ Markable (markedLog ['y']) := by
    rw [Markable, length_markedLog hone, tail_markedLog hone]
    rintro (hlt | hprefix | ⟨hmem, -⟩)
    · exact absurd hlt (Nat.lt_irrefl _)
    · obtain ⟨heq, -⟩ := List.cons_prefix_cons.mp hprefix
      exact absurd heq (by decide)
    · rcases List.mem_append.mp hmem with hmem | hmem
      · exact absurd hmem (by decide)
      · exact absurd (List.eq_of_mem_replicate hmem) (by decide)
  constructor
  · intro hall
    have hkept := hall [] (markedLog ['y']) [] 1536 (by decide) hlength
    rw [checkLogSize_of_large [] (by decide) hlength] at hkept
    exact hnot (markable_of_tailKept [] hkept)
  · intro hall
    have hkept := hall [] (markedLog ['y']) [] 1536 (by decide) hlength
    rw [checkLogSizeC, checkLogSize_of_large [] (by decide) hlength] at hkept
    exact hnot (markable_of_tailKept [] hkept)

end Kept

end RadioServices.Logger.LogSize

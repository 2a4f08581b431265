import Mathlib.Data.List.Basic
import Mathlib.Order.Lattice.Nat

namespace RadioServices.Lib.Scan

universe u

variable {α : Type u}

inductive Verdict
  | accept
  | stop
  | pass
  deriving DecidableEq

/-- The first position that is accepted, in front of all that stop the search. -/
def scan (verdict : List α → Verdict) : Nat → List α → Option Nat
  | _, [] => none
  | pos, a :: s =>
      match verdict (a :: s) with
      | .accept => some pos
      | .stop => none
      | .pass => scan verdict (pos + 1) s

variable (verdict : List α → Verdict) (s : List α)

def Passed (i : Nat) : Prop := ∀ j < i, verdict (s.drop j) = .pass

section Results

variable {verdict s}

theorem passed_zero : Passed verdict s 0 := fun _ hj => absurd hj (Nat.not_lt_zero _)

theorem passed_succ_cons {a : α} {i : Nat} :
    Passed verdict (a :: s) (i + 1) ↔ verdict (a :: s) = .pass ∧ Passed verdict s i := by
  constructor
  · exact fun h => ⟨h 0 (Nat.succ_pos _), fun j hj => h (j + 1) (Nat.succ_lt_succ hj)⟩
  · rintro ⟨hhead, htail⟩ j hj
    cases j with
    | zero => exact hhead
    | succ j => exact htail j (Nat.lt_of_succ_lt_succ hj)

theorem scan_eq_some_iff {pos p : Nat} :
    scan verdict pos s = some p ↔
      ∃ i < s.length, p = pos + i ∧ verdict (s.drop i) = .accept ∧ Passed verdict s i := by
  induction s generalizing pos with
  | nil => simp [scan]
  | cons a s ih =>
      constructor
      · intro h
        rw [scan] at h
        split at h
        · rename_i haccept
          exact ⟨0, Nat.succ_pos _, (Option.some.inj h).symm, haccept, passed_zero⟩
        · cases h
        · rename_i hpass
          obtain ⟨i, hi, rfl, haccept, hpassed⟩ := ih.mp h
          exact ⟨i + 1, Nat.succ_lt_succ hi, by omega, haccept, passed_succ_cons.mpr ⟨hpass, hpassed⟩⟩
      · rintro ⟨i, hi, rfl, haccept, hpassed⟩
        cases i with
        | zero =>
            rw [List.drop_zero] at haccept
            simp only [scan, haccept, Nat.add_zero]
        | succ i =>
            obtain ⟨hpass, hpassed⟩ := passed_succ_cons.mp hpassed
            rw [scan, hpass]
            exact ih.mpr ⟨i, Nat.lt_of_succ_lt_succ hi, by omega, haccept, hpassed⟩

theorem exists_first {i : Nat} (h : verdict (s.drop i) ≠ .pass) :
    ∃ m ≤ i, verdict (s.drop m) ≠ .pass ∧ Passed verdict s m := by
  induction i using Nat.strongRecOn with
  | ind i ih =>
      by_cases hpassed : Passed verdict s i
      · exact ⟨i, Nat.le_refl i, h, hpassed⟩
      · simp only [Passed, not_forall] at hpassed
        obtain ⟨j, hj, hne⟩ := hpassed
        obtain ⟨m, hm, hfirst⟩ := ih j hj hne
        exact ⟨m, hm.trans hj.le, hfirst⟩

/-- Nothing is found in front of a position if and only if what is accepted there has something in front
of it that stops the search. -/
theorem le_scan_iff {pos k : Nat} :
    (∀ p, scan verdict pos s = some p → pos + k ≤ p) ↔
      ∀ i < s.length, i < k → verdict (s.drop i) = .accept → ∃ j < i, verdict (s.drop j) = .stop := by
  constructor
  · intro hle i hi hik haccept
    obtain ⟨m, hm, hne, hpassed⟩ := exists_first (fun h => nomatch haccept.symm.trans h)
    cases hverdict : verdict (s.drop m) with
    | accept =>
        have hsome := hle _ (scan_eq_some_iff.mpr ⟨m, hm.trans_lt hi, rfl, hverdict, hpassed⟩)
        omega
    | stop =>
        have hlt : m < i := hm.lt_of_ne fun heq => nomatch (heq ▸ hverdict).symm.trans haccept
        exact ⟨m, hlt, hverdict⟩
    | pass => exact absurd hverdict hne
  · intro hstop p hsome
    obtain ⟨i, hi, rfl, haccept, hpassed⟩ := scan_eq_some_iff.mp hsome
    by_contra hlt
    obtain ⟨j, hj, hstop⟩ := hstop i hi (by omega) haccept
    exact nomatch hstop.symm.trans (hpassed j hj)

theorem scan_eq_none_iff {pos : Nat} :
    scan verdict pos s = none ↔
      ∀ i < s.length, verdict (s.drop i) = .accept → ∃ j < i, verdict (s.drop j) = .stop := by
  have hle : (∀ p, scan verdict pos s = some p → pos + s.length ≤ p) ↔ _ := le_scan_iff
  constructor
  · intro hnone i hi
    exact hle.mp (fun p hsome => nomatch hnone.symm.trans hsome) i hi hi
  · intro hstop
    rw [Option.eq_none_iff_forall_ne_some]
    intro p hsome
    obtain ⟨i, hi, rfl, -⟩ := scan_eq_some_iff.mp hsome
    have hpast := hle.mpr (fun i hi _ => hstop i hi) _ hsome
    omega

theorem scan_eq_map (pos : Nat) : scan verdict pos s = (scan verdict 0 s).map (pos + ·) := by
  ext p
  rw [scan_eq_some_iff, Option.map_eq_some_iff]
  constructor
  · rintro ⟨i, hi, rfl, h⟩
    exact ⟨i, scan_eq_some_iff.mpr ⟨i, hi, (Nat.zero_add i).symm, h⟩, rfl⟩
  · rintro ⟨k, hk, rfl⟩
    obtain ⟨i, hi, rfl, h⟩ := scan_eq_some_iff.mp hk
    exact ⟨i, hi, by rw [Nat.zero_add], h⟩

end Results

section Reads

/-- What a search looks at, when it looks at these offsets from every position it comes to. -/
def scanReads (verdict : List α → Verdict) (reads : List α → List Nat) : Nat → List α → List Nat
  | _, [] => []
  | pos, a :: s =>
      (reads (a :: s)).map (pos + ·) ++
        if verdict (a :: s) = .pass then scanReads verdict reads (pos + 1) s else []

variable {verdict s} {reads : List α → List Nat}

theorem mem_scanReads_iff {pos i : Nat} :
    i ∈ scanReads verdict reads pos s ↔
      ∃ k < s.length, Passed verdict s k ∧ ∃ o ∈ reads (s.drop k), i = pos + k + o := by
  induction s generalizing pos with
  | nil => simp [scanReads]
  | cons a s ih =>
      rw [scanReads, List.mem_append, List.mem_map]
      constructor
      · rintro (⟨o, ho, rfl⟩ | h)
        · exact ⟨0, Nat.succ_pos _, passed_zero, o, ho, rfl⟩
        · split at h
          · rename_i hpass
            obtain ⟨k, hk, hpassed, o, ho, rfl⟩ := ih.mp h
            exact ⟨k + 1, Nat.succ_lt_succ hk, passed_succ_cons.mpr ⟨hpass, hpassed⟩, o, ho, by omega⟩
          · exact absurd h List.not_mem_nil
      · rintro ⟨k, hk, hpassed, o, ho, rfl⟩
        cases k with
        | zero => exact .inl ⟨o, ho, rfl⟩
        | succ k =>
            obtain ⟨hpass, hpassed⟩ := passed_succ_cons.mp hpassed
            right
            rw [if_pos hpass]
            exact ih.mpr ⟨k, Nat.lt_of_succ_lt_succ hk, hpassed, o, ho, by omega⟩

end Reads

section Exact

variable (Right : List α → Prop)

def candidates : Set Nat := {i | i < s.length ∧ Right (s.drop i)}

/-- The search finds the first one, and nothing if and only if there is none. -/
def Exact (pos : Nat) : Prop :=
  (∀ p, scan verdict pos s = some p ↔ ∃ i, p = pos + i ∧ IsLeast (candidates s Right) i) ∧
    (scan verdict pos s = none ↔ ∀ i < s.length, ¬ Right (s.drop i))

/-- Nothing else is accepted, or stops the search, in front of the first one. Where there is none,
nothing is accepted that the search comes to. -/
def NoFalse : Prop :=
  (∀ i < s.length, Right (s.drop i) → ∀ q < i, verdict (s.drop q) ≠ .pass → ∃ r ≤ q, Right (s.drop r)) ∧
    ((∀ i < s.length, ¬ Right (s.drop i)) →
      ∀ q < s.length, verdict (s.drop q) = .accept → ∃ r < q, verdict (s.drop r) = .stop)

variable {verdict s Right}

theorem exists_isLeast {i : Nat} (hi : i < s.length) (h : Right (s.drop i)) :
    ∃ l, IsLeast (candidates s Right) l :=
  ⟨_, Nat.sInf_mem ⟨i, hi, h⟩, fun _ => Nat.sInf_le⟩

theorem exact_iff (hright : ∀ t, Right t → verdict t = .accept) (pos : Nat) :
    Exact verdict s Right pos ↔ NoFalse verdict s Right := by
  constructor
  · rintro ⟨hsome, hnone⟩
    refine ⟨fun i hi h q hq hne => ?_, fun hno => scan_eq_none_iff.mp (hnone.mpr hno)⟩
    by_contra hfalse
    obtain ⟨l, hl⟩ := exists_isLeast hi h
    have hlt : q < l := Nat.lt_of_not_le fun hle => hfalse ⟨l, hle, hl.1.2⟩
    obtain ⟨m, -, heq, -, hpassed⟩ := scan_eq_some_iff.mp ((hsome (pos + l)).mpr ⟨l, rfl, hl⟩)
    exact hne (hpassed q (by omega))
  · rintro ⟨hfirst, hrest⟩
    by_cases hex : ∃ i < s.length, Right (s.drop i)
    · obtain ⟨i, hi, h⟩ := hex
      obtain ⟨l, hl⟩ := exists_isLeast hi h
      have hpassed : Passed verdict s l := by
        intro q hq
        by_contra hne
        obtain ⟨r, hr, hRight⟩ := hfirst l hl.1.1 hl.1.2 q hq hne
        have hle := hl.2 ⟨hr.trans_lt (hq.trans hl.1.1), hRight⟩
        omega
      have hscan : scan verdict pos s = some (pos + l) :=
        scan_eq_some_iff.mpr ⟨l, hl.1.1, rfl, hright _ hl.1.2, hpassed⟩
      constructor
      · intro p
        rw [hscan, Option.some.injEq]
        constructor
        · rintro rfl
          exact ⟨l, rfl, hl⟩
        · rintro ⟨m, rfl, hm⟩
          rw [hl.unique hm]
      · rw [hscan]
        exact ⟨fun hnone => (nomatch hnone), fun hno => absurd h (hno i hi)⟩
    · have hno : ∀ i < s.length, ¬ Right (s.drop i) := fun i hi h => hex ⟨i, hi, h⟩
      have hscan : scan verdict pos s = none := scan_eq_none_iff.mpr (hrest hno)
      constructor
      · intro p
        rw [hscan]
        exact ⟨fun hsome => (nomatch hsome), fun ⟨i, _, hi⟩ => absurd hi.1.2 (hno i hi.1.1)⟩
      · exact ⟨fun _ => hno, fun _ => hscan⟩

end Exact

end RadioServices.Lib.Scan

import RadioServices.Rotator.Timer

namespace RadioServices.Rotator.Seconds

open Lib Lib.C TTimer

section Fields

variable {s first rest : Str}

def field (s : Str) (k : Nat) : Str := (s.splitOn ':').getD k []

theorem splitOn_of_colon (h : ':' ∉ first) : (first ++ ':' :: rest).splitOn ':' = first :: rest.splitOn ':' :=
  List.splitOn_append_cons_self_of_not_mem h rest

theorem field_zero (h : ':' ∉ first) : field (first ++ ':' :: rest) 0 = first := by
  rw [field, splitOn_of_colon h]
  rfl

theorem field_succ (h : ':' ∉ first) (k : Nat) : field (first ++ ':' :: rest) (k + 1) = field rest k := by
  rw [field, field, splitOn_of_colon h]
  rfl

theorem stops_colon (rest : Str) : Stops (':' :: rest) :=
  ⟨noDigit_colon rest, ':', rest, rfl, rfl, by decide, by decide⟩

/-- `atoi` reads no further than the first colon. -/
theorem atoi_field (s : Str) : atoi (field s 0) = atoi s := by
  by_cases h : ':' ∈ s
  · obtain ⟨first, rest, rfl, hfirst⟩ := List.eq_append_cons_of_mem h
    rw [field_zero hfirst, atoi, atoi, strtol_stop (stops_colon rest)]
  · rw [field, List.splitOn_eq_singleton h]
    rfl

end Fields

/-- What the fields of a time say in seconds. A field that is missing is empty, and counts 0. -/
def total (s : Str) : Int := 3600 * atoi (field s 0) + 60 * atoi (field s 1) + atoi (field s 2)

def orDefault (t : TTimer) (value : Int) : Int := if value = 0 then t.defaultTrackDuration else value

/-- No pointer of a failed `strchr` is used, and the value is the one the fields say. -/
def Reads (t : TTimer) (s : Str) : Prop := t.getSeconds (some s) = some (orDefault t (total s))

/-- The products with the hours and the minutes fit an `int`, or lose the same. -/
def Fits (s : Str) : Prop :=
  i32 (3600 * atoi (field s 0)) + i32 (60 * atoi (field s 1)) = 3600 * atoi (field s 0) + 60 * atoi (field s 1)

section Colons

variable {t : TTimer} {s hours minutes seconds : Str}

theorem getSeconds_eq (t : TTimer) (s : Str) : t.getSeconds (some s) = (strchr s ':').bind fun minutes =>
    (strchr minutes.tail ':').bind fun seconds =>
      some (orDefault t (i32 (atoi s * 3600) + i32 (atoi minutes.tail * 60) + atoi seconds.tail)) := rfl

theorem getSeconds_of_two (hhours : ':' ∉ hours) (hminutes : ':' ∉ minutes)
    (hs : s = hours ++ ':' :: (minutes ++ ':' :: seconds)) :
    t.getSeconds (some s) = some (orDefault t
      (i32 (3600 * atoi (field s 0)) + i32 (60 * atoi (field s 1)) + atoi (field s 2))) := by
  have hfirst : field s 1 = minutes := by rw [hs, field_succ hhours, field_zero hminutes]
  have hsecond : field s 2 = field seconds 0 := by rw [hs, field_succ hhours, field_succ hminutes]
  have hrest : atoi (minutes ++ ':' :: seconds) = atoi minutes := by
    rw [← atoi_field, field_zero hminutes]
  rw [hsecond, atoi_field, hfirst, atoi_field, Int.mul_comm 3600, Int.mul_comm 60, getSeconds_eq, hs,
    strchr_append hhours, Option.bind_some, List.tail_cons, strchr_append hminutes, Option.bind_some, List.tail_cons,
    hrest]

theorem strchr_of_not_mem (h : ':' ∉ s) : strchr s ':' = none := by
  rw [strchr, Cut.dropWhile_ne_of_not_mem h]

theorem exists_fields (h : 2 ≤ s.count ':') : ∃ hours minutes seconds, ':' ∉ hours ∧ ':' ∉ minutes ∧
    s = hours ++ ':' :: (minutes ++ ':' :: seconds) := by
  have hmem : ':' ∈ s := List.count_pos_iff.mp (by omega)
  obtain ⟨hours, rest, rfl, hhours⟩ := List.eq_append_cons_of_mem hmem
  rw [List.count_append, List.count_eq_zero.mpr hhours, List.count_cons_self] at h
  have hmem' : ':' ∈ rest := List.count_pos_iff.mp (by omega)
  obtain ⟨minutes, seconds, rfl, hminutes⟩ := List.eq_append_cons_of_mem hmem'
  exact ⟨hours, minutes, seconds, hhours, hminutes, rfl⟩

/-- With fewer than two colons, `strchr` fails before the seconds are reached. -/
theorem getSeconds_of_few (h : s.count ':' < 2) : t.getSeconds (some s) = none := by
  by_cases hmem : ':' ∈ s
  · obtain ⟨hours, rest, rfl, hhours⟩ := List.eq_append_cons_of_mem hmem
    rw [List.count_append, List.count_cons_self] at h
    have hrest : ':' ∉ rest := List.count_eq_zero.mp (by omega)
    rw [getSeconds_eq, strchr_append hhours, Option.bind_some, List.tail_cons, strchr_of_not_mem hrest,
      Option.bind_none]
  · rw [getSeconds_eq, strchr_of_not_mem hmem, Option.bind_none]

end Colons

theorem eq_of_orDefault {value value' : Int} (h : ∀ t, orDefault t value = orDefault t value') : value = value' := by
  have hother (d : Int) := h ⟨0, 0, 0, d⟩
  simp only [orDefault] at hother
  by_contra hne
  by_cases hzero : value = 0
  · have hnext := hother (value' + 1)
    rw [if_pos hzero, if_neg (by omega)] at hnext
    omega
  · have hnext := hother (value + 1)
    rw [if_neg hzero] at hnext
    split at hnext
    · omega
    · exact hne hnext

/-- A time is read as its fields say if and only if it has two colons and its products fit. -/
theorem reads_iff (s : Str) : (∀ t, Reads t s) ↔ 2 ≤ s.count ':' ∧ Fits s := by
  by_cases hcolons : 2 ≤ s.count ':'
  · obtain ⟨hours, minutes, seconds, hhours, hminutes, hs⟩ := exists_fields hcolons
    have hvalue (t : TTimer) := @getSeconds_of_two t s hours minutes seconds hhours hminutes hs
    simp only [Reads, hvalue, Option.some.injEq]
    constructor
    · intro h
      refine ⟨hcolons, ?_⟩
      have hsum := eq_of_orDefault h
      rw [total] at hsum
      exact add_right_cancel hsum
    · rintro ⟨-, hfits⟩ t
      rw [hfits, total]
  · refine iff_of_false (fun h => ?_) fun h => hcolons h.1
    have hnone := h ⟨0, 0, 0, 180⟩
    rw [Reads, getSeconds_of_few (by omega)] at hnone
    cases hnone

theorem not_reads_minutes : ¬ ∀ (t : TTimer) (s : Str), Reads t s := by
  intro h
  have hread := h ⟨0, 0, 0, 180⟩ "03:25".toList
  rw [Reads, getSeconds_of_few (by decide)] at hread
  cases hread

end RadioServices.Rotator.Seconds

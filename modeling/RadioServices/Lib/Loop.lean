import Mathlib.Data.Nat.Basic

namespace RadioServices.Lib.Loop

universe u

variable {State : Type u} {next : State → Option State} {s t : State}

/-- The states a loop comes by. `next` is `none` after the last pass. -/
inductive Reached (next : State → Option State) (s : State) : State → Prop
  | start : Reached next s s
  | pass {t u : State} (ht : Reached next s t) (hu : next t = some u) : Reached next s u

def Ends (next : State → Option State) : Nat → State → Prop
  | 0, _ => False
  | n + 1, s => ∀ t, next s = some t → Ends next n t

def result (next : State → Option State) : Nat → State → Option State
  | 0, _ => none
  | n + 1, s =>
      match next s with
      | none => some s
      | some t => result next n t

theorem Reached.trans {u : State} (hst : Reached next s t) (htu : Reached next t u) : Reached next s u := by
  induction htu with
  | start => exact hst
  | pass _ hu ih => exact .pass ih hu

theorem Ends.of_reached {n : Nat} (hends : Ends next n s) (h : Reached next s t) : ∃ k, Ends next k t := by
  induction h with
  | start => exact ⟨n, hends⟩
  | pass _ hu ih =>
      obtain ⟨k, hk⟩ := ih
      cases k with
      | zero => exact hk.elim
      | succ k => exact ⟨k, hk _ hu⟩

theorem Reached.invariant (I : State → Prop) (hpass : ∀ t u, I t → next t = some u → I u) (hs : I s)
    (h : Reached next s t) : I t := by
  induction h with
  | start => exact hs
  | pass _ hu ih => exact hpass _ _ ih hu

theorem reached_of_result {n : Nat} (h : result next n s = some t) : Reached next s t ∧ next t = none := by
  induction n generalizing s with
  | zero => cases h
  | succ n ih =>
      rw [result] at h
      cases hnext : next s with
      | none =>
          rw [hnext] at h
          cases h
          exact ⟨.start, hnext⟩
      | some u =>
          rw [hnext] at h
          obtain ⟨hreach, hover⟩ := ih h
          exact ⟨(Reached.start.pass hnext).trans hreach, hover⟩

theorem result_isSome_iff (n : Nat) : (∃ t, result next n s = some t) ↔ Ends next n s := by
  induction n generalizing s with
  | zero => exact ⟨fun ⟨t, ht⟩ => (nomatch ht), False.elim⟩
  | succ n ih =>
      rw [result, Ends]
      cases hnext : next s with
      | none => exact ⟨fun _ t ht => (nomatch ht), fun _ => ⟨s, rfl⟩⟩
      | some u =>
          rw [ih]
          exact ⟨fun h t ht => Option.some.inj ht ▸ h, fun h => h u rfl⟩

theorem result_of_reached (h : Reached next s t) (hover : next t = none) : ∃ n, result next n s = some t := by
  have hskip : ∃ k, ∀ n, result next (k + n) s = result next n t := by
    clear hover
    induction h with
    | start => exact ⟨0, fun n => by rw [Nat.zero_add]⟩
    | pass _ hu ih =>
        obtain ⟨k, hk⟩ := ih
        refine ⟨k + 1, fun n => ?_⟩
        rw [Nat.add_assoc, Nat.add_comm 1 n, hk, result, hu]
  obtain ⟨k, hk⟩ := hskip
  refine ⟨k + 1, ?_⟩
  rw [hk, result, hover]

theorem result_of_ends {n : Nat} (hends : Ends next n s) (h : Reached next s t) (hover : next t = none) :
    result next n s = some t := by
  obtain ⟨m, hm⟩ := result_of_reached h hover
  clear h
  induction n generalizing m s with
  | zero => exact hends.elim
  | succ n ih =>
      cases m with
      | zero => cases hm
      | succ m =>
          rw [result] at hm ⊢
          cases hnext : next s with
          | none =>
              rw [hnext] at hm
              exact hm
          | some u =>
              rw [hnext] at hm
              exact ih (hends u hnext) m hm

theorem reached_of_passes {states : Nat → State} {n : Nat} (h : ∀ k < n, next (states k) = some (states (k + 1))) :
    Reached next (states 0) (states n) := by
  induction n with
  | zero => exact .start
  | succ n ih => exact .pass (ih fun k hk => h k (Nat.lt_succ_of_lt hk)) (h n (Nat.lt_succ_self n))

def trace (next : State → Option State) : Nat → State → List State
  | 0, _ => []
  | n + 1, s =>
      s :: match next s with
        | none => []
        | some t => trace next n t

theorem trace_of_none {n : Nat} (h : next s = none) : trace next (n + 1) s = [s] := by
  rw [trace, h]

theorem trace_of_some {n : Nat} (h : next s = some t) : trace next (n + 1) s = s :: trace next n t := by
  rw [trace, h]

theorem Reached.eq_or_pass (h : Reached next s t) : t = s ∨ ∃ u, next s = some u ∧ Reached next u t := by
  induction h with
  | start => exact .inl rfl
  | @pass t u _ hu ih =>
      rcases ih with rfl | ⟨v, hv, hvt⟩
      · exact .inr ⟨u, hu, .start⟩
      · exact .inr ⟨v, hv, hvt.pass hu⟩

theorem trace_of_ends {n : Nat} (hends : Ends next n s) {m : Nat} (hle : n ≤ m) : trace next m s = trace next n s := by
  induction n generalizing m s with
  | zero => exact hends.elim
  | succ n ih =>
      obtain ⟨m, rfl⟩ := Nat.exists_eq_add_one_of_ne_zero (Nat.ne_of_gt (Nat.lt_of_lt_of_le (Nat.succ_pos n) hle))
      rw [trace, trace]
      cases hnext : next s with
      | none => rfl
      | some u =>
          dsimp only
          rw [ih (hends u hnext) (Nat.le_of_succ_le_succ hle)]

theorem trace_map (f : State → State) (hmap : ∀ s, next (f s) = (next s).map f) (n : Nat) (s : State) :
    trace next n (f s) = (trace next n s).map f := by
  induction n generalizing s with
  | zero => rfl
  | succ n ih =>
      rw [trace, trace, List.map_cons, hmap]
      cases next s with
      | none => rfl
      | some t => exact congrArg (f s :: ·) (ih t)

/-- A loop that never leaves some states, in which it is not over, does not end. -/
theorem not_ends_of_kept (I : State → Prop) (hkept : ∀ t, I t → ∃ u, next t = some u ∧ I u) (hs : I s) (n : Nat) :
    ¬ Ends next n s := by
  induction n generalizing s with
  | zero => exact id
  | succ n ih =>
      obtain ⟨u, hu, hI⟩ := hkept s hs
      exact fun h => ih hI (h u hu)

theorem not_ends_of_fixed (hfix : next t = some t) (n : Nat) : ¬ Ends next n t :=
  not_ends_of_kept (· = t) (fun _ ht => ⟨t, ht ▸ hfix, rfl⟩) rfl n

theorem not_ends_of_reached (h : Reached next s t) (hfix : next t = some t) (n : Nat) : ¬ Ends next n s := by
  intro hends
  obtain ⟨k, hk⟩ := hends.of_reached h
  exact not_ends_of_fixed hfix k hk

theorem ends_of_measure (measure : State → Nat)
    (hdown : ∀ t u, Reached next s t → next t = some u → measure u < measure t)
    {n : Nat} (hn : measure s < n) : Ends next n s := by
  induction n generalizing s with
  | zero => exact absurd hn (Nat.not_lt_zero _)
  | succ n ih =>
      intro t ht
      have hreach : Reached next s t := .pass .start ht
      have hlt := hdown s t .start ht
      exact ih (fun u v hu hv => hdown u v (hreach.trans hu) hv) (by omega)

/-- A loop whose passes change nothing or take a measure down ends if and only if none of them
changes nothing, and then it is over by the measure. -/
theorem ends_iff (measure : State → Nat)
    (hdown : ∀ t u, Reached next s t → next t = some u → u = t ∨ measure u < measure t)
    {n : Nat} (hn : measure s < n) : Ends next n s ↔ ∀ t, Reached next s t → next t ≠ some t := by
  constructor
  · intro hends t ht hfix
    exact not_ends_of_reached ht hfix n hends
  · intro hmove
    refine ends_of_measure measure (fun t u ht hu => ?_) hn
    rcases hdown t u ht hu with rfl | hlt
    · exact absurd hu (hmove _ ht)
    · exact hlt

theorem exists_ends_iff (measure : State → Nat)
    (hdown : ∀ t u, Reached next s t → next t = some u → u = t ∨ measure u < measure t) :
    (∃ n, Ends next n s) ↔ ∀ t, Reached next s t → next t ≠ some t := by
  constructor
  · rintro ⟨n, hends⟩ t ht hfix
    exact not_ends_of_reached ht hfix n hends
  · exact fun hmove => ⟨measure s + 1, (ends_iff measure hdown (Nat.lt_succ_self _)).mpr hmove⟩

end RadioServices.Lib.Loop

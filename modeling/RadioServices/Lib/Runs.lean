import Mathlib.Order.WellFounded
import Mathlib.Logic.Function.Iterate

namespace RadioServices.Lib.Runs

universe u v

variable {State : Type u} {Event : Type v}

def run (step : State → Event → State) (s : State) (es : List Event) : State :=
  es.foldl step s

@[simp] theorem run_nil (step : State → Event → State) (s : State) : run step s [] = s := rfl

@[simp] theorem run_cons (step : State → Event → State) (s : State) (e : Event) (es : List Event) :
    run step s (e :: es) = run step (step s e) es := rfl

theorem run_append (step : State → Event → State) (s : State) (es fs : List Event) :
    run step s (es ++ fs) = run step (run step s es) fs := List.foldl_append

/-- Every event of the run happens in a state that permits it. -/
def Permitted (step : State → Event → State) (ok : State → Event → Prop) : State → List Event → Prop
  | _, [] => True
  | s, e :: es => ok s e ∧ Permitted step ok (step s e) es

instance decidablePermitted (step : State → Event → State) (ok : State → Event → Prop) [∀ s e, Decidable (ok s e)] :
    ∀ s es, Decidable (Permitted step ok s es)
  | _, [] => isTrue trivial
  | s, e :: es =>
      have := decidablePermitted step ok (step s e) es
      inferInstanceAs (Decidable (ok s e ∧ Permitted step ok (step s e) es))

theorem permitted_append {step : State → Event → State} {ok : State → Event → Prop}
    {s : State} {es fs : List Event} :
    Permitted step ok s (es ++ fs) ↔
      Permitted step ok s es ∧ Permitted step ok (run step s es) fs := by
  induction es generalizing s with
  | nil => simp [Permitted]
  | cons e es ih => simp [Permitted, ih, and_assoc]

theorem permitted_true (step : State → Event → State) (s : State) (es : List Event) :
    Permitted step (fun _ _ => True) s es := by
  induction es generalizing s with
  | nil => trivial
  | cons e es ih => exact ⟨trivial, ih _⟩

theorem permitted_iff {step : State → Event → State} {ok : State → Event → Prop} {s : State}
    {es : List Event} :
    Permitted step ok s es ↔ ∀ fs e gs, es = fs ++ e :: gs → ok (run step s fs) e := by
  constructor
  · rintro h fs e gs rfl
    exact (permitted_append.mp h).2.1
  · intro h
    induction es generalizing s with
    | nil => trivial
    | cons e es ih => exact ⟨h [] e es rfl, ih fun fs f gs hes => h (e :: fs) f gs (hes ▸ rfl)⟩

/-- An invariant kept by every permitted event holds after every permitted run. -/
theorem run_invariant {step : State → Event → State} {ok : State → Event → Prop}
    (I : State → Prop) (hstep : ∀ s e, I s → ok s e → I (step s e))
    {s : State} {es : List Event} (hs : I s) (hes : Permitted step ok s es) :
    I (run step s es) := by
  induction es generalizing s with
  | nil => exact hs
  | cons e es ih => exact ih (hstep s e hs hes.1) hes.2

/-- Where each step keeps the invariant exactly if it is permitted, a run keeps it all along exactly if each of its
steps is. -/
theorem always_iff_permitted {step : State → Event → State} {ok : State → Event → Prop} {small : Event → Prop}
    (I : State → Prop) (hstep : ∀ s e, I s → small e → (I (step s e) ↔ ok s e)) {s : State} {es : List Event}
    (hs : I s) (hsmall : ∀ e ∈ es, small e) :
    (∀ fs gs, es = fs ++ gs → I (run step s fs)) ↔ Permitted step ok s es := by
  induction es generalizing s with
  | nil =>
      refine iff_of_true (fun fs gs hes => ?_) trivial
      obtain ⟨rfl, -⟩ := List.append_eq_nil_iff.mp hes.symm
      exact hs
  | cons e es ih =>
      have he := hstep s e hs (hsmall e List.mem_cons_self)
      have hrest : ∀ f ∈ es, small f := fun f hf => hsmall f (List.mem_cons_of_mem e hf)
      constructor
      · intro h
        have hnext : I (step s e) := h [e] es rfl
        exact ⟨he.mp hnext, (ih hnext hrest).mp fun fs gs hes => h (e :: fs) gs (congrArg (e :: ·) hes)⟩
      · rintro ⟨hok, hpermitted⟩ fs gs hes
        cases fs with
        | nil => exact hs
        | cons f fs =>
            obtain ⟨rfl, htail⟩ := List.cons.inj hes
            exact (ih (he.mpr hok) hrest).mpr hpermitted fs gs htail

theorem run_invariant_all {step : State → Event → State} (I : State → Prop)
    (hstep : ∀ s e, I s → I (step s e)) {s : State} (hs : I s) (es : List Event) :
    I (run step s es) :=
  run_invariant I (fun s e h (_ : True) => hstep s e h) hs (permitted_true step s es)

theorem run_frame {α : Type*} {step : State → Event → State} (f : State → α)
    (hstep : ∀ s e, f (step s e) = f s) (s : State) (es : List Event) :
    f (run step s es) = f s :=
  run_invariant_all (fun t => f t = f s) (fun t e h => (hstep t e).trans h) rfl es

/-- What every event overwrites or leaves is what the last of them wrote. -/
theorem run_last {α : Type*} {step : State → Event → State} (f : State → Option α) (g : Event → Option α)
    (hstep : ∀ s e, f (step s e) = (g e).or (f s)) (s : State) (es : List Event) :
    f (run step s es) = (es.filterMap g).getLast?.or (f s) := by
  induction es generalizing s with
  | nil => rfl
  | cons e es ih =>
      rw [run_cons, ih, hstep, List.filterMap_cons]
      cases g e with
      | none => rfl
      | some a =>
          rw [List.getLast?_cons, ← Option.or_assoc]
          cases (es.filterMap g).getLast? <;> rfl

theorem foldlM_invariant {α β : Type*} {f : β → α → Option β} (I : β → Prop)
    (hstep : ∀ b a b', f b a = some b' → I b → I b') {l : List α} {b b' : β}
    (h : l.foldlM f b = some b') (hb : I b) : I b' := by
  induction l generalizing b with
  | nil =>
      simp only [List.foldlM_nil, Option.pure_def, Option.some.injEq] at h
      exact h ▸ hb
  | cons a l ih =>
      simp only [List.foldlM_cons, Option.bind_eq_bind, Option.bind_eq_some_iff] at h
      obtain ⟨c, hc, h⟩ := h
      exact ih h (hstep b a c hc hb)

theorem foldlM_invariant_of_mem {α β : Type*} {f : β → α → Option β} (I : β → Prop) {l : List α}
    (hstep : ∀ b a b', a ∈ l → f b a = some b' → I b → I b') {b b' : β} (h : l.foldlM f b = some b') (hb : I b) :
    I b' := by
  induction l generalizing b with
  | nil =>
      simp only [List.foldlM_nil, Option.pure_def, Option.some.injEq] at h
      exact h ▸ hb
  | cons a l ih =>
      simp only [List.foldlM_cons, Option.bind_eq_bind, Option.bind_eq_some_iff] at h
      obtain ⟨c, hc, h⟩ := h
      have hrest : ∀ b d b', d ∈ l → f b d = some b' → I b → I b' := fun b d b' hd =>
        hstep b d b' (List.mem_cons_of_mem a hd)
      exact ih hrest h (hstep b a c List.mem_cons_self hc hb)

section Calls

variable {Output : Type*} {call : State → Option (Output × State)}

def afterCalls (call : State → Option (Output × State)) : Nat → State → Option State
  | 0, s => some s
  | calls + 1, s => (call s).bind fun r => afterCalls call calls r.2

theorem afterCalls_some (I : State → Prop) (hcall : ∀ s, I s → ∃ o t, call s = some (o, t) ∧ I t)
    {s : State} (hs : I s) (calls : Nat) : ∃ t, afterCalls call calls s = some t ∧ I t := by
  induction calls generalizing s with
  | zero => exact ⟨s, rfl, hs⟩
  | succ calls ih =>
      obtain ⟨o, t, ht, hI⟩ := hcall s hs
      obtain ⟨u, hu, hIu⟩ := ih hI
      refine ⟨u, ?_, hIu⟩
      rw [afterCalls, ht]
      exact hu

end Calls

section Termination

variable {α : Type*} [LT α] [WellFoundedLT α]

/-- A deterministic machine stops if it runs in phases: each has a measure of its
own that falls until the phase is over, that is until the machine stops or its
`rank` in a well founded order falls. -/
theorem exists_iterate_stopped_phases {β : Type*} [LT β] [WellFoundedLT β] (next : State → State)
    (stopped : State → Prop) (I : State → Prop) (rank : State → α)
    (hI : ∀ s, I s → I (next s))
    (hphase : ∀ s, I s → ¬ stopped s → ∃ (Q : State → Prop) (measure : State → β), Q s ∧
      ∀ t, I t → Q t → stopped (next t) ∨ rank (next t) < rank s ∨
        Q (next t) ∧ measure (next t) < measure t)
    (s : State) (hs : I s) : ∃ n, stopped (next^[n] s) := by
  induction h : rank s using WellFoundedLT.induction generalizing s with
  | ind r ih =>
      by_cases hstop : stopped s
      · exact ⟨0, hstop⟩
      · obtain ⟨Q, measure, hQ, hstep⟩ := hphase s hs hstop
        have hall : ∀ t, I t → Q t → ∃ n, stopped (next^[n] t) := by
          intro t ht hQt
          induction hm : measure t using WellFoundedLT.induction generalizing t with
          | ind m ihm =>
              rcases hstep t ht hQt with hdone | hlt | ⟨hQn, hlt⟩
              · exact ⟨1, hdone⟩
              · obtain ⟨n, hn⟩ := ih (rank (next t)) (h ▸ hlt) (next t) (hI t ht) rfl
                exact ⟨n + 1, hn⟩
              · obtain ⟨n, hn⟩ := ihm (measure (next t)) (hm ▸ hlt) (next t) (hI t ht) hQn rfl
                exact ⟨n + 1, hn⟩
        exact hall s hs hQ

end Termination

theorem not_stopped_iterate (next : State → State) (stopped : State → Prop) (I : State → Prop)
    (hstep : ∀ s, I s → I (next s)) (hI : ∀ s, I s → ¬ stopped s)
    (s : State) (hs : I s) (n : Nat) : ¬ stopped (next^[n] s) := by
  have hn : I (next^[n] s) := by
    induction n with
    | zero => exact hs
    | succ n ih => rw [Function.iterate_succ_apply']; exact hstep _ ih
  exact hI _ hn

end RadioServices.Lib.Runs

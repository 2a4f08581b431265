import Mathlib.Data.List.Basic

namespace RadioServices.Lib.Spacing

universe u

variable {α : Type u}

/-- At least `n` elements lie after the latest element satisfying `p`. -/
def Spaced (p : α → Prop) (n : Int) (l : List α) : Prop :=
  ∀ pre x post, l = pre ++ x :: post → p x → (∀ y ∈ post, ¬ p y) → n ≤ post.length

/-- Walk a list given newest first, counting the elements met, to the first
match. The counter starts one below the count of the first element. -/
def newest (p : α → Bool) : List α → Int → Option (α × Int)
  | [], _ => none
  | x :: l, c => if p x then some (x, c + 1) else newest p l (c + 1)

theorem newest_none {p : α → Bool} {l : List α} {c : Int} (h : newest p l c = none) :
    ∀ x ∈ l, p x = false := by
  induction l generalizing c with
  | nil => simp
  | cons y l ih =>
      simp only [newest] at h
      split at h
      · simp at h
      · rename_i hy
        intro x hx
        rcases List.mem_cons.mp hx with rfl | hx
        · simpa using hy
        · exact ih h x hx

theorem newest_some {p : α → Bool} {l : List α} {c n : Int} {x : α}
    (h : newest p l c = some (x, n)) :
    ∃ newer older, l = newer ++ x :: older ∧ p x = true ∧ (∀ y ∈ newer, p y = false) ∧
      n = c + 1 + newer.length := by
  induction l generalizing c with
  | nil => simp [newest] at h
  | cons y l ih =>
      simp only [newest] at h
      split at h
      · rename_i hy
        simp only [Option.some.injEq, Prod.mk.injEq] at h
        obtain ⟨rfl, rfl⟩ := h
        exact ⟨[], l, rfl, hy, by simp, by simp⟩
      · rename_i hy
        obtain ⟨newer, older, rfl, hx, hnew, rfl⟩ := ih h
        refine ⟨y :: newer, older, rfl, hx, ?_, ?_⟩
        · intro z hz
          rcases List.mem_cons.mp hz with rfl | hz
          · simpa using hy
          · exact hnew z hz
        · simp only [List.length_cons]; omega

theorem spaced_of_none {p : α → Prop} {q : α → Bool} (hpq : ∀ x, p x → q x = true) {l : List α}
    {c : Int} (h : newest q l.reverse c = none) (n : Int) : Spaced p n l := by
  intro pre x post hl hx _
  have hmem : x ∈ l.reverse := by simp [hl]
  exact absurd (hpq x hx) (by simp [newest_none h x hmem])

/-- The newest match of a weaker test bounds the distance of the stronger one. -/
theorem spaced_of_some {p : α → Prop} {q : α → Bool} (hpq : ∀ x, p x → q x = true) {l : List α}
    {y : α} {m n : Int} (h : newest q l.reverse (-1) = some (y, m)) (hn : n ≤ m) : Spaced p n l := by
  obtain ⟨newer, older, hl, -, hnewer, rfl⟩ := newest_some h
  intro pre x post hpre hx _
  have hrev : l.reverse = post.reverse ++ x :: pre.reverse := by simp [hpre]
  have hlen : newer.length ≤ post.length := by
    by_contra hle
    have hlt : post.length < newer.length := Nat.lt_of_not_le hle
    have hmem : x ∈ newer := by
      have he : newer ++ y :: older = post.reverse ++ x :: pre.reverse := hl ▸ hrev
      have hget : newer[post.length]? = some x := by
        have hg := congrArg (fun t : List α => t[post.length]?) he
        simpa [List.getElem?_append, hlt] using hg
      exact List.mem_of_getElem? hget
    exact absurd (hpq x hx) (by simp [hnewer x hmem])
  omega

theorem Spaced.map {β : Type*} {f : α → β} {p : β → Prop} {n : Int} {l : List α}
    (h : Spaced (fun x => p (f x)) n l) : Spaced p n (l.map f) := by
  intro pre y post hl hy hpost
  obtain ⟨pre', tail, rfl, rfl, htail⟩ := List.map_eq_append_iff.mp hl
  obtain ⟨x, post', rfl, rfl, rfl⟩ := List.map_eq_cons_iff.mp htail
  have hlen := h pre' x post' rfl hy fun z hz => hpost (f z) (List.mem_map_of_mem hz)
  simpa using hlen

end RadioServices.Lib.Spacing

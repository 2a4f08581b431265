import RadioServices.Logger.Alerts

namespace RadioServices.Logger.AlertBox

open Lib Lib.C Lib.Runs ErrorMonitor Alerts

def volume (box : List Str) : Int := ((box.map List.length).sum : Nat)

def oldest : List Str → Int
  | [] => 0
  | it :: _ => it.length

def Sized (s : State) : Prop := ∀ dm, ∀ info ∈ s.domain.find? dm, info.msgBoxSize = volume info.msgBox

def Within (c : ErrMonitor) (s : State) : Prop := ∀ dm, ∀ info ∈ s.domain.find? dm, info.msgBoxSize ≤ c.emailVolume

def Small (c : ErrMonitor) : Event → Prop
  | .onAddError _ error _ msg => Registered c error → msg.length ≤ c.emailVolume
  | .exceededResetTimeout _ => True

/-- The next error of the domain is mailed with its box. -/
def MailDue (c : ErrMonitor) (now : Int) (info : TDomInfo) : Prop :=
  Overflows c info ∧ c.emailErrorTimeout ≤ difftime now info.tm

/-- Without its oldest message the box has room for the one that comes, unless they are mailed. -/
def Room (c : ErrMonitor) (s : State) : Event → Prop
  | .onAddError now error dm msg => Registered c error → ∀ info ∈ s.domain.find? dm,
      MailDue c now info ∨ msg.length + (info.msgBoxSize - oldest info.msgBox) ≤ c.emailVolume
  | .exceededResetTimeout _ => True

section Box

variable {c : ErrMonitor} {mktime : Int → Int} {now : Int} {msg : Str}

theorem volume_concat (box : List Str) (msg : Str) : volume (box ++ [msg]) = volume box + msg.length := by
  rw [volume, volume, List.map_append, List.sum_append, List.map_singleton, List.sum_singleton]
  exact Int.natCast_add _ _

theorem volume_tail (box : List Str) : volume box.tail = volume box - oldest box := by
  cases box with
  | nil => rfl
  | cons it box =>
      rw [volume, volume, oldest, List.tail_cons, List.map_cons, List.sum_cons]
      omega

theorem oldest_nonneg (box : List Str) : 0 ≤ oldest box := by
  cases box with
  | nil => exact le_rfl
  | cons it box => exact Int.natCast_nonneg _

theorem pushBack_eq (info : TDomInfo) : pushBack c info msg =
    if c.emailVolume < msg.length + info.msgBoxSize then
      { info with msgBoxSize := info.msgBoxSize - oldest info.msgBox, msgBox := info.msgBox.tail ++ [msg] }
    else { info with msgBox := info.msgBox ++ [msg] } := by
  rw [pushBack]
  split
  · cases hbox : info.msgBox with
    | nil =>
        rw [oldest, Int.sub_zero]
        exact congrArg (fun box => { info with msgBox := box ++ [msg] }) hbox
    | cons it box => rfl
  · rfl

theorem pushBack_sized {info : TDomInfo} (h : info.msgBoxSize = volume info.msgBox) :
    (pushBack c info msg).msgBoxSize + msg.length = volume (pushBack c info msg).msgBox := by
  rw [pushBack_eq]
  split
  · rw [volume_concat, volume_tail, h]
  · rw [volume_concat, h]

theorem pushBack_within (info : TDomInfo) : (pushBack c info msg).msgBoxSize + msg.length ≤ c.emailVolume ↔
    msg.length + (info.msgBoxSize - oldest info.msgBox) ≤ c.emailVolume := by
  have holdest := oldest_nonneg info.msgBox
  rw [pushBack_eq]
  split
  · rw [Int.add_comm]
  · dsimp only
    omega

theorem addError_mailed {old : TDomInfo} (h : MailDue c now old) :
    (addError c mktime now msg (some old)).1.msgBox = [] ∧ (addError c mktime now msg (some old)).1.msgBoxSize = 0 := by
  simp only [addError, counterOverflow_of_overflows c h.1, exceededEmailTimeout, h.2, and_self, if_true]

theorem addError_boxed {old : TDomInfo} (h : ¬ MailDue c now old) : ∃ info : TDomInfo,
    info.msgBox = old.msgBox ∧ info.msgBoxSize = old.msgBoxSize ∧
      (addError c mktime now msg (some old)).1.msgBox = (pushBack c info msg).msgBox ∧
      (addError c mktime now msg (some old)).1.msgBoxSize = (pushBack c info msg).msgBoxSize + msg.length := by
  by_cases hover : Overflows c old
  · have htimeout : ¬ c.emailErrorTimeout ≤ difftime now old.tm := fun htimeout => h ⟨hover, htimeout⟩
    refine ⟨{ old with overflow := true, counter := 0 }, rfl, rfl, ?_⟩
    simp only [addError, counterOverflow_of_overflows c hover, exceededEmailTimeout, htimeout, and_false, if_false,
      Bool.false_eq_true, and_self]
  · refine ⟨{ old with overflow := false, counter := old.counter }, rfl, rfl, ?_⟩
    simp only [addError, counterOverflow_of_not_overflows c hover, exceededEmailTimeout, Bool.false_eq_true,
      false_and, if_false, and_self]

theorem addError_sized {old : Option TDomInfo} (h : ∀ info ∈ old, info.msgBoxSize = volume info.msgBox) :
    (addError c mktime now msg old).1.msgBoxSize = volume (addError c mktime now msg old).1.msgBox := by
  cases old with
  | none => exact @pushBack_sized c msg (newInfo mktime now) rfl
  | some old =>
      by_cases hdue : MailDue c now old
      · obtain ⟨hbox, hsize⟩ := @addError_mailed c mktime now msg old hdue
        rw [hbox, hsize]
        rfl
      · obtain ⟨info, hbox, hsize, hbox', hsize'⟩ := @addError_boxed c mktime now msg old hdue
        rw [hbox', hsize', pushBack_sized (by rw [hbox, hsize, h old rfl])]

theorem addError_within {old : Option TDomInfo} (hsmall : msg.length ≤ c.emailVolume) :
    (addError c mktime now msg old).1.msgBoxSize ≤ c.emailVolume ↔ ∀ info ∈ old,
      MailDue c now info ∨ msg.length + (info.msgBoxSize - oldest info.msgBox) ≤ c.emailVolume := by
  cases old with
  | none =>
      refine iff_of_true ?_ fun info hinfo => nomatch hinfo
      apply (pushBack_within (newInfo mktime now)).mpr
      simpa [newInfo, oldest] using hsmall
  | some old =>
      simp only [Option.mem_def, Option.some.injEq, forall_eq']
      by_cases hdue : MailDue c now old
      · obtain ⟨-, hsize⟩ := @addError_mailed c mktime now msg old hdue
        rw [hsize]
        refine iff_of_true ?_ (.inl hdue)
        omega
      · obtain ⟨info, hbox, hsize, -, hsize'⟩ := @addError_boxed c mktime now msg old hdue
        rw [hsize', pushBack_within, hbox, hsize]
        exact (or_iff_right hdue).symm

end Box

section Runs

variable {c : ErrMonitor} {mktime : Int → Int}

theorem sized_step (s : State) (e : Event) (h : Sized s) : Sized (step c mktime s e) := by
  cases e with
  | onAddError now error dm msg =>
      by_cases hregistered : Registered c error
      · intro d info hinfo
        rw [step, onAddError, if_pos hregistered] at hinfo
        rcases SortedMap.find?_insert_cases hinfo with ⟨rfl, rfl⟩ | ⟨-, hold⟩
        · exact addError_sized (h d)
        · exact h d info hold
      · rw [step, onAddError_of_not s hregistered]
        exact h
  | exceededResetTimeout now => exact fun d info hinfo => h d info (find?_exceededResetTimeout hinfo)

/-- An error keeps the boxes within their volume exactly if its own has room. -/
theorem within_step_iff (s : State) (e : Event) (h : Within c s) (hsmall : Small c e) :
    Within c (step c mktime s e) ↔ Room c s e := by
  cases e with
  | onAddError now error dm msg =>
      by_cases hregistered : Registered c error
      · have hbox := @addError_within c mktime now msg (s.domain.find? dm) (hsmall hregistered)
        rw [step, onAddError, if_pos hregistered]
        constructor
        · intro hwithin _
          exact hbox.mp (hwithin dm _ (SortedMap.find?_insert_self _ _ _))
        · intro hroom d info hinfo
          rcases SortedMap.find?_insert_cases hinfo with ⟨rfl, rfl⟩ | ⟨-, hold⟩
          · exact hbox.mpr (hroom hregistered)
          · exact h d info hold
      · rw [step, onAddError_of_not s hregistered]
        exact iff_of_true h fun hreg => absurd hreg hregistered
  | exceededResetTimeout now =>
      exact iff_of_true (fun d info hinfo => h d info (find?_exceededResetTimeout hinfo)) trivial

theorem sized_init : Sized init := fun _ _ hinfo => nomatch hinfo

theorem within_init : Within c init := fun _ _ hinfo => nomatch hinfo

/-- The size of every box is right in every run. The boxes stay within the volume all along exactly if at each error
the box of its domain has room, once the oldest message is out. -/
theorem run_within_iff (c : ErrMonitor) (mktime : Int → Int) (es : List Event) (hsmall : ∀ e ∈ es, Small c e) :
    (∀ fs gs, es = fs ++ gs → Sized (run (step c mktime) init fs)) ∧
      ((∀ fs gs, es = fs ++ gs → Within c (run (step c mktime) init fs)) ↔
        Permitted (step c mktime) (Room c) init es) :=
  ⟨fun fs _ _ => run_invariant_all Sized sized_step sized_init fs,
    always_iff_permitted (Within c) within_step_iff within_init hsmall⟩

/-- Two messages of a character and one as long as the box: of the two, only one goes. -/
theorem not_within : ¬ ∀ (c : ErrMonitor) (mktime : Int → Int) (es : List Event), (∀ e ∈ es, Small c e) →
    ∀ fs gs, es = fs ++ gs → Sized (run (step c mktime) init fs) ∧ Within c (run (step c mktime) init fs) := by
  intro h
  let c : ErrMonitor := ⟨10, 5, 1800, 600, 1024⟩
  let d : Str := ['d']
  let error (msg : Str) : Event := .onAddError 0 6 d msg
  let es := [error ['a'], error ['b'], error (List.replicate 1024 'c')]
  have hsmall : ∀ e ∈ es, Small c e := by
    intro e he
    simp only [es, List.mem_cons, List.not_mem_nil, or_false] at he
    rcases he with rfl | rfl | rfl <;> intro _
    · decide
    · decide
    · rw [List.length_replicate]
      decide
  have hwithin := (h c (fun t => t - 315532800) es hsmall es [] (List.append_nil es).symm).2
  obtain ⟨info, hinfo, hsize⟩ : ∃ info, (run (step c fun t => t - 315532800) init es).domain.find? d = some info ∧
      info.msgBoxSize = 1025 := ⟨_, rfl, by decide +kernel⟩
  have hle := hwithin d info hinfo
  rw [hsize] at hle
  exact absurd hle (by decide)

theorem run_within_demo :
    (∀ fs gs, [Event.onAddError 0 6 ['d'] ['a'], .exceededResetTimeout 60] = fs ++ gs →
      Sized (run (step ⟨10, 5, 1800, 600, 1024⟩ fun t => t - 315532800) init fs)) ∧
    ((∀ fs gs, [Event.onAddError 0 6 ['d'] ['a'], .exceededResetTimeout 60] = fs ++ gs →
      Within ⟨10, 5, 1800, 600, 1024⟩ (run (step ⟨10, 5, 1800, 600, 1024⟩ fun t => t - 315532800) init fs)) ↔
      Permitted (step ⟨10, 5, 1800, 600, 1024⟩ fun t => t - 315532800) (Room ⟨10, 5, 1800, 600, 1024⟩) init
        [.onAddError 0 6 ['d'] ['a'], .exceededResetTimeout 60]) :=
  run_within_iff _ _ _ (by simp [Small])

end Runs

end RadioServices.Logger.AlertBox

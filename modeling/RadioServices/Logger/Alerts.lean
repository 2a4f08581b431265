import RadioServices.Logger.ErrorMonitor

namespace RadioServices.Logger.Alerts

open Lib Lib.C Lib.Runs ErrorMonitor

variable {c : ErrMonitor} {mktime : Int → Int}

theorem onAddError_cases (mktime : Int → Int) {now error : Int} {dm : Str} (msg : Str) (s : State)
    (h : Registered c error) :
    ∃ info mailed, Added c now (s.domain.find? dm) info mailed ∧
      onAddError c mktime now error dm msg s = ⟨s.domain.insert dm info, ⟨dm, now, mailed⟩ :: s.log⟩ := by
  refine ⟨_, _, added_addError c mktime now msg (s.domain.find? dm), ?_⟩
  rw [onAddError, if_pos h]

theorem onAddError_of_not {now error : Int} {dm msg : Str} (s : State) (h : ¬ Registered c error) :
    onAddError c mktime now error dm msg s = s := if_neg h

theorem find?_exceededResetTimeout {now : Int} {s : State} {dm : Str} {info : TDomInfo}
    (h : (exceededResetTimeout c now s).domain.find? dm = some info) : s.domain.find? dm = some info := by
  rw [exceededResetTimeout, SortedMap.find?_filter] at h
  exact (Option.filter_eq_some_iff.mp h).1

section Threshold

def errorsSince (dm : Str) (log : List Entry) : Nat :=
  ((log.filter fun x => x.domain = dm).takeWhile fun x => !x.mailed).length

def Mailed (dm : Str) (x : Entry) : Prop := x.domain = dm ∧ x.mailed = true

/-- From a mail of a domain up to its next, enough errors were added. -/
def Threshold (c : ErrMonitor) (log : List Entry) : Prop :=
  ∀ x before, x :: before <:+ log → x.mailed = true → (∃ y ∈ before, Mailed x.domain y) →
    c.errorCounter ≤ errorsSince x.domain before + 1

/-- No error comes when the counter is 0 without an overflow, unless one error
is enough. -/
def Counted (c : ErrMonitor) (s : State) : Event → Prop
  | .onAddError _ error dm _ =>
      Registered c error → ∀ info ∈ s.domain.find? dm,
        info.overflow = false → info.counter = 0 → c.errorCounter ≤ 1
  | .exceededResetTimeout _ => True

/-- The counter of a domain counts no more errors than there were since its mail. -/
def Counts (c : ErrMonitor) (errors : Nat) (info : TDomInfo) : Prop :=
  if info.overflow = true then c.errorCounter ≤ errors + 1 else info.counter ≤ errors

structure CountInv (c : ErrMonitor) (s : State) : Prop where
  counts : ∀ dm, ∀ info ∈ s.domain.find? dm, Counts c (errorsSince dm s.log) info
  threshold : Threshold c s.log

theorem errorsSince_cons_of_ne {dm : Str} {x : Entry} (h : x.domain ≠ dm) (log : List Entry) :
    errorsSince dm (x :: log) = errorsSince dm log := by
  rw [errorsSince, List.filter_cons_of_neg (by simpa using h), errorsSince]

theorem errorsSince_cons_self (dm : Str) (now : Int) (mailed : Bool) (log : List Entry) :
    errorsSince dm (⟨dm, now, mailed⟩ :: log) = if mailed = true then 0 else errorsSince dm log + 1 := by
  cases mailed <;> simp [errorsSince]

theorem threshold_cons {x : Entry} {log : List Entry} (h : Threshold c log)
    (hx : x.mailed = true → c.errorCounter ≤ errorsSince x.domain log + 1) : Threshold c (x :: log) := by
  intro y before hsuffix hmailed hearlier
  rcases List.suffix_cons_iff.mp hsuffix with heq | hsuffix
  · obtain ⟨rfl, rfl⟩ := List.cons.inj heq
    exact hx hmailed
  · exact h y before hsuffix hmailed hearlier

theorem enough_of_overflows {errors : Nat} {info : TDomInfo} (h : Counts c errors info)
    (hover : Overflows c info) (hzero : info.overflow = false → info.counter = 0 → c.errorCounter ≤ 1) :
    c.errorCounter ≤ errors + 1 := by
  rw [Counts] at h
  cases hoverflow : info.overflow with
  | true => rwa [if_pos hoverflow] at h
  | false =>
      rw [if_neg (by simp [hoverflow])] at h
      rcases hover with hover | hover | hover
      · rw [hoverflow] at hover
        cases hover
      · omega
      · have := hzero hoverflow hover
        omega

theorem counts_added {errors : Nat} {now : Int} {old : Option TDomInfo} {info : TDomInfo} {mailed : Bool}
    (hadded : Added c now old info mailed) (h : ∀ info ∈ old, Counts c errors info)
    (hzero : ∀ info ∈ old, info.overflow = false → info.counter = 0 → c.errorCounter ≤ 1) :
    Counts c (if mailed = true then 0 else errors + 1) info ∧
      (mailed = true → c.errorCounter ≤ errors + 1) := by
  cases hadded with
  | first info hcounter hoverflow =>
      refine ⟨?_, Bool.noConfusion⟩
      simp [Counts, hoverflow, hcounter]
  | mailed old info hover htimeout hcounter hoverflow =>
      refine ⟨?_, fun _ => enough_of_overflows (h old rfl) hover (hzero old rfl)⟩
      simp [Counts, hoverflow, hcounter]
  | waiting old info hover hcounter hoverflow =>
      have henough := enough_of_overflows (h old rfl) hover (hzero old rfl)
      refine ⟨?_, Bool.noConfusion⟩
      simp only [Counts, hoverflow, if_true, Bool.false_eq_true, if_false]
      omega
  | counted old info hover hcounter hoverflow =>
      have hold := h old rfl
      have hnot : old.overflow ≠ true := fun hover' => hover (.inl hover')
      rw [Counts, if_neg hnot] at hold
      refine ⟨?_, Bool.noConfusion⟩
      simp only [Counts, hoverflow, hcounter, Bool.false_eq_true, if_false]
      omega

theorem countInv_step (s : State) (e : Event) (h : CountInv c s) (hcounted : Counted c s e) :
    CountInv c (step c mktime s e) := by
  cases e with
  | onAddError now error dm msg =>
      by_cases hregistered : Registered c error
      · obtain ⟨info, mailed, hadded, hstep⟩ := onAddError_cases mktime msg s hregistered
        obtain ⟨hcounts, henough⟩ := counts_added hadded (h.counts dm) (hcounted hregistered)
        rw [step, hstep]
        refine ⟨fun d i hi => ?_, threshold_cons h.threshold henough⟩
        change (s.domain.insert dm info).find? d = some i at hi
        change Counts c (errorsSince d (⟨dm, now, mailed⟩ :: s.log)) i
        rcases SortedMap.find?_insert_cases hi with ⟨rfl, rfl⟩ | ⟨hd, hold⟩
        · rw [errorsSince_cons_self]
          exact hcounts
        · rw [errorsSince_cons_of_ne (Ne.symm hd)]
          exact h.counts d i hold
      · rw [step, onAddError_of_not s hregistered]
        exact h
  | exceededResetTimeout now =>
      exact ⟨fun d i hi => h.counts d i (find?_exceededResetTimeout hi), h.threshold⟩

/-- Unless an error meets a counter of 0, mails of a domain are the set number of errors apart. -/
theorem run_threshold {es : List Event} (h : Permitted (step c mktime) (Counted c) init es) :
    Threshold c (run (step c mktime) init es).log := by
  have hinit : CountInv c init := by
    constructor
    · intro dm info hinfo
      cases hinfo
    · intro x before hsuffix
      cases List.suffix_nil.mp hsuffix
  exact (run_invariant (CountInv c) countInv_step hinit h).threshold

/-- Two errors make a mail, then one error that comes late enough. -/
theorem not_threshold : ¬ ∀ (c : ErrMonitor) (mktime : Int → Int) (es : List Event),
    Threshold c (run (step c mktime) init es).log := by
  intro h
  let c : ErrMonitor := ⟨2, 5, 1800, 600, 1024⟩
  let error (now : Int) : Event := .onAddError now 6 "shop".toList "failed".toList
  let d : Str := "shop".toList
  have hlog : (run (step c fun t => t - 315532800) init [error 0, error 0, error 0, error 600]).log =
      [⟨d, 600, true⟩, ⟨d, 0, true⟩, ⟨d, 0, false⟩, ⟨d, 0, false⟩] := by decide +kernel
  have hthreshold := h c (fun t => t - 315532800) [error 0, error 0, error 0, error 600]
  rw [hlog] at hthreshold
  have hcount := hthreshold _ _ List.suffix_rfl rfl ⟨⟨d, 0, true⟩, List.mem_cons_self, rfl, rfl⟩
  exact absurd hcount (by decide)

instance decidableCounted (c : ErrMonitor) (s : State) (e : Event) : Decidable (Counted c s e) :=
  match e with
  | .onAddError _ error dm _ =>
      inferInstanceAs (Decidable (Registered c error → ∀ info ∈ s.domain.find? dm,
        info.overflow = false → info.counter = 0 → c.errorCounter ≤ 1))
  | .exceededResetTimeout _ => .isTrue trivial

/-- Three errors make a mail, the tick erases the record, and three more make the next mail. -/
theorem run_threshold_demo :
    Threshold ⟨2, 5, 1800, 600, 1024⟩ (run (step ⟨2, 5, 1800, 600, 1024⟩ fun t => t - 315532800) init
      [.onAddError 0 6 "a".toList "x".toList, .onAddError 0 6 "a".toList "x".toList,
        .onAddError 0 6 "a".toList "x".toList, .exceededResetTimeout 1800,
        .onAddError 1801 6 "a".toList "x".toList, .onAddError 1801 6 "a".toList "x".toList,
        .onAddError 1802 6 "a".toList "x".toList]).log :=
  run_threshold (by decide +kernel)

end Threshold

section Rate

def RateLimited (c : ErrMonitor) (log : List Entry) : Prop :=
  log.Pairwise fun y x => y.domain = x.domain → y.mailed = true → x.mailed = true →
    c.emailErrorTimeout ≤ difftime y.now x.now

/-- The tick erases no record of a mail that is not old enough. -/
def KeepsMailed (c : ErrMonitor) (s : State) : Event → Prop
  | .onAddError _ _ _ _ => True
  | .exceededResetTimeout now => ∀ e ∈ s.domain.entries, e.2.firstOwerflow = false →
      c.resetErrorTimeout ≤ difftime now e.2.tm → c.emailErrorTimeout ≤ difftime now e.2.tm

/-- A mail of the time `tm` is held in the record, or is old enough. -/
def Kept (c : ErrMonitor) (now : Int) (old : Option TDomInfo) (tm : Int) : Prop :=
  (∃ info ∈ old, info.firstOwerflow = false ∧ tm ≤ info.tm) ∨ c.emailErrorTimeout ≤ difftime now tm

structure RateInv (c : ErrMonitor) (now : Int) (s : State) : Prop where
  kept : ∀ x ∈ s.log, x.mailed = true → Kept c now (s.domain.find? x.domain) x.now
  rate : RateLimited c s.log

theorem difftime_mono {now now' tm tm' : Int} (hnow : now ≤ now') (htm : tm' ≤ tm) :
    difftime now tm ≤ difftime now' tm' := by
  rw [difftime, difftime, Int.cast_le]
  omega

theorem Kept.mono {now now' tm : Int} {old : Option TDomInfo} (h : Kept c now old tm) (hnow : now ≤ now') :
    Kept c now' old tm := h.imp_right fun hold => hold.trans (difftime_mono hnow le_rfl)

theorem kept_added {now tm : Int} {old : Option TDomInfo} {info : TDomInfo} {mailed : Bool}
    (hadded : Added c now old info mailed) (h : Kept c now old tm) :
    Kept c now (some info) tm ∧ (mailed = true → c.emailErrorTimeout ≤ difftime now tm) := by
  rcases h with ⟨old', hmem, hfirst', htm'⟩ | h
  · cases hadded with
    | first info => cases hmem
    | mailed old info hover htimeout =>
        cases hmem
        have hold := htimeout.trans (difftime_mono le_rfl htm')
        exact ⟨.inr hold, fun _ => hold⟩
    | waiting old info hover hcounter hoverflow hfirst htm =>
        cases hmem
        exact ⟨.inl ⟨info, rfl, hfirst.trans hfirst', htm ▸ htm'⟩, Bool.noConfusion⟩
    | counted old info hover hcounter hoverflow hfirst htm =>
        cases hmem
        exact ⟨.inl ⟨info, rfl, hfirst.trans hfirst', htm ▸ htm'⟩, Bool.noConfusion⟩
  · exact ⟨.inr h, fun _ => h⟩

theorem kept_of_mailed {now : Int} {old : Option TDomInfo} {info : TDomInfo}
    (hadded : Added c now old info true) : Kept c now (some info) now := by
  cases hadded with
  | mailed old info hover htimeout hcounter hoverflow hfirst htm =>
      exact .inl ⟨info, rfl, hfirst, htm.ge⟩

theorem rateInv_step {s : State} {e : Event} (h : RateInv c e.now s) (hkeeps : KeepsMailed c s e) :
    RateInv c e.now (step c mktime s e) := by
  cases e with
  | onAddError now error dm msg =>
      by_cases hregistered : Registered c error
      · obtain ⟨info, mailed, hadded, hstep⟩ := onAddError_cases mktime msg s hregistered
        rw [step, hstep]
        refine ⟨fun x hx hmailed => ?_, List.pairwise_cons.mpr ⟨fun x hx hdm hnew hold => ?_, h.rate⟩⟩
        · change Kept c now ((s.domain.insert dm info).find? x.domain) x.now
          rw [SortedMap.find?_insert]
          rcases List.mem_cons.mp hx with rfl | hx
          · rw [if_pos rfl]
            have hnew : mailed = true := hmailed
            exact kept_of_mailed (hnew ▸ hadded)
          · have hkept := h.kept x hx hmailed
            split
            · rename_i hdm
              exact (kept_added hadded (hdm ▸ hkept)).1
            · exact hkept
        · have hkept := h.kept x hx hold
          rw [← hdm] at hkept
          exact (kept_added hadded hkept).2 hnew
      · rw [step, onAddError_of_not s hregistered]
        exact h
  | exceededResetTimeout now =>
      refine ⟨fun x hx hmailed => ?_, h.rate⟩
      change Kept c now ((s.domain.filter _).find? x.domain) x.now
      rw [SortedMap.find?_filter]
      rcases h.kept x hx hmailed with ⟨info, hinfo, hfirst, htm⟩ | hold
      · by_cases hlt : difftime now info.tm < c.resetErrorTimeout
        · exact .inl ⟨info, Option.filter_eq_some_iff.mpr ⟨hinfo, decide_eq_true hlt⟩, hfirst, htm⟩
        · have hmem := SortedMap.mem_entries_of_find? hinfo
          have hold := hkeeps _ hmem hfirst (not_lt.mp hlt)
          exact .inr (hold.trans (difftime_mono le_rfl htm))
      · exact .inr hold

theorem rateInv_run {now : Int} {s : State} {es : List Event} (h : RateInv c now s)
    (hnow : ∀ e ∈ es, now ≤ e.now) (htimes : es.Pairwise fun e f => e.now ≤ f.now)
    (hkeeps : Permitted (step c mktime) (KeepsMailed c) s es) :
    RateLimited c (run (step c mktime) s es).log := by
  induction es generalizing now s with
  | nil => exact h.rate
  | cons e es ih =>
      obtain ⟨hfirst, htail⟩ := List.pairwise_cons.mp htimes
      have he := hnow e List.mem_cons_self
      have hinv : RateInv c e.now s := ⟨fun x hx hmailed => (h.kept x hx hmailed).mono he, h.rate⟩
      exact ih (rateInv_step hinv hkeeps.1) hfirst htail hkeeps.2

/-- With times that do not go back and no tick that forgets a recent mail, the
mails of a domain are the set time apart. -/
theorem run_rateLimited {es : List Event} (htimes : es.Pairwise fun e f => e.now ≤ f.now)
    (h : Permitted (step c mktime) (KeepsMailed c) init es) :
    RateLimited c (run (step c mktime) init es).log := by
  cases es with
  | nil => exact .nil
  | cons e es =>
      have hinit : RateInv c e.now init := ⟨fun x hx => absurd hx List.not_mem_nil, .nil⟩
      refine rateInv_run hinit (fun f hf => ?_) htimes h
      rcases List.mem_cons.mp hf with rfl | hf
      · exact le_rfl
      · exact (List.pairwise_cons.mp htimes).1 f hf

instance decidableKeepsMailed (c : ErrMonitor) (s : State) (e : Event) : Decidable (KeepsMailed c s e) :=
  match e with
  | .onAddError _ _ _ _ => .isTrue trivial
  | .exceededResetTimeout now =>
      inferInstanceAs (Decidable (∀ e ∈ s.domain.entries, e.2.firstOwerflow = false →
        c.resetErrorTimeout ≤ difftime now e.2.tm → c.emailErrorTimeout ≤ difftime now e.2.tm))

/-- It is enough that records are kept as long as mails are to be apart. -/
theorem keepsMailed_of_le (hle : c.emailErrorTimeout ≤ c.resetErrorTimeout) (es : List Event) :
    Permitted (step c mktime) (KeepsMailed c) init es := by
  apply permitted_iff.mpr
  intro fs e gs _
  cases e with
  | onAddError => trivial
  | exceededResetTimeout now => exact fun e _ _ hreset => hle.trans hreset

/-- Between two mails a tick comes too early for the record, and one erases it when the mail is old enough. -/
theorem run_rateLimited_demo :
    RateLimited ⟨1, 5, 60, 180, 1024⟩ (run (step ⟨1, 5, 60, 180, 1024⟩ fun t => t - 315532800) init
      [.onAddError 0 6 "a".toList "x".toList, .onAddError 0 6 "a".toList "x".toList, .exceededResetTimeout 30,
        .exceededResetTimeout 180, .onAddError 181 6 "a".toList "x".toList,
        .onAddError 182 6 "a".toList "x".toList]).log :=
  run_rateLimited (by simp [Event.now]) (by decide +kernel)

/-- With the times of the sample configuration the record is erased two minutes
before the next mail is due. -/
theorem not_rateLimited : ¬ ∀ (c : ErrMonitor) (mktime : Int → Int) (es : List Event),
    0 < c.resetErrorTimeout → 0 < c.emailErrorTimeout → (es.Pairwise fun e f => e.now ≤ f.now) →
      RateLimited c (run (step c mktime) init es).log := by
  intro h
  let c : ErrMonitor := ⟨1, 5, 60, 180, 1024⟩
  let d : Str := "shop".toList
  let error (now : Int) : Event := .onAddError now 6 d "failed".toList
  let es := [error 0, error 0, .exceededResetTimeout 60, error 61, error 61]
  have hlog : (run (step c fun t => t - 315532800) init es).log =
      [⟨d, 61, true⟩, ⟨d, 61, false⟩, ⟨d, 0, true⟩, ⟨d, 0, false⟩] := by decide +kernel
  have hrate := h c (fun t => t - 315532800) es (by decide) (by decide) (by decide)
  rw [hlog] at hrate
  have htimeout := (List.pairwise_cons.mp hrate).1 ⟨d, 0, true⟩ (by simp) rfl rfl rfl
  exact absurd htimeout (by decide)

end Rate

end RadioServices.Logger.Alerts

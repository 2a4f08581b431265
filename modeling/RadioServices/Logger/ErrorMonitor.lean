import RadioServices.Lib.CString
import RadioServices.Lib.Runs
import RadioServices.Lib.SortedMap
import Mathlib.Data.String.Basic
import Mathlib.Data.List.Lex
import Mathlib.Algebra.Order.Ring.Cast
import Mathlib.Algebra.Order.Ring.Rat

namespace RadioServices.Logger.ErrorMonitor

open Lib Lib.C Lib.Runs

structure ErrMonitor where
  errorCounter : Int
  registeredErrorLevel : Int
  resetErrorTimeout : ℚ
  emailErrorTimeout : ℚ
  emailVolume : Int

structure TDomInfo where
  counter : Int
  tm : Int
  overflow : Bool
  firstOwerflow : Bool
  msgBoxSize : Int
  msgBox : List Str

abbrev MapDomain := SortedMap Str TDomInfo

def difftime (now tm : Int) : ℚ := ((now - tm : Int) : ℚ)

/-- The verdict of `counter_overflow` and the counter after it. -/
def counterOverflow (c : ErrMonitor) (isOverflow : Bool) (value : Int) : Bool × Int :=
  let value := if isOverflow = true ∨ c.errorCounter ≤ value then 0 else value
  (decide (value = 0), value)

def exceededEmailTimeout (c : ErrMonitor) (now : Int) (m : TDomInfo) : Bool × TDomInfo :=
  if m.overflow = true ∧ c.emailErrorTimeout ≤ difftime now m.tm then
    (true, { m with overflow := false, firstOwerflow := false, tm := now })
  else (false, m)

/-- The record of a domain that has none. `mktime` gives the time ten years back. -/
def newInfo (mktime : Int → Int) (now : Int) : TDomInfo := ⟨0, mktime now, false, true, 0, []⟩

/-- Of a full box the oldest message goes. -/
def pushBack (c : ErrMonitor) (info : TDomInfo) (msg : Str) : TDomInfo :=
  let info :=
    if c.emailVolume < msg.length + info.msgBoxSize then
      match info.msgBox with
      | [] => info
      | it :: box => { info with msgBoxSize := info.msgBoxSize - it.length, msgBox := box }
    else info
  { info with msgBox := info.msgBox ++ [msg] }

def sendEmail (box : List Str) : Option (List Str) := if box = [] then none else some box

def Registered (c : ErrMonitor) (error : Int) : Prop := error ≠ 0 ∧ c.registeredErrorLevel < error

instance instDecidableRegistered (c : ErrMonitor) (error : Int) : Decidable (Registered c error) :=
  inferInstanceAs (Decidable (_ ∧ _))

def addError (c : ErrMonitor) (mktime : Int → Int) (now : Int) (msg : Str) (old : Option TDomInfo) :
    TDomInfo × Option (List Str) :=
  let (flEmail, info) := match old with
    | some info =>
        let (overflow, counter) := counterOverflow c info.overflow info.counter
        exceededEmailTimeout c now { info with overflow := overflow, counter := counter }
    | none => (false, newInfo mktime now)
  let info := pushBack c info msg
  if flEmail = true then
    ({ info with msgBox := [], counter := 0, msgBoxSize := 0 }, sendEmail info.msgBox)
  else ({ info with counter := info.counter + 1, msgBoxSize := info.msgBoxSize + msg.length }, none)

/-- A registered error: its domain, its time and whether a mail was sent. -/
structure Entry where
  domain : Str
  now : Int
  mailed : Bool
  deriving DecidableEq

structure State where
  domain : MapDomain
  log : List Entry

def init : State := ⟨.empty, []⟩

def onAddError (c : ErrMonitor) (mktime : Int → Int) (now error : Int) (dm msg : Str) (s : State) : State :=
  if Registered c error then
    let (info, mail) := addError c mktime now msg (s.domain.find? dm)
    ⟨s.domain.insert dm info, ⟨dm, now, mail.isSome⟩ :: s.log⟩
  else s

def exceededResetTimeout (c : ErrMonitor) (now : Int) (s : State) : State :=
  { s with domain := s.domain.filter fun e => decide (difftime now e.2.tm < c.resetErrorTimeout) }

inductive Event
  | onAddError (now error : Int) (dm msg : Str)
  | exceededResetTimeout (now : Int)

def Event.now : Event → Int
  | .onAddError now _ _ _ => now
  | .exceededResetTimeout now => now

def step (c : ErrMonitor) (mktime : Int → Int) (s : State) : Event → State
  | .onAddError now error dm msg => onAddError c mktime now error dm msg s
  | .exceededResetTimeout now => exceededResetTimeout c now s

def Overflows (c : ErrMonitor) (info : TDomInfo) : Prop :=
  info.overflow = true ∨ c.errorCounter ≤ info.counter ∨ info.counter = 0

/-- What a registered error does to the record of its domain, and whether it is mailed. -/
inductive Added (c : ErrMonitor) (now : Int) : Option TDomInfo → TDomInfo → Bool → Prop
  | first (info : TDomInfo) (hcounter : info.counter = 1) (hoverflow : info.overflow = false)
      (hfirst : info.firstOwerflow = true) : Added c now none info false
  | mailed (old info : TDomInfo) (hover : Overflows c old)
      (htimeout : c.emailErrorTimeout ≤ difftime now old.tm) (hcounter : info.counter = 0)
      (hoverflow : info.overflow = false) (hfirst : info.firstOwerflow = false) (htm : info.tm = now) :
      Added c now (some old) info true
  | waiting (old info : TDomInfo) (hover : Overflows c old) (hcounter : info.counter = 1)
      (hoverflow : info.overflow = true) (hfirst : info.firstOwerflow = old.firstOwerflow)
      (htm : info.tm = old.tm) : Added c now (some old) info false
  | counted (old info : TDomInfo) (hover : ¬ Overflows c old) (hcounter : info.counter = old.counter + 1)
      (hoverflow : info.overflow = false) (hfirst : info.firstOwerflow = old.firstOwerflow)
      (htm : info.tm = old.tm) : Added c now (some old) info false

section Steps

variable (c : ErrMonitor) (mktime : Int → Int) (now : Int)

theorem pushBack_fields (info : TDomInfo) (msg : Str) :
    (pushBack c info msg).counter = info.counter ∧ (pushBack c info msg).tm = info.tm ∧
      (pushBack c info msg).overflow = info.overflow ∧
      (pushBack c info msg).firstOwerflow = info.firstOwerflow ∧ (pushBack c info msg).msgBox ≠ [] := by
  simp only [pushBack]
  split
  · cases info.msgBox <;> simp
  · simp

theorem counterOverflow_of_overflows {info : TDomInfo} (h : Overflows c info) :
    counterOverflow c info.overflow info.counter = (true, 0) := by
  rw [counterOverflow]
  by_cases hover : info.overflow = true ∨ c.errorCounter ≤ info.counter
  · rw [if_pos hover]
    rfl
  · rw [if_neg hover]
    have hzero : info.counter = 0 := by
      rcases h with h | h | h
      · exact absurd (.inl h) hover
      · exact absurd (.inr h) hover
      · exact h
    rw [hzero]
    rfl

theorem counterOverflow_of_not_overflows {info : TDomInfo} (h : ¬ Overflows c info) :
    counterOverflow c info.overflow info.counter = (false, info.counter) := by
  rw [Overflows, not_or, not_or] at h
  rw [counterOverflow, if_neg (not_or.mpr ⟨h.1, h.2.1⟩), decide_eq_false h.2.2]

theorem isSome_sendEmail {box : List Str} (h : box ≠ []) : (sendEmail box).isSome = true := by
  rw [sendEmail, if_neg h]
  rfl

theorem added_addError (msg : Str) (old : Option TDomInfo) :
    Added c now old (addError c mktime now msg old).1 (addError c mktime now msg old).2.isSome := by
  cases old with
  | none =>
      obtain ⟨hcounter, -, hoverflow, hfirst, -⟩ := pushBack_fields c (newInfo mktime now) msg
      refine .first _ ?_ hoverflow hfirst
      change (pushBack c (newInfo mktime now) msg).counter + 1 = 1
      rw [hcounter]
      rfl
  | some old =>
      by_cases hover : Overflows c old
      · have hcount := counterOverflow_of_overflows c hover
        by_cases htimeout : c.emailErrorTimeout ≤ difftime now old.tm
        · obtain ⟨-, htm, hoverflow, hfirst, hbox⟩ := pushBack_fields c
            { old with overflow := false, counter := 0, firstOwerflow := false, tm := now } msg
          simp only [addError, hcount, exceededEmailTimeout, htimeout, and_self, if_true, isSome_sendEmail hbox]
          exact .mailed old _ hover htimeout rfl hoverflow hfirst htm
        · obtain ⟨hcounter, htm, hoverflow, hfirst, -⟩ := pushBack_fields c
            { old with overflow := true, counter := 0 } msg
          simp only [addError, hcount, exceededEmailTimeout, htimeout, and_false, if_false]
          exact .waiting old _ hover (by rw [hcounter]; rfl) hoverflow hfirst htm
      · obtain ⟨hcounter, htm, hoverflow, hfirst, -⟩ := pushBack_fields c
          { old with overflow := false, counter := old.counter } msg
        simp only [addError, counterOverflow_of_not_overflows c hover, exceededEmailTimeout,
          Bool.false_eq_true, false_and, if_false]
        exact .counted old _ hover (by rw [hcounter]) hoverflow hfirst htm

end Steps

end RadioServices.Logger.ErrorMonitor

import RadioServices.Lib.CString

namespace RadioServices.Rotator

open Lib.C

def HOUR_INTERVAL : Int := 3600

def DEFAULT_DAY : Int := 24

def DEFAULT_TRACK_DURATION : Str := "00:03:00".toList

structure TTimer where
  remainedInterval : Int
  playlistDuration : Int
  hours24 : Int
  defaultTrackDuration : Int

/-- The wall clock at its three readings during construction, each in seconds
since local midnight. -/
structure Clock where
  hourReading : Fin 86400
  intervalReading : Fin 86400
  midnightReading : Fin 86400

def Clock.getCurrentHour (clock : Clock) : Int := (clock.hourReading.val / 3600 : Nat)

def secondsBetweenTimes (reading : Fin 86400) (hour : Int) : Int :=
  (reading.val : Int) - HOUR_INTERVAL * hour

namespace TTimer

/-- `none` where the code reads through a pointer derived from a failed `strchr`. -/
def getSeconds (t : TTimer) : Option Str → Option Int
  | none => some t.defaultTrackDuration
  | some s => do
      let value := i32 (atoi s * 3600)
      let minutes ← strchr s ':'
      let value := value + i32 (atoi minutes.tail * 60)
      let seconds ← strchr minutes.tail ':'
      let value := value + atoi seconds.tail
      return if value = 0 then t.defaultTrackDuration else value

def setInterval (t : TTimer) (counter : Int) : TTimer :=
  { t with remainedInterval := i32 (HOUR_INTERVAL * counter) }

def subRemainedInterval (t : TTimer) (time : Int) : TTimer :=
  { t with remainedInterval := t.remainedInterval - i32 time }

def addPlaylistDuration (t : TTimer) (sec : Int) : TTimer :=
  { t with playlistDuration := t.playlistDuration + i32 sec }

def remainedIntervalOf (t : TTimer) (time : Option Str) : Option TTimer := do
  return t.subRemainedInterval (← t.getSeconds time)

def appendPlaylistDuration (t : TTimer) : Option Str → Option TTimer
  | none => some t
  | some s => do return t.addPlaylistDuration (← t.getSeconds (some s))

def clearPlaylistDuration (t : TTimer) : TTimer := { t with playlistDuration := 0 }

def is24hoursCompleted (t : TTimer) : Bool := t.hours24 ≤ t.playlistDuration

def setGeneralDuration (t : TTimer) : Option Str → Option TTimer
  | none => some { t with hours24 := HOUR_INTERVAL * DEFAULT_DAY }
  | some s => do return { t with hours24 := (← t.getSeconds (some s)) }

def setDefaultTrackDuration (t : TTimer) (s : Str) : Option TTimer := do
  return { t with defaultTrackDuration := (← t.getSeconds (some s)) }

def definePlaylistDuration (t : TTimer) (clock : Clock) (currentHour : Int) : TTimer :=
  (t.subRemainedInterval (secondsBetweenTimes clock.intervalReading currentHour)).addPlaylistDuration
    (secondsBetweenTimes clock.midnightReading 0)

def ValidDuration (s : Str) : Prop :=
  ∃ h₁ h₂ m₁ m₂ s₁ s₂ : Char, (∀ c ∈ [h₁, h₂, m₁, m₂, s₁, s₂], c.isDigit = true) ∧
    s = [h₁, h₂, ':', m₁, m₂, ':', s₁, s₂]

theorem atoi_twoDigits {c d : Char} {rest : Str} (hc : c.isDigit = true) (hd : d.isDigit = true)
    (hrest : NoDigit rest) :
    atoi (c :: d :: rest) = 10 * digitValue c + digitValue d := by
  have hread : strtol ([c, d] ++ rest) = (saturate (decimal [c, d] 0), rest) :=
    strtol_digits (by simp) (by simp [hc, hd]) hrest
  have hc9 := digitValue_le hc
  have hd9 := digitValue_le hd
  have hvalue : saturate (decimal [c, d] 0) = 10 * digitValue c + digitValue d := by
    simp only [decimal, saturate]
    omega
  simp only [List.cons_append, List.nil_append] at hread
  rw [atoi, hread, hvalue]
  exact i32_of_bounds (by omega) (by omega)

theorem noDigit_colon (s : Str) : NoDigit (':' :: s) := by
  intro c t h
  rw [← (List.cons.inj h).1]
  rfl

theorem strchr_twoDigits {c d : Char} {rest : Str} (hc : c.isDigit = true) (hd : d.isDigit = true) :
    strchr (c :: d :: ':' :: rest) ':' = some (':' :: rest) := by
  have hne {e : Char} (he : e.isDigit = true) : e ≠ ':' := fun h => by rw [h] at he; simp at he
  simp [strchr, hne hc, hne hd]

theorem getSeconds_valid {t : TTimer} {s : Str} (hs : ValidDuration s)
    (hdefault : t.defaultTrackDuration = 180) :
    ∃ sec, t.getSeconds (some s) = some sec ∧ 0 < sec ∧ sec < 2 ^ 31 := by
  obtain ⟨h₁, h₂, m₁, m₂, s₁, s₂, hdigit, rfl⟩ := hs
  simp only [List.mem_cons, List.not_mem_nil, or_false, forall_eq_or_imp, forall_eq] at hdigit
  obtain ⟨hh₁, hh₂, hm₁, hm₂, hs₁, hs₂⟩ := hdigit
  have hnil : NoDigit [] := fun c t h => by simp at h
  have b₁ := digitValue_le hh₁
  have b₂ := digitValue_le hh₂
  have b₃ := digitValue_le hm₁
  have b₄ := digitValue_le hm₂
  have b₅ := digitValue_le hs₁
  have b₆ := digitValue_le hs₂
  simp only [getSeconds, atoi_twoDigits hh₁ hh₂ (noDigit_colon _), strchr_twoDigits hh₁ hh₂,
    Option.bind_eq_bind, Option.bind_some, List.tail_cons, atoi_twoDigits hm₁ hm₂ (noDigit_colon _),
    strchr_twoDigits hm₁ hm₂, atoi_twoDigits hs₁ hs₂ hnil, hdefault, Option.pure_def,
    Option.some.injEq, exists_eq_left']
  rw [i32_of_bounds (by omega) (by omega), i32_of_bounds (by omega) (by omega)]
  split <;> omega

/-- The constructor. No member is read before it is set. -/
def new (str : Option Str) : Option TTimer := do
  let t : TTimer := ⟨HOUR_INTERVAL, 0, 0, 0⟩
  let t ← t.setDefaultTrackDuration DEFAULT_TRACK_DURATION
  t.clearPlaylistDuration.setGeneralDuration str

example : (new none).map TTimer.defaultTrackDuration = some 180 := by decide

example : (new (some "90".toList)).isNone := by decide

end TTimer

end RadioServices.Rotator

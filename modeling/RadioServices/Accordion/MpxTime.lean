import RadioServices.Accordion.MpxCount

namespace RadioServices.Accordion.MpxTime

open Lib.C Mpx MpxCount

/-- The product of two `int`s, `none` where it overflows. -/
def mulInt (a b : Int) : Option Int := if i32 (a * b) = a * b then some (a * b) else none

def divInt (a b : Int) : Option Int := if b = 0 then none else some (a.tdiv b)

/-- The play time of a file, by which its size is divided then. -/
def playTime (fileSize : Nat) (spf sr frame : Int) : Option Int := do
  let samples ← mulInt spf frame
  let playtime ← divInt samples sr
  let _ ← divInt fileSize playtime
  return playtime

structure TimedInfo extends FileInfo where
  playTime : Int

/-- `m_play_time` is left as it is at the call. -/
def getFileInfo (t : Tmpx) (fileExists : Bool) (fopen : Option (List UInt8)) (info : TimedInfo) :
    Option (TimedInfo × Tmpx) :=
  (Mpx.getFileInfo t fileExists fopen info.toFileInfo).map fun r => (⟨r.1, info.playTime⟩, r.2)

section Computation

variable {fileSize : Nat} {spf sr frame time : Int}

theorem mulInt_eq_some {a b c : Int} : mulInt a b = some c ↔ i32 (a * b) = a * b ∧ c = a * b := by
  rw [mulInt]
  split
  · rename_i h
    exact ⟨fun heq => ⟨h, (Option.some.inj heq).symm⟩, fun heq => congrArg some heq.2.symm⟩
  · rename_i h
    exact ⟨fun heq => (nomatch heq), fun heq => absurd heq.1 h⟩

theorem divInt_eq_some {a b c : Int} : divInt a b = some c ↔ b ≠ 0 ∧ c = a.tdiv b := by
  rw [divInt]
  split
  · rename_i h
    exact ⟨fun heq => (nomatch heq), fun heq => absurd h heq.1⟩
  · rename_i h
    exact ⟨fun heq => ⟨h, (Option.some.inj heq).symm⟩, fun heq => congrArg some heq.2.symm⟩

theorem playTime_eq_some :
    playTime fileSize spf sr frame = some time ↔
      i32 (spf * frame) = spf * frame ∧ sr ≠ 0 ∧ time = (spf * frame).tdiv sr ∧ time ≠ 0 := by
  simp only [playTime, Option.bind_eq_bind, Option.bind_eq_some_iff, mulInt_eq_some, divInt_eq_some,
    Option.pure_def, Option.some.injEq]
  constructor
  · rintro ⟨_, ⟨hmul, rfl⟩, _, ⟨hsr, rfl⟩, _, ⟨htime, -⟩, rfl⟩
    exact ⟨hmul, hsr, rfl, htime⟩
  · rintro ⟨hmul, hsr, rfl, htime⟩
    exact ⟨_, ⟨hmul, rfl⟩, _, ⟨hsr, rfl⟩, _, ⟨htime, rfl⟩, rfl⟩

theorem playInfo_of_playTime (t : Tmpx) (info : FileInfo) (fs : File) {header : List UInt8}
    (h : playTime fs.bytes.length (samplesPerFrame header) (samplingRate header) frame = some time) :
    ∃ r, playInfo t info fs header frame = some r ∧ r.1.retValue = 0 := by
  obtain ⟨hmul, -, rfl, htime⟩ := playTime_eq_some.mp h
  rw [playInfo]
  dsimp only
  rw [hmul, if_neg htime]
  exact ⟨_, rfl, rfl⟩

end Computation

section Result

variable {bytes : List UInt8}

/-- The play time is defined, and the one of the frames that were counted. -/
structure PlayTimeRight (f : FirstFrame bytes) (t : Tmpx) (info : TimedInfo) : Prop where
  counter : i32 f.count = f.count
  defined : ∃ time, playTime bytes.length (samplesPerFrame f.header) (samplingRate f.header) (i32 f.count) = some time
  returned : ∀ info' t', getFileInfo t true (some bytes) info = some (info', t') → info'.retValue = 0 →
    info'.playTime = (samplesPerFrame f.header * f.count / samplingRate f.header : Nat)

theorem playTime_natCast (fileSize spf sr count : Nat) (hsr : 0 < sr) (hspf : 0 < spf) :
    (i32 count = count ∧ ∃ time, playTime fileSize spf sr (i32 count) = some time) ↔
      sr ≤ spf * count ∧ spf * count < 2 ^ 31 := by
  simp only [playTime_eq_some]
  constructor
  · rintro ⟨hcounter, time, hmul, _, heq, htime⟩
    rw [hcounter, ← Int.natCast_mul] at hmul heq
    rw [heq] at htime
    have hbound := (i32_bounds (spf * count : Nat)).2
    rw [hmul] at hbound
    rw [← Int.ofNat_tdiv, Int.natCast_ne_zero, Nat.div_ne_zero_iff] at htime
    exact ⟨htime.2, by omega⟩
  · rintro ⟨htime, hbound⟩
    have hle : count ≤ spf * count := Nat.le_mul_of_pos_left _ hspf
    have hcounter : i32 count = count := i32_of_bounds (by omega) (by omega)
    rw [hcounter, ← Int.natCast_mul, ← Int.ofNat_tdiv]
    refine ⟨rfl, _, i32_of_bounds (by omega) (by omega), by omega, rfl, ?_⟩
    rw [Int.natCast_ne_zero, Nat.div_ne_zero_iff]
    exact ⟨Nat.pos_iff_ne_zero.mp hsr, htime⟩

theorem getFileInfo_playTime {t t' : Tmpx} {fileExists : Bool} {fopen : Option (List UInt8)} {info info' : TimedInfo}
    (h : getFileInfo t fileExists fopen info = some (info', t')) : info'.playTime = info.playTime := by
  obtain ⟨r, -, heq⟩ := Option.map_eq_some_iff.mp h
  rw [← (Prod.mk.inj heq).1]

/-- The play time is right if and only if it is a second at least, its product is an `int`, and the argument
has it already at the call. -/
theorem playTimeRight_iff (f : FirstFrame bytes) (t : Tmpx) (info : TimedInfo) :
    PlayTimeRight f t info ↔
      samplingRate f.header ≤ samplesPerFrame f.header * f.count ∧ samplesPerFrame f.header * f.count < 2 ^ 31 ∧
        info.playTime = (samplesPerFrame f.header * f.count / samplingRate f.header : Nat) := by
  have hsr := le_samplingRate f.accepts
  have hspf := (samplesPerFrame_bounds f.header).1
  have hnat := playTime_natCast bytes.length (samplesPerFrame f.header) (samplingRate f.header) f.count (by omega) (by omega)
  constructor
  · rintro ⟨hcounter, hdefined, hreturned⟩
    obtain ⟨htime, hbound⟩ := hnat.mp ⟨hcounter, hdefined⟩
    obtain ⟨time, htime'⟩ := hdefined
    obtain ⟨r, hr, hret⟩ := playInfo_of_playTime t { info.toFileInfo with retValue := -1, frame := 0 }
      ⟨bytes, f.pos⟩ htime'
    have hinfo : getFileInfo t true (some bytes) info = some (⟨r.1, info.playTime⟩, r.2) := by
      rw [getFileInfo, f.getFileInfo_eq, hr, Option.map_some]
    have hplay := hreturned _ _ hinfo hret
    exact ⟨htime, hbound, hplay⟩
  · rintro ⟨htime, hbound, hargument⟩
    obtain ⟨hcounter, hdefined⟩ := hnat.mpr ⟨htime, hbound⟩
    refine ⟨hcounter, hdefined, fun info' t' h _ => ?_⟩
    rw [getFileInfo_playTime h, hargument]

/-- Two frames of 1152 samples at 8 kHz play less than a second. -/
def shortFile : List UInt8 :=
  let frame : List UInt8 := [0xFF, 0xE5, 0x18, 0xC0] ++ List.replicate 140 0
  frame ++ frame

/-- The size of a short file is divided by zero. -/
theorem shortFile_divides_by_zero :
    ¬ ∀ (bytes : List UInt8) (f : FirstFrame bytes) (t : Tmpx) (info : TimedInfo), PlayTimeRight f t info := by
  intro hall
  let f : FirstFrame shortFile := ⟨0, by decide +kernel, by decide +kernel, by decide +kernel⟩
  obtain ⟨time, htime⟩ := (hall shortFile f ⟨none, 0, 0, 0⟩ ⟨⟨0, 0, 0, 0, 0, 0, 0⟩, 0⟩).defined
  have hnone : playTime shortFile.length (samplesPerFrame f.header) (samplingRate f.header) (i32 f.count) = none := by
    decide +kernel
  rw [hnone] at htime
  cases htime

end Result

end RadioServices.Accordion.MpxTime

import RadioServices.Accordion.MpxHeader

namespace RadioServices.Accordion.MpxCount

open Lib.C Mpx

def sizeAt (rest : List UInt8) : Nat := getFrameSize (rest.take cHeaderSize)

/-- The sizes of the frames that are counted. A frame no longer than its header is the last one. -/
def counted : Nat → List UInt8 → List Nat
  | 0, _ => []
  | fuel + 1, rest =>
      if rest.length < cHeaderSize ∨ sizeAt rest = 0 then []
      else if cHeaderSize < sizeAt rest then sizeAt rest :: counted fuel (rest.drop (sizeAt rest))
      else [sizeAt rest]

def frames (rest : List UInt8) : List Nat := counted (rest.length + 1) rest

section Counting

variable {rest : List UInt8}

theorem counted_fuel {fuel fuel' : Nat} (h : rest.length < fuel) (h' : rest.length < fuel') :
    counted fuel rest = counted fuel' rest := by
  induction fuel generalizing fuel' rest with
  | zero => exact absurd h (Nat.not_lt_zero _)
  | succ fuel ih =>
      obtain ⟨fuel', rfl⟩ := Nat.exists_eq_succ_of_ne_zero (Nat.ne_of_gt (Nat.zero_lt_of_lt h'))
      rw [counted, Nat.succ_eq_add_one, counted]
      split
      · rfl
      rename_i hheader
      split
      · rename_i hlong
        have hfour : cHeaderSize = 4 := rfl
        have hdrop : (rest.drop (sizeAt rest)).length < fuel ∧ (rest.drop (sizeAt rest)).length < fuel' := by
          rw [List.length_drop]
          omega
        rw [ih hdrop.1 hdrop.2]
      · rfl

theorem frames_eq_nil (h : rest.length < cHeaderSize ∨ sizeAt rest = 0) : frames rest = [] := by
  rw [frames, counted, if_pos h]

theorem frames_eq_last (hheader : cHeaderSize ≤ rest.length) (hsize : sizeAt rest ≠ 0) (hshort : sizeAt rest ≤ cHeaderSize) :
    frames rest = [sizeAt rest] := by
  rw [frames, counted, if_neg (by omega), if_neg (by omega)]

theorem frames_eq_cons (hheader : cHeaderSize ≤ rest.length) (hlong : cHeaderSize < sizeAt rest) :
    frames rest = sizeAt rest :: frames (rest.drop (sizeAt rest)) := by
  have hfour : cHeaderSize = 4 := rfl
  have hdrop : (rest.drop (sizeAt rest)).length < rest.length := by
    rw [List.length_drop]
    omega
  rw [frames, counted, if_neg (by omega), if_pos hlong, frames, counted_fuel hdrop (Nat.lt_succ_self _)]

theorem sizeAt_le (rest : List UInt8) : sizeAt rest ≤ 2881 := getFrameSize_le _

/-- The loop counts these frames. -/
theorem countFrames_eq {fuel : Nat} {fs : File} {header : List UInt8} (hheader : header.length = cHeaderSize)
    (frame : Int) (h : fs.rest.length < fuel) :
    countFrames fuel fs header (i32 frame) = some (i32 (frame + (frames (header ++ fs.rest)).length)) := by
  induction fuel generalizing fs header frame with
  | zero => exact absurd h (Nat.not_lt_zero _)
  | succ fuel ih =>
      have hsize : sizeAt (header ++ fs.rest) = getFrameSize header := by
        rw [sizeAt, ← hheader, List.take_left]
      have hle := sizeAt_le (header ++ fs.rest)
      have hlength : cHeaderSize ≤ (header ++ fs.rest).length := by
        rw [List.length_append]
        omega
      rw [countFrames]
      dsimp only
      rw [← hsize]
      split
      · rename_i hzero
        rw [frames_eq_nil (.inr (by omega)), List.length_nil, Int.natCast_zero, Int.add_zero]
      rename_i hnonzero
      split
      · rename_i hlong
        have hfour : cHeaderSize = 4 := rfl
        have hseek := rest_fseekCur fs (Nat.le_of_lt hlong)
        have hdrop : (header ++ fs.rest).drop (sizeAt (header ++ fs.rest)) =
            fs.rest.drop (sizeAt (header ++ fs.rest) - cHeaderSize) := by
          rw [List.drop_append, List.drop_eq_nil_of_le (by omega), List.nil_append, hheader]
        rw [frames_eq_cons hlength hlong, hdrop, ← hseek, List.length_cons, i32_add]
        have hfuel : (fs.fseekCur ((sizeAt (header ++ fs.rest) : Int) - cHeaderSize)).rest.length ≤ fuel := by
          rw [hseek, List.length_drop]
          omega
        generalize fs.fseekCur ((sizeAt (header ++ fs.rest) : Int) - cHeaderSize) = behind at hfuel
        have hread : (behind.fread cHeaderSize).1 ++ (behind.fread cHeaderSize).2.rest = behind.rest := by
          rw [File.fread_fst, File.rest_fread, List.take_append_drop]
        have hfirst : (behind.fread cHeaderSize).1.length = min cHeaderSize behind.rest.length := by
          rw [File.fread_fst, List.length_take]
        split
        · rename_i hshort
          rw [frames_eq_nil (.inl (by omega))]
          rfl
        · rename_i hwhole
          have hrest : (behind.fread cHeaderSize).2.rest.length < fuel := by
            rw [File.rest_fread, List.length_drop]
            omega
          rw [ih (by omega) (frame + 1) hrest, hread, Int.natCast_add_one, Int.add_assoc, Int.add_comm 1]
      · rename_i hshort
        rw [frames_eq_last hlength (by omega) (by omega), List.length_singleton, i32_add]
        rfl

end Counting

/-- The first frame of a file, as `mpx_GetFileInfo` finds it. -/
structure FirstFrame (bytes : List UInt8) where
  pos : Nat
  found : (seekTo1Frame ⟨bytes, 0⟩).1 = some pos
  whole : cHeaderSize ≤ (bytes.drop pos).length
  accepted : acceptsFirst ((bytes.drop pos).take cHeaderSize) = true

namespace FirstFrame

variable {bytes : List UInt8} (f : FirstFrame bytes)

def stream : List UInt8 := bytes.drop f.pos

def header : List UInt8 := f.stream.take cHeaderSize

/-- The number of frames. The program keeps it in an `int`. -/
def count : Nat := (frames f.stream).length

theorem seekTo1Frame_eq : seekTo1Frame ⟨bytes, 0⟩ = (some f.pos, ⟨bytes, f.pos⟩) := by
  have hfound := f.found
  rw [seekTo1Frame] at hfound ⊢
  dsimp only at hfound ⊢
  split at hfound
  · rename_i pos hfind
    rw [← Option.some.inj hfound]
    rfl
  · cases hfound

theorem accepts : acceptsFirst f.header = true := f.accepted

theorem length_header : f.header.length = cHeaderSize := by
  rw [header, List.length_take]
  exact Nat.min_eq_left f.whole

theorem getFileInfo_eq (t : Tmpx) (info : FileInfo) :
    getFileInfo t true (some bytes) info =
      playInfo t { info with retValue := -1, frame := 0 } ⟨bytes, f.pos⟩ f.header (i32 f.count) := by
  have hread : File.fread ⟨bytes, f.pos⟩ cHeaderSize = (f.header, ⟨bytes, f.pos + cHeaderSize⟩) := by
    have hfread : File.fread ⟨bytes, f.pos⟩ cHeaderSize = (f.header, ⟨bytes, f.pos + f.header.length⟩) := rfl
    rw [hfread, f.length_header]
  have hbehind : f.header ++ File.rest ⟨bytes, f.pos + cHeaderSize⟩ = f.stream := by
    rw [header, File.rest, ← List.drop_drop]
    exact List.take_append_drop _ _
  have hfuel : (File.rest ⟨bytes, f.pos + cHeaderSize⟩).length < bytes.length + 1 := by
    rw [File.rest, List.length_drop]
    exact Nat.lt_succ_of_le (Nat.sub_le _ _)
  have hcount := countFrames_eq f.length_header 0 hfuel
  rw [hbehind, Int.zero_add, ← count] at hcount
  have hzero : i32 0 = 0 := rfl
  rw [hzero] at hcount
  simp only [getFileInfo, f.seekTo1Frame_eq, hread, f.length_header, f.accepts, Bool.true_eq_false, if_false,
    Nat.lt_irrefl, File.fseek]
  rw [hcount, Option.bind_eq_bind, Option.bind_some]

/-- How many frames a call of `mpx_GetFrames` may deliver. -/
def quota : Nat := samplingRate f.header / samplesPerFrame f.header

theorem startPlay_eq {t t' : Tmpx} {info info' : FileInfo}
    (h : getFileInfo t true (some bytes) info = some (info', t')) :
    t'.totalFrames = i32 f.count ∧ startPlay t' = (true, ⟨some ⟨bytes, f.pos⟩, 0, f.quota, i32 f.count⟩) := by
  rw [f.getFileInfo_eq, playInfo] at h
  generalize i32 f.count = frame at h ⊢
  dsimp only at h
  split at h
  · cases h
  obtain ⟨-, rfl⟩ := Prod.mk.inj (Option.some.inj h)
  have hseek : seekTo1Frame ⟨bytes, f.pos⟩ = seekTo1Frame ⟨bytes, 0⟩ := rfl
  refine ⟨rfl, ?_⟩
  simp only [startPlay, hseek, f.seekTo1Frame_eq, Option.isSome_some, if_true]
  rfl

end FirstFrame

/-- Where the value is not -1, a first frame was found. -/
theorem exists_firstFrame {t t' : Tmpx} {info info' : FileInfo} {fileExists : Bool} {fopen : Option (List UInt8)}
    (h : getFileInfo t fileExists fopen info = some (info', t')) (hret : info'.retValue ≠ -1) :
    ∃ bytes, fileExists = true ∧ fopen = some bytes ∧ Nonempty (FirstFrame bytes) := by
  have hrefused : ∀ {d : Tmpx}, some ({ info with retValue := -1, frame := 0 }, d) = some (info', t') → False := by
    intro d heq
    rw [← (Prod.mk.inj (Option.some.inj heq)).1] at hret
    exact hret rfl
  unfold getFileInfo at h
  dsimp only at h
  split at h
  · exact (hrefused h).elim
  rename_i hexists
  split at h
  · exact (hrefused h).elim
  rename_i bytes
  refine ⟨bytes, (Bool.not_eq_false _).mp hexists, rfl, ?_⟩
  split at h
  · exact (hrefused h).elim
  rename_i pos hseek
  have hstream : (seekTo1Frame ⟨bytes, 0⟩).2.rest = bytes.drop pos := by
    rw [seekTo1Frame] at hseek ⊢
    dsimp only at hseek ⊢
    split at hseek
    · rename_i found hfind
      rw [← Option.some.inj hseek]
      rfl
    · cases hseek
  rw [File.fread_fst, hstream] at h
  split at h
  · exact (hrefused h).elim
  rename_i hwhole
  split at h
  · exact (hrefused h).elim
  rename_i haccepted
  rw [List.length_take] at hwhole
  exact ⟨⟨pos, hseek, by omega, (Bool.not_eq_false _).mp haccepted⟩⟩

section FirstHeader

variable {header : List UInt8}

theorem acceptsFirst_cases (h : acceptsFirst header = true) :
    badSyncword header = false ∧ mpegver header ≠ 1 ∧ layer header ≠ 0 ∧ brindex header ≠ 0 ∧ brindex header ≠ 15 ∧
      srindex header ≠ 3 := by
  rw [acceptsFirst] at h
  split at h
  · cases h
  rename_i hsync
  split at h
  · cases h
  split at h
  · cases h
  split at h
  · cases h
  split at h
  · cases h
  · exact ⟨(Bool.not_eq_true _).mp hsync, by omega, by omega, by omega, by omega, by omega⟩

theorem samplesPerFrame_bounds (header : List UInt8) : 384 ≤ samplesPerFrame header ∧ samplesPerFrame header ≤ 1152 := by
  rw [samplesPerFrame]
  split
  · split <;> omega
  · split
    · omega
    · split <;> omega

theorem le_samplingRate (h : acceptsFirst header = true) : 8000 ≤ samplingRate header := by
  have htable : ∀ (v : Fin 4) (s : Fin 4), v ≠ 1 → s ≠ 3 →
      8000 ≤ srtable.getD (s + if (v : Nat) = 0 then 8 else if (v : Nat) = 2 then 4 else 0) 0 := by decide +kernel
  obtain ⟨-, hversion, -, -, -, hrate⟩ := acceptsFirst_cases h
  exact htable ⟨_, mpegver_lt header⟩ ⟨_, srindex_lt header⟩ (fun heq => hversion (congrArg Fin.val heq))
    (fun heq => hrate (congrArg Fin.val heq))

theorem samplingRate_le (header : List UInt8) : samplingRate header ≤ 48000 := by
  have htable : ∀ (v : Fin 4) (s : Fin 4),
      srtable.getD (s + if (v : Nat) = 0 then 8 else if (v : Nat) = 2 then 4 else 0) 0 ≤ 48000 := by decide +kernel
  exact htable ⟨_, mpegver_lt header⟩ ⟨_, srindex_lt header⟩

theorem le_getFrameSize_of_accepts (h : acceptsFirst header = true) : 24 ≤ getFrameSize header := by
  obtain ⟨hsync, hversion, hlayer, hfree, hbitrate, hrate⟩ := acceptsFirst_cases h
  rw [getFrameSize_eq hsync]
  exact le_frameSizeOf hversion hlayer hrate hfree hbitrate

end FirstHeader

end RadioServices.Accordion.MpxCount

import RadioServices.Accordion.MpxStream

namespace RadioServices.Accordion.MpxPlay

open Lib.C Mpx MpxCount MpxStream

/-- The value of a call. The `int` of the loop is returned as an `unsigned int`. -/
def unsigned (n : Int) : Nat := (n % 2 ^ 32).toNat

def callReading (t : Tmpx) (fs : File) : Reading := readFrames t t.framesToRead.toNat ⟨fs, 0, 0, [], [], 0⟩

def afterCall (t : Tmpx) (fs : File) : Tmpx :=
  { t with
      fs := some (callReading t fs).fs
      sendFrameNumber := i32 (t.sendFrameNumber + (callReading t fs).framesFromFile) }

/-- The calls until the first 0 deliver that many frames, and with them the file from that position on. -/
inductive Plays : Tmpx → Nat → Int → Prop
  | stop {t : Tmpx} {fs : File} (start : Nat) (file : t.fs = some fs)
      (value : unsigned (callReading t fs).retValue = 0) : Plays t start 0
  | call {t : Tmpx} {fs : File} {start : Nat} {n : Int} (file : t.fs = some fs) (place : fs.pos = start)
      (value : unsigned (callReading t fs).retValue ≠ 0)
      (written : unsigned (callReading t fs).retValue ≤ (callReading t fs).buf.length)
      (piece : (callReading t fs).buf.take (unsigned (callReading t fs).retValue) =
        (fs.bytes.drop start).take (unsigned (callReading t fs).retValue))
      (next : Plays (afterCall t fs) (start + unsigned (callReading t fs).retValue) n) :
      Plays t start ((callReading t fs).framesFromFile + n)

section Value

theorem unsigned_natCast {n : Nat} (h : n < 2 ^ 32) : unsigned n = n := by
  rw [unsigned]
  omega

theorem unsigned_i32 {n : Int} (h₁ : 0 ≤ n) (h₂ : n < 2 ^ 32) : (unsigned (i32 n) : Int) = n := by
  rw [unsigned, i32_emod]
  omega

theorem framesFromFile_le (t : Tmpx) (n : Nat) (r : Reading) :
    r.framesFromFile ≤ (readFrames t n r).framesFromFile := by
  induction n generalizing r with
  | zero => exact Int.le_refl _
  | succ n ih =>
      rw [readFrames]
      split
      · exact Int.le_refl _
      dsimp only
      split
      · exact Int.le_refl _
      split
      · exact Int.le_refl _
      split
      · exact Int.le_refl _
      split
      · exact Int.le_refl _
      · exact Int.le_trans (Int.le_add_of_nonneg_right (by decide)) (ih _)

end Value

section Calls

variable {t : Tmpx} {fs : File} {start : Nat} {n : Int}

theorem Plays.nonneg (h : Plays t start n) : 0 ≤ n := by
  induction h with
  | stop => exact Int.le_refl _
  | call file place value written piece next ih => exact Int.add_nonneg (framesFromFile_le _ _ _) ih

theorem plays_of_zero (hfs : t.fs = some fs) (hvalue : unsigned (callReading t fs).retValue = 0) :
    Plays t start n ↔ n = 0 := by
  constructor
  · intro h
    cases h with
    | stop => rfl
    | call file place value =>
        obtain rfl := Option.some.inj (hfs.symm.trans file)
        exact absurd hvalue value
  · rintro rfl
    exact .stop start hfs hvalue

theorem Plays.eq_zero_of_place (h : Plays t start n) (hfs : t.fs = some fs) (hplace : fs.pos ≠ start) : n = 0 := by
  cases h with
  | stop => rfl
  | call file place =>
      obtain rfl := Option.some.inj (hfs.symm.trans file)
      exact absurd place hplace

theorem Plays.frames_le (h : Plays t start n) (hfs : t.fs = some fs)
    (hvalue : unsigned (callReading t fs).retValue ≠ 0) : (callReading t fs).framesFromFile ≤ n := by
  cases h with
  | stop start file value =>
      obtain rfl := Option.some.inj (hfs.symm.trans file)
      exact absurd value hvalue
  | call file place value written piece next =>
      obtain rfl := Option.some.inj (hfs.symm.trans file)
      exact Int.le_add_of_nonneg_right next.nonneg

theorem plays_delivered {v p : Nat} (hfs : t.fs = some fs) (hvalue : unsigned (callReading t fs).retValue = v)
    (hv : v ≠ 0) (hbuf : fs.rest.take p <+: (callReading t fs).buf) (hvp : v ≤ p) (hp : p ≤ fs.rest.length) :
    Plays t fs.pos n ↔
      ∃ m, n = (callReading t fs).framesFromFile + m ∧ Plays (afterCall t fs) (fs.pos + v) m := by
  subst hvalue
  constructor
  · intro h
    cases h with
    | stop _ file value =>
        obtain rfl := Option.some.inj (hfs.symm.trans file)
        exact absurd value hv
    | call file place value written piece next =>
        obtain rfl := Option.some.inj (hfs.symm.trans file)
        exact ⟨_, rfl, next⟩
  · rintro ⟨m, rfl, next⟩
    obtain ⟨behind, hbehind⟩ := hbuf
    have hlength : (fs.rest.take p).length = p := List.length_take_of_le hp
    refine .call hfs rfl hv ?_ ?_ next
    · rw [← hbehind, List.length_append, hlength]
      omega
    · rw [← hbehind, List.take_append_of_le_length (by omega), List.take_take, Nat.min_eq_left hvp]
      rfl

end Calls

/-- `mpx_GetFrames` behind `k` frames, at most `q` of which are read in a call. -/
def playing (fs : File) (k : Int) (q : Nat) (total : Int) : Tmpx := ⟨some fs, k, q, total⟩

section Playing

variable {fs : File} {k q : Nat} {total n : Int} {start : Nat}

theorem plays_done {k : Int} (h : total ≤ k) : Plays (playing fs k q total) start n ↔ n = 0 := by
  have hvalue : (callReading (playing fs k q total) fs).retValue = 0 := by
    rw [callReading, MpxBuffer.readFrames_done h]
  exact plays_of_zero rfl (congrArg unsigned hvalue)

theorem callReading_nil {t : Tmpx} (h : fs.rest = []) : (callReading t fs).retValue = 0 := by
  have hunreadable : ¬ Readable fs.rest := by
    rw [h]
    exact fun hread => absurd hread.1 (by decide)
  rw [callReading]
  cases t.framesToRead.toNat with
  | zero => rfl
  | succ m =>
      by_cases hmore : t.sendFrameNumber < t.totalFrames
      · exact (readFrames_unreadable (r := ⟨fs, 0, 0, [], [], 0⟩) hmore m hunreadable).value
      · rw [MpxBuffer.readFrames_done (not_lt.mp hmore)]

theorem callReading_whole (hmore : (k : Int) < total) {sizes : List Nat} (h : Whole fs.rest sizes) {m : Nat}
    (hq : sizes.length + m = q) (hbound : q ≤ 125) : ∃ requests,
      callReading (playing fs k q total) fs =
        readFrames (playing fs k q total) m (passed fs sizes.length sizes.sum requests) := by
  have hsum := h.sum_bounds
  have hwhole : Whole (fs.rest.drop 0) sizes := h
  obtain ⟨requests, hrun⟩ := readFrames_whole (t := playing fs k q total) hmore hwhole (by omega) 0 m []
  refine ⟨requests, ?_⟩
  rw [Nat.zero_add, Nat.zero_add, hq] at hrun
  exact hrun

theorem plays_full (hmore : (k : Int) < total) {sizes : List Nat} (h : Whole fs.rest sizes) (hq : sizes.length = q)
    (hpos : 0 < q) (hbound : q ≤ 125) : Plays (playing fs k q total) fs.pos n ↔
      ∃ m, n = q + m ∧ Plays (playing (skip fs sizes.sum) (i32 ((k + q : Nat) : Int)) q total) (fs.pos + sizes.sum) m := by
  have hsum := h.sum_bounds
  obtain ⟨requests, hread⟩ := callReading_whole hmore h (m := 0) hq hbound
  rw [readFrames] at hread
  have hafter : afterCall (playing fs k q total) fs =
      playing (skip fs sizes.sum) (i32 ((k + q : Nat) : Int)) q total := by
    rw [afterCall, hread, passed, hq]
    rfl
  have hlength : sizes.sum ≤ fs.rest.length := h.sum_le_length
  rw [plays_delivered (v := sizes.sum) (p := sizes.sum) rfl ?_ (by omega) ?_ (Nat.le_refl _) hlength, hafter, hread]
  · rw [passed, hq]
  · rw [hread]
    exact unsigned_natCast (by omega)
  · rw [hread]
    exact List.prefix_rfl

theorem plays_through {sizes : List Nat} (h : Whole fs.rest sizes) (total : Int) (hk : (k : Int) ≤ total) (htotal : total < 2 ^ 31)
    (hpos : 0 < q) (hbound : q ≤ 125) :
    ∃ front back, sizes = front ++ back ∧ q ∣ front.length ∧ ((k + front.length : Nat) : Int) ≤ total ∧
      (total < (k + front.length + q : Nat) ∨ back.length < q) ∧
      ∀ n, Plays (playing fs k q total) fs.pos n ↔ ∃ m : Int, n = front.length + m ∧
        Plays (playing (skip fs front.sum) (k + front.length : Nat) q total) (fs.pos + front.sum) m := by
  induction hn : sizes.length using Nat.strongRecOn generalizing fs k sizes with
  | ind length ih =>
      by_cases hstop : total < (k + q : Nat) ∨ sizes.length < q
      · refine ⟨[], sizes, rfl, Nat.dvd_zero _, hk, hstop, fun n => ?_⟩
        constructor
        · exact fun h => ⟨n, (Int.zero_add n).symm, h⟩
        · rintro ⟨m, rfl, h⟩
          rwa [List.length_nil, Int.natCast_zero, Int.zero_add]
      obtain ⟨hroom, hlong⟩ := not_or.mp hstop
      rw [← List.take_append_drop q sizes, Whole.append_iff] at h
      obtain ⟨hfirst, hrest⟩ := h
      have htake : (sizes.take q).length = q := List.length_take_of_le (Nat.le_of_not_lt hlong)
      have hdrop : (sizes.drop q).length = sizes.length - q := List.length_drop
      rw [← rest_skip] at hrest
      obtain ⟨front, back, hsplit, hdvd, hle, hend, hplays⟩ :=
        ih (sizes.drop q).length (by omega) hrest (k := k + q) (by omega) rfl
      refine ⟨sizes.take q ++ front, back, ?_, ?_, ?_, ?_, fun n => ?_⟩
      · rw [List.append_assoc, ← hsplit, List.take_append_drop]
      · rw [List.length_append, htake]
        exact (Nat.dvd_add_right (Nat.dvd_refl q)).mpr hdvd
      · rw [List.length_append, htake]
        omega
      · rw [List.length_append, htake]
        omega
      · have hsum : i32 ((k + q : Nat) : Int) = (k + q : Nat) := i32_of_bounds (by omega) (by omega)
        have hmore : (k : Int) < total :=
          lt_of_lt_of_le (Int.ofNat_lt.mpr (Nat.lt_add_of_pos_right hpos)) (not_lt.mp hroom)
        rw [plays_full hmore hfirst htake hpos hbound, hsum, List.length_append, htake, List.sum_append]
        have hplace : (skip fs (sizes.take q).sum).pos + front.sum = fs.pos + ((sizes.take q).sum + front.sum) :=
          Nat.add_assoc _ _ _
        rw [skip_skip, Nat.add_assoc k, hplace] at hplays
        constructor
        · rintro ⟨m, rfl, hrest⟩
          obtain ⟨m', rfl, hback⟩ := (hplays m).mp hrest
          exact ⟨m', by omega, hback⟩
        · rintro ⟨m, rfl, hback⟩
          exact ⟨front.length + m, by omega, (hplays _).mpr ⟨m, rfl, hback⟩⟩

end Playing

section Last

variable {fs : File} {k q m : Nat} {total n : Int} {sizes : List Nat}

theorem taken_value {p : Nat} (requests : List Int) (hp : p < 2 ^ 30) (h : Readable (fs.rest.drop p)) :
    unsigned (taken (passed fs k p requests)).retValue ≠ 0 ∧
      unsigned (taken (passed fs k p requests)).retValue ≤ p + (cHeaderSize + (body (fs.rest.drop p)).length) := by
  obtain ⟨-, -, hsize, hwhole⟩ := h
  have hfour : cHeaderSize = 4 := rfl
  have hbody := i32_le (n := (body (fs.rest.drop p)).length) (by omega)
  have hbounds := i32_bounds (body (fs.rest.drop p)).length
  have hvalue : (taken (passed fs k p requests)).retValue =
      i32 (p + cHeaderSize + i32 (body (fs.rest.drop p)).length) := by
    rw [taken, rest_passed]
    dsimp only [passed]
  have hunsigned := unsigned_i32 (n := p + cHeaderSize + i32 (body (fs.rest.drop p)).length) (by omega) (by omega)
  rw [← hvalue] at hunsigned
  omega

theorem taken_buf (fs : File) (k p : Nat) (requests : List Int) : (taken (passed fs k p requests)).buf =
    fs.rest.take (p + (cHeaderSize + (body (fs.rest.drop p)).length)) := by
  rw [taken, rest_passed]
  dsimp only [passed]
  rw [← List.take_add]

/-- A call that comes to a last frame that cannot be read. -/
theorem callReading_unreadable (hmore : (k : Int) < total) (h : Whole fs.rest sizes) (hq : sizes.length + (m + 1) = q)
    (hbound : q ≤ 125) (hlast : ¬ Readable (fs.rest.drop sizes.sum)) :
    (callReading (playing fs k q total) fs).framesFromFile = sizes.length ∧
      unsigned (callReading (playing fs k q total) fs).retValue = sizes.sum ∧
      fs.rest.take sizes.sum <+: (callReading (playing fs k q total) fs).buf ∧
      (cHeaderSize ≤ (fs.rest.drop sizes.sum).length →
        fs.pos + sizes.sum < (callReading (playing fs k q total) fs).fs.pos) := by
  have hsum := h.sum_bounds
  obtain ⟨requests, hread⟩ := callReading_whole hmore h hq hbound
  rw [← rest_passed fs sizes.length sizes.sum requests] at hlast ⊢
  obtain ⟨hframes, hvalue, hbuf, -, hpos⟩ := readFrames_unreadable (t := playing fs k q total) hmore m hlast
  rw [← hread] at hframes hvalue hbuf hpos
  refine ⟨hframes, ?_, hbuf, hpos⟩
  rw [hvalue]
  exact unsigned_natCast (by omega)

theorem plays_unreadable (hmore : (k : Int) < total) (h : Whole fs.rest sizes) (hq : sizes.length + (m + 1) = q)
    (hbound : q ≤ 125) (hheader : cHeaderSize ≤ (fs.rest.drop sizes.sum).length)
    (hlast : ¬ Readable (fs.rest.drop sizes.sum)) (hplays : Plays (playing fs k q total) fs.pos n) :
    n = sizes.length := by
  have hsum := h.sum_bounds
  obtain ⟨hframes, hvalue, hbuf, hpos⟩ := callReading_unreadable hmore h hq hbound hlast
  by_cases hzero : sizes.sum = 0
  · have hnone : sizes.length = 0 := by omega
    rw [(plays_of_zero rfl (hvalue.trans hzero)).mp hplays, hnone, Int.natCast_zero]
  · obtain ⟨n', rfl, hnext⟩ := (plays_delivered rfl hvalue hzero hbuf (Nat.le_refl _) h.sum_le_length).mp hplays
    rw [hframes, hnext.eq_zero_of_place rfl (hpos hheader).ne']
    exact Int.add_zero _

/-- A last frame that is cut off is read to the end of the file, where nothing is left for the next call. -/
theorem plays_cut (hmore : (k : Int) < total) (h : Whole fs.rest sizes) (hq : sizes.length + (m + 1) = q)
    (hbound : q ≤ 125) (hheader : cHeaderSize ≤ (fs.rest.drop sizes.sum).length)
    (hlong : cHeaderSize < sizeAt (fs.rest.drop sizes.sum))
    (hcut : (fs.rest.drop sizes.sum).length < sizeAt (fs.rest.drop sizes.sum)) :
    Plays (playing fs k q total) fs.pos sizes.length := by
  have hsum := h.sum_bounds
  obtain ⟨hframes, hvalue, hbuf, -⟩ := callReading_unreadable hmore h hq hbound (not_readable_of_cut hlong hcut)
  have hend : (callReading (playing fs k q total) fs).fs.rest = [] := by
    obtain ⟨requests, hread⟩ := callReading_whole hmore h hq hbound
    rw [← rest_passed fs sizes.length sizes.sum requests] at hheader hlong hcut
    rw [hread]
    exact readFrames_cut (t := playing fs k q total) hmore m hheader hlong hcut
  by_cases hzero : sizes.sum = 0
  · have hnone : sizes.length = 0 := by omega
    rw [hnone]
    exact (plays_of_zero rfl (hvalue.trans hzero)).mpr rfl
  · refine (plays_delivered rfl hvalue hzero hbuf (Nat.le_refl _) h.sum_le_length).mpr ⟨0, ?_, ?_⟩
    · rw [hframes]
      exact (Int.add_zero _).symm
    · exact (plays_of_zero rfl (congrArg unsigned (callReading_nil hend))).mpr rfl

theorem plays_readable (hmore : (k : Int) < total) (h : Whole fs.rest sizes) (hq : sizes.length + (m + 1) = q)
    (hbound : q ≤ 125) (htotal : total = (k + sizes.length + 1 : Nat)) (hsmall : total < 2 ^ 31)
    (hlast : Readable (fs.rest.drop sizes.sum)) (hend : m = 0 ∨ ¬ Readable (behind (fs.rest.drop sizes.sum))) :
    Plays (playing fs k q total) fs.pos (sizes.length + 1) := by
  have hsum := h.sum_bounds
  obtain ⟨requests, hread⟩ := callReading_whole hmore h hq hbound
  obtain ⟨hvalue, hle⟩ := taken_value (k := sizes.length) requests (by omega) hlast
  have hbuf := taken_buf fs sizes.length sizes.sum requests
  have hheader := hlast.1
  have hfour : cHeaderSize = 4 := rfl
  have hlength : (body (fs.rest.drop sizes.sum)).length ≤ (fs.rest.drop sizes.sum).length - cHeaderSize := by
    rw [body, List.length_take, List.length_drop]
    exact Nat.min_le_right _ _
  rw [List.length_drop] at hheader hlength
  rw [← rest_passed fs sizes.length sizes.sum requests] at hlast
  rw [readFrames_readable (t := playing fs k q total) hmore m hlast] at hread
  have hbehind := rest_taken (passed fs sizes.length sizes.sum requests)
  rw [rest_passed] at hbehind
  have hframes : (taken (passed fs sizes.length sizes.sum requests)).framesFromFile = (sizes.length + 1 : Nat) := rfl
  generalize taken (passed fs sizes.length sizes.sum requests) = r at hread hvalue hle hbuf hframes hbehind
  have hleft : (callReading (playing fs k q total) fs).framesFromFile = r.framesFromFile ∧
      (callReading (playing fs k q total) fs).retValue = r.retValue ∧
      r.buf <+: (callReading (playing fs k q total) fs).buf := by
    rw [hread]
    cases m with
    | zero => exact ⟨rfl, rfl, List.prefix_rfl⟩
    | succ m =>
        have hstop := hend.resolve_left (Nat.succ_ne_zero m)
        rw [← hbehind] at hstop
        obtain ⟨hframes, hvalue, hbuf, -, -⟩ := readFrames_unreadable (t := playing fs k q total) hmore m hstop
        exact ⟨hframes, hvalue, hbuf⟩
  rw [← hleft.2.1] at hvalue hle
  rw [hbuf] at hleft
  refine (plays_delivered rfl rfl hvalue hleft.2.2 hle (by omega)).mpr ⟨0, ?_, ?_⟩
  · rw [hleft.1, hframes]
    exact (Int.add_zero _).symm
  · have hsent : afterCall (playing fs k q total) fs =
        playing (callReading (playing fs k q total) fs).fs (i32 ((k : Int) + (sizes.length + 1 : Nat))) q total := by
      rw [afterCall, hleft.1, hframes]
      rfl
    have hdone : i32 ((k : Int) + (sizes.length + 1 : Nat)) = total := by
      rw [i32_of_bounds (by omega) (by omega), htotal]
      omega
    rw [hsent, hdone]
    exact (plays_done (Int.le_refl _)).mpr rfl

/-- A call that reads on behind the last frame delivers more than was counted. -/
theorem plays_beyond (hmore : (k : Int) < total) (h : Whole fs.rest sizes) (hq : sizes.length + (m + 1) = q)
    (hbound : q ≤ 125) (hlast : Readable (fs.rest.drop sizes.sum)) (hm : m ≠ 0)
    (hbehind : Readable (behind (fs.rest.drop sizes.sum))) (hplays : Plays (playing fs k q total) fs.pos n) :
    n ≠ sizes.length + 1 := by
  obtain ⟨requests, hread⟩ := callReading_whole hmore h hq hbound
  obtain ⟨m, rfl⟩ := Nat.exists_eq_succ_of_ne_zero hm
  rw [← rest_passed fs sizes.length sizes.sum requests] at hlast hbehind
  rw [← rest_taken] at hbehind
  rw [readFrames_readable (t := playing fs k q total) hmore _ hlast,
    readFrames_readable (t := playing fs k q total) hmore _ hbehind] at hread
  have hframes : (sizes.length : Int) + 2 ≤ (callReading (playing fs k q total) fs).framesFromFile := by
    rw [hread]
    refine le_trans ?_ (framesFromFile_le _ _ _)
    exact le_of_eq (Int.add_assoc _ 1 1).symm
  by_cases hvalue : unsigned (callReading (playing fs k q total) fs).retValue = 0
  · rw [(plays_of_zero rfl hvalue).mp hplays]
    omega
  · have hle := hplays.frames_le rfl hvalue
    omega

/-- What the last calls deliver. -/
theorem delivered_iff (hmore : (k : Int) < total) (h : Whole fs.rest sizes) (hq : sizes.length + (m + 1) = q)
    (hbound : q ≤ 125) (htotal : total = (k + sizes.length + 1 : Nat)) (hsmall : total < 2 ^ 31)
    (hlast : frames (fs.rest.drop sizes.sum) = [sizeAt (fs.rest.drop sizes.sum)]) :
    (∃ n, Plays (playing fs k q total) fs.pos n ∧ (n = sizes.length + 1 ∨
        n = sizes.length ∧ (fs.rest.drop sizes.sum).length < sizeAt (fs.rest.drop sizes.sum))) ↔
      (sizeAt (fs.rest.drop sizes.sum) ≤ cHeaderSize → Readable (fs.rest.drop sizes.sum) ∧
        (m = 0 ∨ ¬ Readable (behind (fs.rest.drop sizes.sum)))) := by
  have hcounted : frames (fs.rest.drop sizes.sum) ≠ [] := by
    rw [hlast]
    exact List.cons_ne_nil _ _
  have hheader : cHeaderSize ≤ (fs.rest.drop sizes.sum).length :=
    Nat.le_of_not_lt (not_or.mp (mt frames_eq_nil hcounted)).1
  constructor
  · rintro ⟨n, hplays, hn⟩ hshort
    have hnocut : ¬ (fs.rest.drop sizes.sum).length < sizeAt (fs.rest.drop sizes.sum) :=
      Nat.not_lt.mpr (hshort.trans hheader)
    have hn : n = sizes.length + 1 := hn.resolve_right fun hcut => hnocut hcut.2
    by_cases hread : Readable (fs.rest.drop sizes.sum)
    · refine ⟨hread, ?_⟩
      by_contra hgoes
      obtain ⟨hm, hbehind⟩ := not_or.mp hgoes
      exact plays_beyond hmore h hq hbound hread hm (not_not.mp hbehind) hplays hn
    · have hless := plays_unreadable hmore h hq hbound hheader hread hplays
      omega
  · intro hwhen
    by_cases hlong : cHeaderSize < sizeAt (fs.rest.drop sizes.sum)
    · by_cases hwhole : sizeAt (fs.rest.drop sizes.sum) ≤ (fs.rest.drop sizes.sum).length
      · have hread := (readable_of_whole hlong hwhole).1
        have hend := not_readable_behind hlast hlong hwhole
        exact ⟨_, plays_readable hmore h hq hbound htotal hsmall hread (.inr hend), .inl rfl⟩
      · have hcut := Nat.lt_of_not_le hwhole
        exact ⟨_, plays_cut hmore h hq hbound hheader hlong hcut, .inr ⟨rfl, hcut⟩⟩
    · obtain ⟨hread, hend⟩ := hwhen (Nat.le_of_not_lt hlong)
      exact ⟨_, plays_readable hmore h hq hbound htotal hsmall hread hend, .inl rfl⟩

end Last

section Result

variable {bytes : List UInt8}

/-- The file from the last frame on that is counted. -/
def lastCounted (f : FirstFrame bytes) : List UInt8 := f.stream.drop (frames f.stream).dropLast.sum

/-- Playing delivers the frames from the first one on, as many as were counted, less the last one where it is
cut off. -/
def Agree (f : FirstFrame bytes) (t : Tmpx) : Prop :=
  (startPlay t).1 = true ∧ ∃ n, Plays (startPlay t).2 f.pos n ∧
    (n = t.totalFrames ∨ n = t.totalFrames - 1 ∧ (lastCounted f).length < sizeAt (lastCounted f))

/-- A last frame no longer than its header can be read, and a call ends behind it. From 2 ^ 31 frames on it is the
counter instead that says where the playing ends. -/
def AgreeWhen (f : FirstFrame bytes) : Prop :=
  (f.count < 2 ^ 31 ∧ (sizeAt (lastCounted f) ≤ cHeaderSize →
      Readable (lastCounted f) ∧ (f.quota ∣ f.count ∨ ¬ Readable (behind (lastCounted f))))) ∨
    (2 ^ 31 ≤ f.count ∧ 0 ≤ i32 f.count ∧ (f.quota : Int) ∣ i32 f.count)

instance (f : FirstFrame bytes) : Decidable (AgreeWhen f) := inferInstanceAs (Decidable (_ ∧ (_ → _) ∨ _))

theorem quota_bounds (f : FirstFrame bytes) : 0 < f.quota ∧ f.quota ≤ 125 := by
  have hrate := le_samplingRate f.accepts
  have hmax := samplingRate_le f.header
  obtain ⟨hmin, hsamples⟩ := samplesPerFrame_bounds f.header
  constructor
  · exact Nat.div_pos (by omega) (by omega)
  · exact (Nat.div_le_div hmax hmin (by omega)).trans (by decide)

theorem delivered_of_counter (fs : File) {q : Nat} {good : List Nat} (h : Whole fs.rest good) (hpos : 0 < q)
    (hbound : q ≤ 125) (hsmall : good.length + 1 < 2 ^ 31)
    (hlast : frames (fs.rest.drop good.sum) = [sizeAt (fs.rest.drop good.sum)]) :
    (∃ n, Plays (playing fs 0 q (good.length + 1 : Nat)) fs.pos n ∧ (n = (good.length + 1 : Nat) ∨
        n = (good.length + 1 : Nat) - 1 ∧ (fs.rest.drop good.sum).length < sizeAt (fs.rest.drop good.sum))) ↔
      (sizeAt (fs.rest.drop good.sum) ≤ cHeaderSize → Readable (fs.rest.drop good.sum) ∧
        (q ∣ good.length + 1 ∨ ¬ Readable (behind (fs.rest.drop good.sum)))) := by
  obtain ⟨front, back, rfl, hdvd, hle, hend, hplays⟩ :=
    plays_through h (good.length + 1 : Nat) (k := 0) (by omega) (by omega) hpos hbound
  rw [List.length_append] at hle hend hsmall hplays ⊢
  rw [List.sum_append, ← List.drop_drop, ← rest_skip] at hlast ⊢
  have hback : Whole (skip fs front.sum).rest back := by
    rw [rest_skip]
    exact (Whole.append_iff.mp h).2
  have hshort : back.length < q := by omega
  have hq : back.length + (q - back.length - 1 + 1) = q := by omega
  have hmod : q ∣ front.length + back.length + 1 ↔ q - back.length - 1 = 0 := by
    rw [Nat.add_assoc, Nat.dvd_add_right hdvd]
    constructor
    · intro hrest
      have hrest := Nat.le_of_dvd (Nat.succ_pos _) hrest
      omega
    · intro hzero
      have heq : back.length + 1 = q := by omega
      rw [heq]
  rw [hmod, ← delivered_iff (k := 0 + front.length) (by omega) hback hq hbound rfl (by omega) hlast]
  constructor
  · rintro ⟨n, hplay, hn⟩
    obtain ⟨m, rfl, hm⟩ := (hplays n).mp hplay
    refine ⟨m, ?_, by omega⟩
    rwa [Nat.zero_add] at hm ⊢
  · rintro ⟨m, hm, hn⟩
    refine ⟨front.length + m, (hplays _).mpr ⟨m, rfl, ?_⟩, by omega⟩
    rwa [Nat.zero_add] at hm ⊢

/-- The calls where the counter is smaller than the number of frames. -/
theorem delivered_of_overflow (fs : File) {q : Nat} {total : Int} {good : List Nat} (h : Whole fs.rest good)
    (hpos : 0 < q) (hbound : q ≤ 125) (hbelow : total + q ≤ good.length) (hsmall : total < 2 ^ 31) {cut : Prop} :
    (∃ n, Plays (playing fs 0 q total) fs.pos n ∧ (n = total ∨ n = total - 1 ∧ cut)) ↔ 0 ≤ total ∧ (q : Int) ∣ total := by
  by_cases hneg : total < 0
  · constructor
    · rintro ⟨n, hplay, hn⟩
      have hzero := (plays_done (Int.le_of_lt hneg)).mp hplay
      omega
    · exact fun hnonneg => absurd hnonneg.1 (not_le.mpr hneg)
  obtain ⟨front, back, rfl, hdvd, hle, hend, hplays⟩ :=
    plays_through h total (k := 0) (by omega) hsmall hpos hbound
  rw [List.length_append] at hbelow
  rw [Nat.zero_add] at hle hend hplays
  by_cases hreached : total = (front.length : Int)
  · subst hreached
    refine iff_of_true ⟨_, (hplays front.length).mpr ⟨0, (Int.add_zero _).symm, ?_⟩, .inl rfl⟩ ⟨by omega, ?_⟩
    · exact (plays_done (Int.le_refl _)).mpr rfl
    · exact Int.natCast_dvd_natCast.mpr hdvd
  · have hback : Whole (skip fs front.sum).rest back := by
      rw [rest_skip]
      exact (Whole.append_iff.mp h).2
    rw [← List.take_append_drop q back, Whole.append_iff] at hback
    have htake : (back.take q).length = q := List.length_take_of_le (by omega)
    refine iff_of_false ?_ ?_
    · rintro ⟨n, hplay, hn⟩
      obtain ⟨m, rfl, hm⟩ := (hplays n).mp hplay
      obtain ⟨m', rfl, hm'⟩ := (plays_full (by omega) hback.1 htake hpos hbound).mp hm
      have hnonneg := hm'.nonneg
      omega
    · rintro ⟨-, hmultiple⟩
      have hrest := (Int.dvd_sub hmultiple (Int.natCast_dvd_natCast.mpr hdvd))
      have hle := Int.le_of_dvd (by omega) hrest
      omega

theorem agree_iff_agreeWhen {f : FirstFrame bytes} {t t' : Tmpx} {info info' : FileInfo}
    (h : getFileInfo t true (some bytes) info = some (info', t')) : Agree f t' ↔ AgreeWhen f := by
  obtain ⟨htotal, hstart⟩ := f.startPlay_eq h
  obtain ⟨hpos, hbound⟩ := quota_bounds f
  have hfirst : frames f.stream ≠ [] := by
    have hsize : 24 ≤ sizeAt f.stream := le_getFrameSize_of_accepts f.accepts
    intro hnil
    rcases frames_eq_nil_iff.mp hnil with hshort | hzero
    · exact Nat.not_lt.mpr f.whole hshort
    · omega
  obtain ⟨good, hgood, hframes, hlast⟩ := frames_split hfirst
  have hcount : f.count = good.length + 1 := by
    rw [FirstFrame.count, hframes, List.length_append, List.length_singleton]
  have hlastCounted : lastCounted f = f.stream.drop good.sum := by
    rw [lastCounted, hframes, List.dropLast_concat]
  rw [Agree, hstart, htotal, AgreeWhen, hlastCounted, hcount]
  simp only [true_and]
  by_cases hsmall : good.length + 1 < 2 ^ 31
  · have hcounter : i32 ((good.length + 1 : Nat) : Int) = (good.length + 1 : Nat) :=
      i32_of_bounds (by omega) (by omega)
    rw [hcounter]
    have hdelivered := delivered_of_counter ⟨bytes, f.pos⟩ hgood hpos hbound hsmall hlast
    rw [or_iff_left fun hlarge => absurd hlarge.1 (Nat.not_le.mpr hsmall)]
    simp only [hsmall, true_and]
    exact hdelivered
  · have hlarge : 2 ^ 31 ≤ good.length + 1 := Nat.le_of_not_lt hsmall
    have hbelow := i32_le_sub (n := (good.length + 1 : Nat)) (by omega)
    have hbounds := i32_bounds (good.length + 1 : Nat)
    rw [or_iff_right fun hless => absurd hless.1 hsmall]
    simp only [hlarge, true_and]
    exact delivered_of_overflow ⟨bytes, f.pos⟩ hgood hpos hbound (by omega) hbounds.2

/-- Counting and playing agree, for every file that is accepted, if and only if the last frame that is counted ends
the playing. -/
theorem playing_agrees_iff {t t' : Tmpx} {info info' : FileInfo} {fileExists : Bool} {fopen : Option (List UInt8)}
    (h : getFileInfo t fileExists fopen info = some (info', t')) (hret : info'.retValue = 0) :
    ∃ bytes, fopen = some bytes ∧ ∃ f : FirstFrame bytes, Agree f t' ↔ AgreeWhen f := by
  obtain ⟨bytes, rfl, rfl, ⟨f⟩⟩ := exists_firstFrame h (by rw [hret]; decide)
  exact ⟨bytes, rfl, f, agree_iff_agreeWhen h⟩

end Result

section Demo

def demoFile : List UInt8 := (List.replicate 7 MpxBuffer.demoFrame).flatten

theorem playing_agrees_iff_demo : ∃ info' t',
    getFileInfo ⟨none, 0, 0, 0⟩ true (some demoFile) ⟨0, 0, 0, 0, 0, 0, 0⟩ = some (info', t') ∧
      ∃ bytes, some demoFile = some bytes ∧ ∃ f : FirstFrame bytes, Agree f t' ↔ AgreeWhen f := by
  have hvalue : (getFileInfo ⟨none, 0, 0, 0⟩ true (some demoFile) ⟨0, 0, 0, 0, 0, 0, 0⟩).map
      (fun r => r.1.retValue) = some 0 := by decide +kernel
  obtain ⟨⟨info', t'⟩, hinfo, hret⟩ := Option.map_eq_some_iff.mp hvalue
  exact ⟨info', t', hinfo, playing_agrees_iff hinfo hret⟩

/-- Behind seven frames a header with the reserved bit rate and padding, whose frame has a size of 1. -/
def reservedBitrate : List UInt8 := demoFile ++ [0xFF, 0xE5, 0xFA, 0xC0]

/-- The last header is counted and never delivered, though nothing of its frame is cut off. -/
theorem reservedBitrate_counted : ¬ ∀ (t t' : Tmpx) (info info' : FileInfo) (bytes : List UInt8),
    getFileInfo t true (some bytes) info = some (info', t') → info'.retValue = 0 →
      ∀ f : FirstFrame bytes, Agree f t' := by
  intro hall
  have hvalue : (getFileInfo ⟨none, 0, 0, 0⟩ true (some reservedBitrate) ⟨0, 0, 0, 0, 0, 0, 0⟩).map
      (fun r => r.1.retValue) = some 0 := by decide +kernel
  obtain ⟨⟨info', t'⟩, hinfo, hret⟩ := Option.map_eq_some_iff.mp hvalue
  let f : FirstFrame reservedBitrate := ⟨0, by decide +kernel, by decide +kernel, by decide +kernel⟩
  have hagree := hall _ t' _ info' _ hinfo hret f
  rw [agree_iff_agreeWhen hinfo] at hagree
  have hnot : ¬ AgreeWhen f := by decide +kernel
  exact hnot hagree

end Demo

end RadioServices.Accordion.MpxPlay

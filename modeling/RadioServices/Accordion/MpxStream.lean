import RadioServices.Accordion.MpxBuffer

namespace RadioServices.Accordion.MpxStream

open Lib.C Mpx MpxCount

/-- What is read behind the header. The size less that of the header is asked for as a `size_t`. -/
def body (rest : List UInt8) : List UInt8 :=
  (rest.drop cHeaderSize).take (sizeT ((sizeAt rest : Int) - cHeaderSize))

/-- The loop of `mpx_GetFrames` takes what stands here for a whole frame. -/
def Readable (rest : List UInt8) : Prop :=
  cHeaderSize ≤ rest.length ∧ isValidFrameHeader (rest.take cHeaderSize) = true ∧ sizeAt rest ≠ 0 ∧
    (sizeAt rest : Int) - cHeaderSize ≤ i32 (body rest).length

instance (rest : List UInt8) : Decidable (Readable rest) := inferInstanceAs (Decidable (_ ∧ _ ∧ _ ∧ _))

def behind (rest : List UInt8) : List UInt8 := rest.drop (cHeaderSize + (body rest).length)

section Turn

variable {t : Tmpx} {r : Reading}

def taken (r : Reading) : Reading :=
  let rest := r.fs.rest
  let pos := i32 (r.pos + cHeaderSize + i32 (body rest).length)
  ⟨{ r.fs with pos := r.fs.pos + (cHeaderSize + (body rest).length) }, r.framesFromFile + 1, pos,
    r.requests ++ [(sizeAt rest : Int) - cHeaderSize], r.buf ++ rest.take (cHeaderSize + (body rest).length), pos⟩

theorem rest_taken (r : Reading) : (taken r).fs.rest = behind r.fs.rest := by
  rw [taken, behind, File.rest, File.rest, List.drop_drop]

theorem fread_header (fs : File) (h : cHeaderSize ≤ fs.rest.length) :
    fs.fread cHeaderSize = (fs.rest.take cHeaderSize, { fs with pos := fs.pos + cHeaderSize }) := by
  have hlength : (fs.rest.take cHeaderSize).length = cHeaderSize := List.length_take_of_le h
  have hfread : fs.fread cHeaderSize =
      (fs.rest.take cHeaderSize, { fs with pos := fs.pos + (fs.rest.take cHeaderSize).length }) := rfl
  rw [hfread, hlength]

theorem fread_body (fs : File) :
    File.fread { fs with pos := fs.pos + cHeaderSize } (sizeT ((sizeAt fs.rest : Int) - cHeaderSize)) =
      (body fs.rest, { fs with pos := fs.pos + cHeaderSize + (body fs.rest).length }) := by
  rw [body, File.rest, List.drop_drop]
  rfl

theorem take_body (rest : List UInt8) :
    rest.take cHeaderSize ++ body rest = rest.take (cHeaderSize + (body rest).length) := by
  have hbody : body rest = (rest.drop cHeaderSize).take (body rest).length :=
    List.prefix_iff_eq_take.mp ( List.take_prefix _ _)
  rw [List.take_add, ← hbody]

theorem readFrames_readable (hmore : t.sendFrameNumber < t.totalFrames) (n : Nat) (h : Readable r.fs.rest) :
    readFrames t (n + 1) r = readFrames t n (taken r) := by
  obtain ⟨hheader, hvalid, hsize, hwhole⟩ := h
  have hle := sizeAt_le r.fs.rest
  rw [readFrames, if_neg (not_le.mpr hmore), fread_header _ hheader]
  dsimp only
  rw [List.length_take_of_le hheader, if_neg (Nat.lt_irrefl _), hvalid, if_neg (by decide), ← sizeAt,
    if_neg (by omega), fread_body]
  dsimp only
  rw [if_neg (not_lt.mpr hwhole), taken, ← take_body, List.append_assoc, Nat.add_assoc]

structure Left (r r' : Reading) : Prop where
  frames : r'.framesFromFile = r.framesFromFile
  value : r'.retValue = r.retValue
  buf : r.buf <+: r'.buf
  bytes : r'.fs.bytes = r.fs.bytes
  pos : cHeaderSize ≤ r.fs.rest.length → r.fs.pos < r'.fs.pos

theorem readFrames_unreadable (hmore : t.sendFrameNumber < t.totalFrames) (n : Nat) (h : ¬ Readable r.fs.rest) :
    Left r (readFrames t (n + 1) r) := by
  have hle := sizeAt_le r.fs.rest
  have hread : (r.fs.fread cHeaderSize).2.bytes = r.fs.bytes ∧
      (cHeaderSize ≤ r.fs.rest.length → r.fs.pos < (r.fs.fread cHeaderSize).2.pos) := by
    refine ⟨rfl, fun hheader => ?_⟩
    rw [fread_header _ hheader]
    exact Nat.lt_add_of_pos_right (Nat.succ_pos 3)
  have hstopped : Left r { r with fs := (r.fs.fread cHeaderSize).2 } :=
    ⟨rfl, rfl, List.prefix_rfl, hread.1, hread.2⟩
  rw [readFrames, if_neg (not_le.mpr hmore)]
  dsimp only
  split
  · exact hstopped
  rename_i hheader
  split
  · exact hstopped
  rename_i hvalid
  split
  · exact hstopped
  rename_i hsize
  have hheader : cHeaderSize ≤ r.fs.rest.length := by
    rw [File.fread_fst, List.length_take] at hheader
    omega
  rw [fread_header _ hheader] at hvalid hsize ⊢
  dsimp only at hvalid hsize ⊢
  rw [← sizeAt] at hsize
  rw [← sizeAt, fread_body]
  dsimp only
  have hcut : i32 (body r.fs.rest).length < (sizeAt r.fs.rest : Int) - cHeaderSize := by
    by_contra hwhole
    exact h ⟨hheader, (Bool.not_eq_false _).mp hvalid, by omega, not_lt.mp hwhole⟩
  rw [if_pos hcut]
  refine ⟨rfl, rfl, ?_, rfl, fun _ => ?_⟩
  · rw [List.append_assoc]
    exact List.prefix_append _ _
  · show r.fs.pos < r.fs.pos + cHeaderSize + (body r.fs.rest).length
    have hfour : cHeaderSize = 4 := rfl
    omega

end Turn

section Long

variable {t : Tmpx} {rest : List UInt8}

theorem valid_of_long (h : cHeaderSize < sizeAt rest) : isValidFrameHeader (rest.take cHeaderSize) = true := by
  rw [sizeAt] at h
  generalize rest.take cHeaderSize = header at h
  have hfour : cHeaderSize = 4 := rfl
  have h₁ := mpegver_lt header
  have h₂ := layer_lt header
  have h₃ := brindex_lt header
  have h₄ := srindex_lt header
  cases hsync : badSyncword header with
  | true =>
      rw [getFrameSize_of_badSyncword hsync] at h
      omega
  | false =>
      have hsize := getFrameSize_eq hsync
      have hcases := (frameSizeOf_cases ⟨_, h₁⟩ ⟨_, h₂⟩ ⟨_, h₃⟩ ⟨_, h₄⟩ ⟨_, padding_lt header⟩).2.2
      have hversion : mpegver header ≠ 1 := fun heq => by
        rw [hsize, frameSizeOf, heq] at h
        simp at h
      have hrate : srindex header < 3 := by
        by_contra hge
        rw [hsize, frameSizeOf] at h
        simp only [Nat.le_of_not_lt hge, if_true] at h
        split at h
        · omega
        · split at h <;> omega
      simp only [Fin.ext_iff] at hcases
      have hbitrate : brindex header ≠ 15 := fun heq => by
        rcases hcases (.inr heq) with hcase | hcase | hcase <;> omega
      rw [isValidFrameHeader, hsync, if_neg (by decide), if_neg (by omega), if_neg (by omega), if_neg (by omega),
        if_neg (by omega)]

theorem length_body (h : cHeaderSize < sizeAt rest) :
    (body rest).length = min (sizeAt rest - cHeaderSize) (rest.length - cHeaderSize) := by
  have hle := sizeAt_le rest
  rw [body, MpxBuffer.sizeT_sub (Nat.le_of_lt h) (by omega), List.length_take, List.length_drop]

theorem readable_of_whole (h : cHeaderSize < sizeAt rest) (hwhole : sizeAt rest ≤ rest.length) :
    Readable rest ∧ cHeaderSize + (body rest).length = sizeAt rest := by
  have hle := sizeAt_le rest
  have hlength := length_body h
  have hi32 : i32 ((body rest).length : Int) = (body rest).length := i32_of_bounds (by omega) (by omega)
  exact ⟨⟨by omega, valid_of_long h, by omega, by omega⟩, by omega⟩

theorem not_readable_of_cut (h : cHeaderSize < sizeAt rest) (hcut : rest.length < sizeAt rest) : ¬ Readable rest := by
  rintro ⟨hheader, -, -, hread⟩
  have hle := sizeAt_le rest
  have hlength := length_body h
  have hi32 : i32 ((body rest).length : Int) = (body rest).length := i32_of_bounds (by omega) (by omega)
  omega

theorem readFrames_cut {r : Reading} (hmore : t.sendFrameNumber < t.totalFrames) (n : Nat)
    (hheader : cHeaderSize ≤ r.fs.rest.length) (h : cHeaderSize < sizeAt r.fs.rest)
    (hcut : r.fs.rest.length < sizeAt r.fs.rest) : (readFrames t (n + 1) r).fs.rest = [] := by
  have hle := sizeAt_le r.fs.rest
  have hlength := length_body h
  have hi32 : i32 ((body r.fs.rest).length : Int) = (body r.fs.rest).length := i32_of_bounds (by omega) (by omega)
  have hread : i32 (body r.fs.rest).length < (sizeAt r.fs.rest : Int) - cHeaderSize := by omega
  rw [readFrames, if_neg (not_le.mpr hmore), fread_header _ hheader]
  dsimp only
  rw [List.length_take_of_le hheader, if_neg (Nat.lt_irrefl _), valid_of_long h, if_neg (by decide), ← sizeAt,
    if_neg (by omega), fread_body]
  dsimp only
  rw [if_pos hread]
  apply List.drop_eq_nil_of_le
  dsimp only
  rw [File.rest, List.length_drop] at *
  omega

end Long

def Whole : List UInt8 → List Nat → Prop
  | _, [] => True
  | rest, size :: sizes => sizeAt rest = size ∧ cHeaderSize < size ∧ size ≤ rest.length ∧ Whole (rest.drop size) sizes

namespace Whole

variable {rest : List UInt8} {sizes sizes' : List Nat}

theorem sum_bounds (h : Whole rest sizes) : sizes.length ≤ sizes.sum ∧ sizes.sum ≤ sizes.length * 2881 := by
  induction sizes generalizing rest with
  | nil => exact ⟨Nat.zero_le _, Nat.zero_le _⟩
  | cons size sizes ih =>
      obtain ⟨hsize, hlong, -, hbehind⟩ := h
      have hle := sizeAt_le rest
      have hrest := ih hbehind
      rw [List.sum_cons, List.length_cons, Nat.succ_mul]
      omega

theorem sum_le_length (h : Whole rest sizes) : sizes.sum ≤ rest.length := by
  induction sizes generalizing rest with
  | nil => exact Nat.zero_le _
  | cons size sizes ih =>
      obtain ⟨-, -, hwhole, hbehind⟩ := h
      have hrest := ih hbehind
      rw [List.length_drop] at hrest
      rw [List.sum_cons]
      omega

theorem append_iff : Whole rest (sizes ++ sizes') ↔ Whole rest sizes ∧ Whole (rest.drop sizes.sum) sizes' := by
  induction sizes generalizing rest with
  | nil => exact ⟨fun h => ⟨trivial, h⟩, fun h => h.2⟩
  | cons size sizes ih =>
      rw [List.cons_append, List.sum_cons, Whole, Whole, ih, List.drop_drop]
      simp only [and_assoc]

end Whole

def skip (fs : File) (p : Nat) : File := { fs with pos := fs.pos + p }

theorem rest_skip (fs : File) (p : Nat) : (skip fs p).rest = fs.rest.drop p := by
  rw [skip, File.rest, File.rest, List.drop_drop]

theorem skip_skip (fs : File) (p p' : Nat) : skip (skip fs p) p' = skip fs (p + p') := by
  rw [skip, skip, skip, Nat.add_assoc]

def passed (fs : File) (k p : Nat) (requests : List Int) : Reading :=
  ⟨skip fs p, k, p, requests, fs.rest.take p, p⟩

section Passed

variable {t : Tmpx}

theorem rest_passed (fs : File) (k p : Nat) (requests : List Int) : (passed fs k p requests).fs.rest = fs.rest.drop p := by
  rw [passed, rest_skip]

theorem taken_passed (fs : File) (k : Nat) {p : Nat} (requests : List Int)
    (hbound : p + cHeaderSize + (body (fs.rest.drop p)).length < 2 ^ 31) :
    ∃ requests', taken (passed fs k p requests) =
      passed fs (k + 1) (p + (cHeaderSize + (body (fs.rest.drop p)).length)) requests' := by
  have hbody : i32 ((body (fs.rest.drop p)).length : Int) = (body (fs.rest.drop p)).length :=
    i32_of_bounds (by omega) (by omega)
  have hpos : i32 ((p : Int) + cHeaderSize + (body (fs.rest.drop p)).length) =
      (p + (cHeaderSize + (body (fs.rest.drop p)).length) : Nat) := by
    rw [i32_of_bounds (by omega) (by omega)]
    omega
  rw [taken, rest_passed, hbody]
  dsimp only [passed, skip]
  rw [hpos, ← List.take_add, Nat.add_assoc, ← Int.natCast_succ]
  exact ⟨_, rfl⟩

theorem readFrames_whole (hmore : t.sendFrameNumber < t.totalFrames) {fs : File} {p : Nat} {sizes : List Nat}
    (h : Whole (fs.rest.drop p) sizes) (hbound : p + sizes.sum < 2 ^ 31) (k n : Nat) (requests : List Int) :
    ∃ requests', readFrames t (sizes.length + n) (passed fs k p requests) =
      readFrames t n (passed fs (k + sizes.length) (p + sizes.sum) requests') := by
  induction sizes generalizing k p requests with
  | nil => exact ⟨requests, by rw [List.length_nil, List.sum_nil, Nat.zero_add]; rfl⟩
  | cons size sizes ih =>
      obtain ⟨rfl, hlong, hwhole, hbehind⟩ := h
      obtain ⟨hread, hsize⟩ := readable_of_whole hlong hwhole
      rw [List.sum_cons] at hbound
      obtain ⟨requests₁, htaken⟩ := taken_passed fs k (p := p) requests (by omega)
      rw [hsize] at htaken
      rw [List.drop_drop] at hbehind
      obtain ⟨requests₂, hrun⟩ := ih hbehind (by omega) (k + 1) requests₁
      rw [← rest_passed fs k p requests] at hread
      refine ⟨requests₂, ?_⟩
      rw [List.length_cons, Nat.succ_add, readFrames_readable hmore _ hread, htaken, hrun, List.sum_cons,
        Nat.add_assoc k, Nat.add_comm 1, Nat.add_assoc p]

end Passed

section Last

variable {rest : List UInt8}

theorem frames_eq_nil_iff : frames rest = [] ↔ rest.length < cHeaderSize ∨ sizeAt rest = 0 := by
  refine ⟨fun h => ?_, frames_eq_nil⟩
  by_contra hcounted
  obtain ⟨hheader, hsize⟩ := not_or.mp hcounted
  by_cases hlong : cHeaderSize < sizeAt rest
  · rw [frames_eq_cons (Nat.le_of_not_lt hheader) hlong] at h
    exact List.cons_ne_nil _ _ h
  · rw [frames_eq_last (Nat.le_of_not_lt hheader) hsize (Nat.le_of_not_lt hlong)] at h
    exact List.cons_ne_nil _ _ h

/-- The frames that are counted are whole ones and a last one, which may be anything. -/
theorem frames_split (h : frames rest ≠ []) :
    ∃ good, Whole rest good ∧ frames rest = good ++ [sizeAt (rest.drop good.sum)] ∧
      frames (rest.drop good.sum) = [sizeAt (rest.drop good.sum)] := by
  induction hn : rest.length using Nat.strongRecOn generalizing rest with
  | ind n ih =>
      obtain ⟨hheader, hsize⟩ := not_or.mp (mt frames_eq_nil h)
      have hheader := Nat.le_of_not_lt hheader
      by_cases hlast : frames rest = [sizeAt rest]
      · exact ⟨[], trivial, hlast, hlast⟩
      have hlong : cHeaderSize < sizeAt rest := by
        by_contra hshort
        exact hlast (frames_eq_last hheader hsize (Nat.le_of_not_lt hshort))
      have hcons := frames_eq_cons hheader hlong
      have hmore : frames (rest.drop (sizeAt rest)) ≠ [] := fun hnil => hlast (hnil ▸ hcons)
      have hbehind : cHeaderSize ≤ (rest.drop (sizeAt rest)).length :=
        Nat.le_of_not_lt (not_or.mp (mt frames_eq_nil hmore)).1
      have hfour : cHeaderSize = 4 := rfl
      rw [List.length_drop] at hbehind
      obtain ⟨good, hgood, hframes, hlast⟩ := ih (rest.drop (sizeAt rest)).length
        (by rw [List.length_drop]; omega) hmore rfl
      rw [List.drop_drop] at hframes hlast
      refine ⟨sizeAt rest :: good, ⟨rfl, hlong, by omega, hgood⟩, ?_, ?_⟩
      · rw [hcons, hframes, List.sum_cons, List.cons_append]
      · rw [List.sum_cons]
        exact hlast

theorem not_readable_behind (h : frames rest = [sizeAt rest]) (hlong : cHeaderSize < sizeAt rest)
    (hwhole : sizeAt rest ≤ rest.length) : ¬ Readable (behind rest) := by
  rintro ⟨hheader, -, hsize, -⟩
  have hheader' : cHeaderSize ≤ rest.length := Nat.le_trans (Nat.le_of_lt hlong) hwhole
  rw [frames_eq_cons hheader' hlong, List.cons.injEq, frames_eq_nil_iff] at h
  rw [behind, (readable_of_whole hlong hwhole).2] at hheader hsize
  rcases h.2 with hshort | hzero
  · exact Nat.not_lt.mpr hheader hshort
  · exact hsize hzero

end Last

end RadioServices.Accordion.MpxStream

import RadioServices.Musicgo.Scanner

namespace RadioServices.Musicgo.ScanBound

open Lib Lib.C Lib.Loop Scanner

section Marks

/-- A text with a NUL in place of each separator behind a token. -/
def marked : Bool → Str → Str
  | _, [] => []
  | inToken, c :: s =>
      if c ∈ " ?&".toList then (if inToken then '\x00' else c) :: marked false s else c :: marked true s

def leftOf (text : Str) : Str :=
  match fileOffset text with
  | none => text
  | some offset => text.take offset ++ marked false (text.drop offset)

variable {text piece after : Str} {c : Char}

theorem length_marked (inToken : Bool) (text : Str) : (marked inToken text).length = text.length := by
  induction text generalizing inToken with
  | nil => rfl
  | cons c s ih =>
      rw [marked]
      split <;> rw [List.length_cons, ih, List.length_cons]

theorem mem_marked {inToken : Bool} (h : c ∈ marked inToken text) : c = '\x00' ∨ c ∈ text := by
  induction text generalizing inToken with
  | nil => cases h
  | cons d s ih =>
      rw [marked] at h
      split at h
      · rcases List.mem_cons.mp h with hc | htail
        · split at hc
          · exact .inl hc
          · exact .inr (hc ▸ List.mem_cons_self)
        · exact (ih htail).imp id (List.mem_cons_of_mem _)
      · rcases List.mem_cons.mp h with rfl | htail
        · exact .inr List.mem_cons_self
        · exact (ih htail).imp id (List.mem_cons_of_mem _)

theorem marked_true_append (hclean : ∀ c ∈ piece, c ∉ " ?&".toList) (s : Str) :
    marked true (piece ++ s) = piece ++ marked true s := by
  induction piece with
  | nil => rfl
  | cons c piece ih =>
      rw [List.cons_append, marked, if_neg (hclean c List.mem_cons_self),
        ih fun d hd => hclean d (List.mem_cons_of_mem _ hd)]
      rfl

theorem marked_append (hpiece : piece ≠ []) (hclean : ∀ c ∈ piece, c ∉ " ?&".toList) (s : Str) :
    marked false (piece ++ s) = piece ++ marked true s := by
  obtain ⟨c, piece, rfl⟩ := List.exists_cons_of_ne_nil hpiece
  rw [List.cons_append, marked, if_neg (hclean c List.mem_cons_self),
    marked_true_append fun d hd => hclean d (List.mem_cons_of_mem _ hd)]
  rfl

theorem fileRead_marked (h : '\x00' ∉ text) (after : Str) :
    (fileRead (text ++ '\x00' :: after)).2 = marked false text ++ '\x00' :: after := by
  induction hn : text.length using Nat.strong_induction_on generalizing text with
  | _ n ih =>
      subst hn
      obtain ⟨piece, rest, rfl, hpiece, hrest⟩ := Cut.exists_cut (· ∈ " ?&".toList) text
      have hclean : Clean " ?&".toList piece := fun c hc =>
        ⟨fun hnul => h (List.mem_append_left _ (hnul ▸ hc)), hpiece c hc⟩
      rcases hrest with rfl | ⟨d, s, rfl, hd⟩
      · rw [List.append_nil]
        by_cases hne : piece = []
        · subst hne
          exact congrArg Prod.snd (fileRead_nul after)
        · have hmarked := marked_append hne hpiece []
          rw [List.append_nil] at hmarked
          rw [fileRead_last hne hclean, hmarked]
          exact congrArg (· ++ '\x00' :: after) (List.append_nil piece).symm
      · have htail : '\x00' ∉ s := fun hs => h (List.mem_append_right _ (List.mem_cons_of_mem _ hs))
        have hmarked := ih s.length (by rw [List.length_append, List.length_cons]; omega) htail rfl
        rw [List.append_assoc, List.cons_append]
        by_cases hne : piece = []
        · subst hne
          rw [List.nil_append, List.nil_append, fileRead_separator hd, hmarked, marked, if_pos hd]
          rfl
        · rw [fileRead_piece hne hclean hd, hmarked, marked_append hne hpiece, marked, if_pos hd, if_pos rfl,
            List.append_assoc, List.cons_append]

theorem lineRead_left (h : '\x00' ∉ text) (after : Str) :
    (lineRead text after).2 = leftOf text ++ '\x00' :: after := by
  rw [lineRead, leftOf]
  cases fileOffset text with
  | none => rfl
  | some offset =>
      dsimp only
      rw [fileRead_marked fun hmem => h (List.mem_of_mem_drop hmem), List.append_assoc]

theorem length_leftOf (text : Str) : (leftOf text).length = text.length := by
  rw [leftOf]
  split
  · rfl
  · rw [List.length_append, length_marked, ← List.length_append, List.take_append_drop]

theorem mem_leftOf (h : c ∈ leftOf text) : c = '\x00' ∨ c ∈ text := by
  rw [leftOf] at h
  split at h
  · exact .inr h
  · rcases List.mem_append.mp h with h | h
    · exact .inr (List.mem_of_mem_take h)
    · exact (mem_marked h).imp id List.mem_of_mem_drop

theorem head?_leftOf (text : Str) : (leftOf text).head? = text.head? := by
  have hmarked : ∀ s, (marked false s).head? = s.head? := by
    intro s
    cases s with
    | nil => rfl
    | cons c s =>
        rw [marked]
        split <;> rfl
  rw [leftOf]
  split
  · rfl
  · rename_i offset hoffset
    calc (text.take offset ++ marked false (text.drop offset)).head?
        = (text.take offset ++ text.drop offset).head? := by rw [List.head?_append, hmarked, List.head?_append]
      _ = text.head? := by rw [List.take_append_drop]

end Marks

section Examined

/-- The lines that are examined from a call of `strtok` on, with their addresses. -/
def examinedFrom (s : Scan) : List (Nat × Str) :=
  (trace Scan.next (s.mem.length + 1) s).filterMap fun s => s.line.map fun t => (t.pch, t.text)

def examined (recvStr behind : Str) : List (Nat × Str) := examinedFrom (Scan.start recvStr behind)

variable {s u : Scan} {t : Token}

theorem examinedFrom_of_none (h : s.line = none) : examinedFrom s = [] := by
  have hnext : s.next = none := by rw [Scan.next, h, Option.map_none]
  rw [examinedFrom, trace_of_none hnext, List.filterMap_cons_none (by rw [h, Option.map_none])]
  rfl

theorem examinedFrom_of_some (h : s.line = some t) (hu : s.next = some u) :
    examinedFrom s = (t.pch, t.text) :: examinedFrom u := by
  obtain ⟨hlength, hlt, hfurther⟩ := next_cases hu
  have hends : Ends Scan.next s.mem.length u := ends (by omega) (by omega)
  rw [examinedFrom, trace_of_some hu, List.filterMap_cons_some (by rw [h, Option.map_some]), examinedFrom, hlength,
    ← trace_of_ends hends (Nat.le_succ _)]

theorem reached_of_none (h : s.line = none) (hu : Reached Scan.next s u) : u = s := by
  rcases hu.eq_or_pass with rfl | ⟨v, hv, -⟩
  · rfl
  · rw [Scan.next, h, Option.map_none] at hv
    cases hv

end Examined

section Separated

def crlf : List Str → Str
  | [] => []
  | [x] => x
  | x :: y :: xs => x ++ '\r' :: '\n' :: crlf (y :: xs)

def lines : Nat → List Str → List (Nat × Str)
  | _, [] => []
  | a, x :: xs => if x = [] then lines (a + 2) xs else (a, x) :: lines (a + x.length + 2) xs

/-- Every non-empty line directly follows the one in front of it and has a line end; or it is the last one, and the
NUL that the scan meets in it when it goes on is its end, or one that `get_file_data` left. -/
def Orderly : Nat → List Str → Prop
  | _, [] => True
  | gap, [] :: xs => Orderly (gap + 1) xs
  | 0, (_ :: _) :: xs => xs ≠ [] ∧ Orderly 0 xs
  | gap + 1, (c :: x) :: xs => (∀ z ∈ xs, z = []) ∧ (gap = 0 ∨ (leftOf (c :: x))[(c :: x).length - 2 * gap]? = some '\x00')

def gaps (n : Nat) : Str := (List.replicate n ['\r', '\n']).flatten

variable {pieces : List Str} {x : Str} {a : Nat}

theorem length_gaps (n : Nat) : (gaps n).length = 2 * n := by
  rw [gaps, List.length_flatten, List.map_replicate, List.sum_replicate_nat]
  exact Nat.mul_comm n 2

theorem mem_gaps {n : Nat} : ∀ c ∈ gaps n, c ∈ "\r\n".toList := by
  intro c hc
  obtain ⟨l, hl, hc⟩ := List.mem_flatten.mp hc
  rw [List.eq_of_mem_replicate hl] at hc
  exact hc

theorem gaps_succ (n : Nat) (rest : Str) : gaps n ++ '\r' :: '\n' :: rest = gaps (n + 1) ++ rest := by
  rw [gaps, gaps, List.replicate_succ', List.flatten_append, List.append_assoc]
  rfl

theorem lines_eq_nil : lines a pieces = [] ↔ ∀ z ∈ pieces, z = [] := by
  induction pieces generalizing a with
  | nil => exact iff_of_true rfl fun _ h => nomatch h
  | cons x xs ih =>
      rw [lines, List.forall_mem_cons]
      split
      · rename_i hx
        rw [ih]
        exact (and_iff_right hx).symm
      · rename_i hx
        exact iff_of_false (List.cons_ne_nil _ _) fun h => hx h.1

theorem le_of_mem_lines {l : Nat × Str} (h : l ∈ lines a pieces) : a ≤ l.1 := by
  induction pieces generalizing a with
  | nil => cases h
  | cons x xs ih =>
      rw [lines] at h
      split at h
      · have hle := ih h
        omega
      · rcases List.mem_cons.mp h with rfl | htail
        · exact Nat.le_refl _
        · have hle := ih htail
          omega

end Separated

section Walk

variable {front skip text after : Str}

theorem line_some (hskip : ∀ c ∈ skip, c ∈ "\r\n".toList) (hhead : ∃ c, text.head? = some c ∧ c ≠ '\x00')
    (hclean : ∀ c ∈ text, c ∉ "\r\n".toList) :
    ∃ t, Scan.line ⟨front ++ (skip ++ (text ++ '\x00' :: after)), front.length⟩ = some t ∧
      t.pch = front.length + skip.length := by
  obtain ⟨c, hc, hne⟩ := hhead
  obtain ⟨piece, rest, rfl, hpiece, hrest⟩ := Cut.exists_cut (· = '\x00') text
  have hnil : piece ≠ [] := by
    rintro rfl
    rcases hrest with rfl | ⟨d, s, rfl, rfl⟩
    · cases hc
    · exact hne (Option.some.inj hc).symm
  have hin : Clean "\r\n".toList piece := fun d hd => ⟨hpiece d hd, hclean d (List.mem_append_left _ hd)⟩
  rcases hrest with rfl | ⟨d, s, rfl, rfl⟩
  · obtain ⟨further, hline⟩ := @line_text front skip piece after '\x00' hskip hnil hin (.inl rfl)
    rw [List.append_nil]
    exact ⟨_, hline, List.length_append⟩
  · obtain ⟨further, hline⟩ := @line_text front skip piece (s ++ '\x00' :: after) '\x00' hskip hnil hin (.inl rfl)
    rw [List.append_assoc, List.cons_append]
    exact ⟨_, hline, List.length_append⟩

/-- Behind a line with empty lines in front of it the scan goes on too early: at a NUL, or it finds a line that begins
in front of the end of the last one. -/
theorem line_behind_gap (front after : Str) {g : Nat} (htext : text ≠ []) (hclean : Clean "\r\n".toList text) :
    (Scan.line ⟨(front ++ gaps (g + 1)) ++ (leftOf text ++ '\x00' :: after), front.length + text.length + 2⟩ = none ∧
        (g = 0 ∨ (leftOf text)[text.length - 2 * g]? = some '\x00')) ∨
      ((∃ t, Scan.line ⟨(front ++ gaps (g + 1)) ++ (leftOf text ++ '\x00' :: after), front.length + text.length + 2⟩ = some t ∧
          t.pch < front.length + 2 * (g + 1) + text.length) ∧
        ¬ (g = 0 ∨ (leftOf text)[text.length - 2 * g]? = some '\x00')) := by
  have hleft : ∀ c ∈ leftOf text, c ∉ "\r\n".toList := by
    intro c hc
    rcases mem_leftOf hc with rfl | hc
    · decide
    · exact (hclean c hc).2
  have hpos := List.length_pos_iff.mpr htext
  by_cases hzero : g = 0
  · subst hzero
    refine .inl ⟨?_, .inl rfl⟩
    have hend := @line_end (front ++ gaps 1 ++ leftOf text) [] after fun _ h => nomatch h
    have hlength : (front ++ gaps 1 ++ leftOf text).length = front.length + text.length + 2 := by
      rw [List.length_append, List.length_append, length_gaps, length_leftOf]
      omega
    rwa [hlength, List.nil_append, List.append_assoc _ (leftOf text)] at hend
  by_cases hshort : text.length < 2 * g
  · -- the scan goes on in front of the line
    refine .inr ⟨?_, ?_⟩
    · obtain ⟨c, x, rfl⟩ := List.exists_cons_of_ne_nil htext
      obtain ⟨t, hline, hpch⟩ := @line_some (front ++ (gaps (g + 1)).take ((c :: x).length + 2))
        ((gaps (g + 1)).drop ((c :: x).length + 2)) (leftOf (c :: x)) after
        (fun d hd => mem_gaps d (List.mem_of_mem_drop hd)) ⟨c, head?_leftOf _, (hclean c List.mem_cons_self).1⟩ hleft
      rw [List.length_append, List.length_take_of_le (by rw [length_gaps]; omega), List.append_assoc,
        ← List.append_assoc (List.take _ _), List.take_append_drop, ← List.append_assoc] at hline
      rw [List.length_append, List.length_take_of_le (by rw [length_gaps]; omega), List.length_drop, length_gaps] at hpch
      exact ⟨t, hline, by omega⟩
    · rintro (hg | hnul)
      · exact hzero hg
      · rw [Nat.sub_eq_zero_of_le hshort.le, ← List.head?_eq_getElem?, head?_leftOf] at hnul
        exact (hclean _ (List.mem_of_mem_head? hnul)).1 rfl
  · -- the scan goes on in the line
    obtain ⟨u, v, huv, hu⟩ : ∃ u v, leftOf text = u ++ v ∧ u.length = text.length - 2 * g :=
      ⟨_, _, (List.take_append_drop _ _).symm, List.length_take_of_le (by rw [length_leftOf]; omega)⟩
    have hv : v.length = 2 * g := by
      have hlength := congrArg List.length huv
      rw [length_leftOf, List.length_append] at hlength
      omega
    obtain ⟨c, v, rfl⟩ := List.exists_cons_of_length_pos (by omega : 0 < v.length)
    have haddress : front.length + text.length + 2 = (front ++ gaps (g + 1) ++ u).length := by
      rw [List.length_append, List.length_append, length_gaps]
      omega
    have hchar : (leftOf text)[text.length - 2 * g]? = some c := by
      rw [huv, ← hu, List.getElem?_append_right (Nat.le_refl _), Nat.sub_self, List.getElem?_cons_zero]
    rw [hchar, haddress, huv, List.append_assoc u, ← List.append_assoc _ u, Option.some.injEq]
    by_cases hnul : c = '\x00'
    · subst hnul
      exact .inl ⟨@line_end _ [] _ (fun _ h => nomatch h), .inr rfl⟩
    · obtain ⟨t, hline, hpch⟩ := @line_some (front ++ gaps (g + 1) ++ u) [] (c :: v) after (fun _ h => nomatch h)
        ⟨c, rfl, hnul⟩ fun d hd => hleft d (huv ▸ List.mem_append_right _ hd)
      refine .inr ⟨⟨t, hline, ?_⟩, not_or.mpr ⟨hzero, hnul⟩⟩
      rw [hpch, ← haddress, List.length_nil]
      omega

/-- All calls are inside of the request, and the lines are those of it. -/
def Kept (N : Nat) (ls : List (Nat × Str)) (s : Scan) : Prop :=
  (∀ t, Reached Scan.next s t → t.pshift ≤ N) ∧ examinedFrom s = ls

theorem kept_of_none {N : Nat} {ls : List (Nat × Str)} {s : Scan} (h : s.line = none) (hs : s.pshift ≤ N) :
    Kept N ls s ↔ ls = [] := by
  rw [Kept, examinedFrom_of_none h]
  refine ⟨fun hkept => hkept.2.symm, fun hls => ⟨fun t ht => ?_, hls.symm⟩⟩
  rw [reached_of_none h ht]
  exact hs

theorem kept_of_some {N : Nat} {l : Nat × Str} {ls : List (Nat × Str)} {s u : Scan} {t : Token} (h : s.line = some t)
    (hu : s.next = some u) (hs : s.pshift ≤ N) : Kept N (l :: ls) s ↔ l = (t.pch, t.text) ∧ Kept N ls u := by
  rw [Kept, Kept, examinedFrom_of_some h hu, List.cons.injEq]
  constructor
  · rintro ⟨hin, hl, hls⟩
    exact ⟨hl.symm, fun v hv => hin v ((Reached.start.pass hu).trans hv), hls⟩
  · rintro ⟨rfl, hin, hls⟩
    refine ⟨fun v hv => ?_, rfl, hls⟩
    rcases hv.eq_or_pass with rfl | ⟨w, hw, hwv⟩
    · exact hs
    · rw [hu] at hw
      cases hw
      exact hin v hwv

theorem not_kept_of_lt {N : Nat} {ls : List (Nat × Str)} {s : Scan} (h : N < s.pshift) : ¬ Kept N ls s :=
  fun hkept => absurd (hkept.1 s .start) (Nat.not_le.mpr h)

theorem not_kept_of_pch_lt {N a : Nat} {pieces : List Str} {s : Scan} {t : Token} (h : s.line = some t) (hlt : t.pch < a) :
    ¬ Kept N (lines a pieces) s := by
  rintro ⟨-, hlines⟩
  have hnext : s.next = some ⟨(lineTokens t).2, s.pshift + t.text.length + 2⟩ := by
    rw [Scan.next, h, Option.map_some]
  rw [examinedFrom_of_some h hnext] at hlines
  have hmem : (t.pch, t.text) ∈ lines a pieces := hlines ▸ List.mem_cons_self
  exact absurd (le_of_mem_lines hmem) (Nat.not_le.mpr hlt)

theorem crlf_cons (x : Str) (xs : List Str) (behind : Str) : ∃ c after, (c = '\x00' ∨ c ∈ "\r\n".toList) ∧
    crlf (x :: xs) ++ '\x00' :: behind = x ++ c :: after ∧
      (xs ≠ [] → c :: after = '\r' :: '\n' :: (crlf xs ++ '\x00' :: behind)) := by
  cases xs with
  | nil => exact ⟨'\x00', behind, .inl rfl, rfl, fun h => absurd rfl h⟩
  | cons y ys =>
      refine ⟨'\r', '\n' :: (crlf (y :: ys) ++ '\x00' :: behind), .inr (by decide), ?_, fun _ => rfl⟩
      rw [crlf, List.append_assoc]
      rfl

theorem length_crlf_cons (x : Str) {xs : List Str} (hxs : xs ≠ []) :
    (crlf (x :: xs)).length = x.length + 2 + (crlf xs).length := by
  obtain ⟨y, ys, rfl⟩ := List.exists_cons_of_ne_nil hxs
  rw [crlf, List.length_append, List.length_cons, List.length_cons]
  omega

theorem length_le_crlf_cons (x : Str) (xs : List Str) : x.length ≤ (crlf (x :: xs)).length := by
  cases xs with
  | nil => exact Nat.le_refl _
  | cons y ys =>
      rw [length_crlf_cons x (List.cons_ne_nil y ys)]
      omega

theorem kept_iff (behind : Str) {pieces : List Str} (hclean : ∀ x ∈ pieces, Clean "\r\n".toList x) {front : Str}
    {gap N : Nat} (hN : N = front.length + 2 * gap + (crlf pieces).length) :
    Kept N (lines (front.length + 2 * gap) pieces)
        ⟨front ++ (gaps gap ++ (crlf pieces ++ '\x00' :: behind)), front.length⟩ ↔ Orderly gap pieces := by
  induction pieces generalizing gap front with
  | nil =>
      have hline := @line_end front (gaps gap) behind mem_gaps
      exact (kept_of_none hline (by dsimp only; omega)).trans (iff_of_true rfl trivial)
  | cons x xs ih =>
      have hxs : ∀ y ∈ xs, Clean "\r\n".toList y := fun y hy => hclean y (List.mem_cons_of_mem _ hy)
      cases x with
      | nil =>
          rw [lines, if_pos rfl, Orderly, Nat.add_assoc]
          cases xs with
          | nil =>
              have hline := @line_end front (gaps gap) behind mem_gaps
              exact (kept_of_none hline (by dsimp only; omega)).trans (iff_of_true rfl trivial)
          | cons y ys =>
              have hlength := length_crlf_cons [] (List.cons_ne_nil y ys)
              rw [List.length_nil] at hlength
              have hmem : gaps gap ++ (crlf ([] :: y :: ys) ++ '\x00' :: behind) =
                  gaps (gap + 1) ++ (crlf (y :: ys) ++ '\x00' :: behind) := gaps_succ gap _
              rw [hmem]
              exact ih hxs (by omega)
      | cons c x =>
          obtain ⟨d, after, hd, hrest, hafter⟩ := crlf_cons (c :: x) xs behind
          have hx := hclean (c :: x) List.mem_cons_self
          have hnul : '\x00' ∉ c :: x := fun h => (hx _ h).1 rfl
          have hle := length_le_crlf_cons (c :: x) xs
          obtain ⟨further, hline⟩ := @line_text front (gaps gap) (c :: x) after d mem_gaps (List.cons_ne_nil c x) hx hd
          have hnext := @next_text front (gaps gap) (c :: x) after d mem_gaps (List.cons_ne_nil c x) hx hd
          rw [lineRead_left hnul] at hnext
          have haddress : (front ++ gaps gap).length = front.length + 2 * gap := by rw [List.length_append, length_gaps]
          rw [lines, if_neg (List.cons_ne_nil c x), hrest, kept_of_some hline hnext (by dsimp only; omega), haddress,
            and_iff_right rfl]
          cases gap with
          | zero =>
              rw [Orderly]
              cases xs with
              | nil =>
                  refine iff_of_false (not_kept_of_lt ?_) fun h => h.1 rfl
                  rw [hN, crlf]
                  dsimp only
                  omega
              | cons y ys =>
                  obtain ⟨rfl, rfl⟩ := List.cons_eq_cons.mp (hafter (List.cons_ne_nil y ys))
                  have hlength := length_crlf_cons (c :: x) (List.cons_ne_nil y ys)
                  have hfront : (front ++ leftOf (c :: x) ++ ['\x00', '\n']).length = front.length + (c :: x).length + 2 := by
                    rw [List.length_append, List.length_append, length_leftOf]
                    rfl
                  have hkept := @ih hxs (front ++ leftOf (c :: x) ++ ['\x00', '\n']) 0 (by omega)
                  rw [hfront] at hkept
                  simp only [gaps, List.replicate_zero, List.flatten_nil, List.append_nil, List.nil_append,
                    List.append_assoc, List.cons_append, Nat.mul_zero, Nat.add_zero] at hkept ⊢
                  rw [hkept]
                  exact (and_iff_right (List.cons_ne_nil y ys)).symm
          | succ g =>
              rw [Orderly]
              rcases @line_behind_gap (c :: x) front after g (List.cons_ne_nil c x) hx with
                ⟨hnone, hcond⟩ | ⟨⟨t, hsome, hlt⟩, hnot⟩
              · rw [kept_of_none hnone (by dsimp only; omega), lines_eq_nil]
                exact (and_iff_left hcond).symm
              · exact iff_of_false (not_kept_of_pch_lt hsome (by omega)) fun h => hnot h.2

end Walk

section Inside

variable {delim mem mem' : Str} {p N : Nat} {t : Token} {s u : Scan}

def Erased (mem mem' : Str) : Prop :=
  mem'.length = mem.length ∧ ∀ (i : Nat) c, mem'[i]? = some c → c = '\x00' ∨ mem[i]? = some c

theorem Erased.refl (mem : Str) : Erased mem mem := ⟨rfl, fun _ _ h => .inr h⟩

theorem Erased.trans {mem'' : Str} (h : Erased mem mem') (h' : Erased mem' mem'') : Erased mem mem'' := by
  refine ⟨h'.1.trans h.1, fun i c hc => ?_⟩
  rcases h'.2 i c hc with hnul | hc
  · exact .inl hnul
  · exact h.2 i c hc

theorem strtok_spec (h : strtok delim mem p = some t) :
    Erased mem t.mem ∧ t.text ≠ [] ∧ Clean delim t.text ∧ t.text <+: mem.drop t.pch ∧ p ≤ t.pch ∧
      ∀ (i : Nat) c, p ≤ i → i < t.pch → mem[i]? = some c → c ∈ delim := by
  rw [strtok] at h
  generalize hskip : (mem.drop p).takeWhile (fun c => decide (c ∈ delim)) = skip at h
  generalize htext : (mem.drop (p + skip.length)).takeWhile (fun c => decide (c ≠ '\x00' ∧ c ∉ delim)) = text at h
  have hclean : Clean delim text := by
    intro c hc
    rw [← htext] at hc
    have hp := List.mem_takeWhile_imp hc
    exact of_decide_eq_true hp
  have hprefix : text <+: mem.drop (p + skip.length) := htext ▸ List.takeWhile_prefix _
  have hskipped : ∀ (i : Nat) c, p ≤ i → i < p + skip.length → mem[i]? = some c → c ∈ delim := by
    intro i c hp hi hc
    obtain ⟨k, rfl⟩ := Nat.exists_eq_add_of_le hp
    have hleading : skip <+: mem.drop p := hskip ▸ List.takeWhile_prefix _
    have hlt : k < skip.length := by omega
    have hchar := List.prefix_iff_getElem?.mp hleading k hlt
    rw [List.getElem?_drop, hc, Option.some.injEq] at hchar
    have hmem : c ∈ skip := hchar ▸ List.getElem_mem hlt
    rw [← hskip] at hmem
    have hp := List.mem_takeWhile_imp hmem
    exact of_decide_eq_true hp
  split at h
  · cases h
  rename_i hne
  split at h
  · cases h
    exact ⟨.refl mem, hne, hclean, hprefix, Nat.le_add_right _ _, hskipped⟩
  · cases h
    refine ⟨⟨List.length_set, fun i c hc => ?_⟩, hne, hclean, hprefix, Nat.le_add_right _ _, hskipped⟩
    rw [List.getElem?_set] at hc
    split at hc
    · split at hc
      · exact .inl (Option.some.inj hc).symm
      · cases hc
    · exact .inr hc

theorem fileTokens_erased (fuel : Nat) (mem : Str) (v : Nat) : Erased mem (fileTokens fuel mem v).2 := by
  induction fuel generalizing mem v with
  | zero => exact .refl mem
  | succ fuel ih =>
      rw [fileTokens]
      cases htoken : strtok " ?&".toList mem v with
      | none => exact .refl mem
      | some t => exact (strtok_spec htoken).1.trans (ih t.mem t.next)

theorem next_erased (h : s.next = some u) : Erased s.mem u.mem := by
  obtain ⟨t, ht, rfl⟩ := Option.map_eq_some_iff.mp h
  refine (strtok_spec ht).1.trans ?_
  dsimp only
  rw [lineTokens]
  split
  · exact .refl _
  · exact fileTokens_erased _ _ _

theorem reached_erased (h : Reached Scan.next s u) : Erased s.mem u.mem :=
  h.invariant (fun u => Erased s.mem u.mem) (fun _ _ hv hnext => hv.trans (next_erased hnext)) (.refl _)

theorem line_inside (hs : s.pshift ≤ N) (hnul : s.mem[N]? = some '\x00') (h : s.line = some t) :
    s.pshift ≤ t.pch ∧ t.pch + t.text.length ≤ N := by
  obtain ⟨-, -, hclean, hprefix, hle, hskipped⟩ := strtok_spec h
  refine ⟨hle, ?_⟩
  by_contra hlt
  by_cases hin : N < t.pch
  · exact absurd (hskipped N _ hs hin hnul) (by decide)
  · have hlt' : N - t.pch < t.text.length := by omega
    have hchar := List.prefix_iff_getElem?.mp hprefix _ hlt'
    rw [List.getElem?_drop, Nat.add_sub_cancel' (Nat.le_of_not_lt hin), hnul, Option.some.injEq] at hchar
    exact (hclean _ (List.getElem_mem hlt')).1 hchar.symm

end Inside

section Request

/-- The pieces of a request between its line ends, which all are CR LF. -/
structure Separated (request : Str) (pieces : List Str) : Prop where
  clean : ∀ x ∈ pieces, '\r' ∉ x ∧ '\n' ∉ x
  joined : request = crlf pieces

/-- `strtok` is never called beyond the NUL of the request, and the non-empty lines of a request with CR LF are
examined once each, in order. -/
structure StaysInside (recvStr behind : Str) : Prop where
  inside : ∀ s, Reached Scan.next (Scan.start recvStr behind) s → s.pshift ≤ (cstr recvStr).length
  inOrder : ∀ pieces, Separated (cstr recvStr) pieces → examined recvStr behind = lines 0 pieces

/-- In front of the line that is found, and between it and the end of a request of `N` bytes, there are two other bytes. -/
def Followed (N : Nat) (s : Scan) : Prop :=
  ∀ t, s.line = some t → 2 ≤ (t.pch - s.pshift) + (N - (t.pch + t.text.length))

def EndsInTwo (request : Str) : Prop :=
  ∃ front c d, request = front ++ [c, d] ∧ c ∈ "\r\n".toList ∧ d ∈ "\r\n".toList

/-- A request with CR LF has its lines in order. Any other one ends with two characters of line ends, or has two bytes
besides every line that is found: of the line ends skipped in front of it and of what is behind it. A text with one LF
in front of its only line and one behind it is of this kind. Where the lines follow each other with one LF, and one is
at the end, the last line has that byte alone. -/
structure Fits (recvStr behind : Str) : Prop where
  separated : ∀ pieces, Separated (cstr recvStr) pieces → Orderly 0 pieces
  other : (∀ pieces, ¬ Separated (cstr recvStr) pieces) → EndsInTwo (cstr recvStr) ∨
    ∀ s, Reached Scan.next (Scan.start recvStr behind) s → Followed (cstr recvStr).length s

variable {recvStr behind : Str} {pieces : List Str} {s : Scan}

theorem start_nul (recvStr behind : Str) : (Scan.start recvStr behind).mem[(cstr recvStr).length]? = some '\x00' := by
  rw [Scan.start, Request.memory, List.getElem?_append_right (Nat.le_refl _), Nat.sub_self, List.getElem?_cons_zero]

theorem reached_nul (h : Reached Scan.next (Scan.start recvStr behind) s) :
    s.mem[(cstr recvStr).length]? = some '\x00' := by
  obtain ⟨hlength, herased⟩ := reached_erased h
  have hnul := start_nul recvStr behind
  obtain ⟨hlt, -⟩ := List.getElem?_eq_some_iff.mp hnul
  have hchar := List.getElem?_eq_getElem (hlength ▸ hlt)
  rcases herased _ _ hchar with heq | hsame
  · rw [hchar, heq]
  · rw [hchar, ← hsame, hnul]

theorem inside_iff : (∀ s, Reached Scan.next (Scan.start recvStr behind) s → s.pshift ≤ (cstr recvStr).length) ↔
    ∀ s, Reached Scan.next (Scan.start recvStr behind) s → Followed (cstr recvStr).length s := by
  constructor
  · intro hin s hs t ht
    have hnext : s.next = some ⟨(lineTokens t).2, s.pshift + t.text.length + 2⟩ := by rw [Scan.next, ht, Option.map_some]
    have hle := hin _ (hs.pass hnext)
    obtain ⟨hpch, hend⟩ := line_inside (hin s hs) (reached_nul hs) ht
    dsimp only at hle
    omega
  · intro hfollowed s hs
    induction hs with
    | start => exact Nat.zero_le _
    | @pass s u hs hu ih =>
        obtain ⟨t, ht, rfl⟩ := Option.map_eq_some_iff.mp hu
        obtain ⟨hpch, hend⟩ := line_inside ih (reached_nul hs) ht
        have htwo := hfollowed s hs t ht
        dsimp only
        omega

/-- With two characters of line ends at its end no request is left. -/
theorem followed_of_endsInTwo (h : EndsInTwo (cstr recvStr)) (hs : Reached Scan.next (Scan.start recvStr behind) s)
    (hin : s.pshift ≤ (cstr recvStr).length) : Followed (cstr recvStr).length s := by
  obtain ⟨front, c, d, hsplit, hc, hd⟩ := h
  intro t ht
  obtain ⟨hpch, hend⟩ := line_inside hin (reached_nul hs) ht
  obtain ⟨-, hne, hclean, hprefix, -⟩ := strtok_spec ht
  have hlength : (cstr recvStr).length = front.length + 2 := by rw [hsplit, List.length_append]; rfl
  have hpos := List.length_pos_iff.mpr hne
  by_contra hlt
  have hlast := List.prefix_iff_getElem?.mp hprefix (t.text.length - 1) (by omega)
  rw [List.getElem?_drop] at hlast
  have hx := hclean _ (List.getElem_mem (by omega : t.text.length - 1 < t.text.length))
  generalize t.text[t.text.length - 1] = x at hlast hx
  rcases (reached_erased hs).2 _ _ hlast with hnul | hsame
  · exact hx.1 hnul
  · have hmem : (Scan.start recvStr behind).mem = front ++ ([c, d] ++ '\x00' :: behind) := by
      rw [Scan.start, Request.memory, hsplit, List.append_assoc]
    obtain hfirst | hsecond : t.pch + (t.text.length - 1) = front.length ∨ t.pch + (t.text.length - 1) = front.length + 1 := by
      omega
    · rw [hmem, hfirst, List.getElem?_append_right (Nat.le_refl _), Nat.sub_self] at hsame
      exact hx.2 (Option.some.inj hsame ▸ hc)
    · rw [hmem, hsecond, List.getElem?_append_right (Nat.le_add_right _ _), Nat.add_sub_cancel_left] at hsame
      exact hx.2 (Option.some.inj hsame ▸ hd)

theorem inside_of_endsInTwo (h : EndsInTwo (cstr recvStr)) (hs : Reached Scan.next (Scan.start recvStr behind) s) :
    s.pshift ≤ (cstr recvStr).length := by
  induction hs with
  | start => exact Nat.zero_le _
  | @pass s u hs hu ih =>
      obtain ⟨t, ht, rfl⟩ := Option.map_eq_some_iff.mp hu
      obtain ⟨hpch, hend⟩ := line_inside ih (reached_nul hs) ht
      have htwo := followed_of_endsInTwo h hs ih t ht
      dsimp only
      omega

theorem mem_crlf {x : Str} {c : Char} (hx : x ∈ pieces) (hc : c ∈ x) : c ∈ crlf pieces := by
  induction pieces with
  | nil => cases hx
  | cons y ys ih =>
      cases ys with
      | nil => exact List.mem_singleton.mp hx ▸ hc
      | cons z zs =>
          rw [crlf]
          rcases List.mem_cons.mp hx with rfl | hx
          · exact List.mem_append_left _ hc
          · exact List.mem_append_right _ (List.mem_cons_of_mem _ (List.mem_cons_of_mem _ (ih hx)))

theorem separated_iff (h : Separated (cstr recvStr) pieces) :
    (∀ s, Reached Scan.next (Scan.start recvStr behind) s → s.pshift ≤ (cstr recvStr).length) ∧
      examined recvStr behind = lines 0 pieces ↔ Orderly 0 pieces := by
  have hclean : ∀ x ∈ pieces, Clean "\r\n".toList x := by
    intro x hx c hc
    obtain ⟨hcr, hlf⟩ := h.clean x hx
    refine ⟨?_, fun hmem => ?_⟩
    · rintro rfl
      have hnul : '\x00' ∈ cstr recvStr := h.joined ▸ mem_crlf hx hc
      exact Cut.not_mem_takeWhile_ne '\x00' recvStr hnul
    · rcases List.mem_pair.mp hmem with rfl | rfl
      · exact hcr hc
      · exact hlf hc
  have hlength : (cstr recvStr).length = ([] : Str).length + 2 * 0 + (crlf pieces).length := by
    rw [h.joined, List.length_nil, Nat.mul_zero, Nat.zero_add]
  have hkept := @kept_iff behind pieces hclean [] 0 (cstr recvStr).length hlength
  rw [← h.joined] at hkept
  exact hkept

theorem staysInside_iff (recvStr behind : Str) : StaysInside recvStr behind ↔ Fits recvStr behind := by
  constructor
  · rintro ⟨hinside, horder⟩
    exact ⟨fun pieces hpieces => (separated_iff hpieces).mp ⟨hinside, horder pieces hpieces⟩,
      fun _ => .inr (inside_iff.mp hinside)⟩
  · rintro ⟨hseparated, hother⟩
    refine ⟨?_, fun pieces hpieces => ((separated_iff hpieces).mpr (hseparated pieces hpieces)).2⟩
    by_cases hsome : ∃ pieces, Separated (cstr recvStr) pieces
    · obtain ⟨pieces, hpieces⟩ := hsome
      exact ((separated_iff hpieces).mpr (hseparated pieces hpieces)).1
    · rcases hother (not_exists.mp hsome) with htwo | hfollowed
      · exact fun s hs => inside_of_endsInTwo htwo hs
      · exact inside_iff.mpr hfollowed

/-- A request without a line end: the next call is two bytes behind its end. -/
theorem not_staysInside_line : ¬ ∀ recvStr behind : Str, 10 < recvStr.length → StaysInside recvStr behind := by
  intro h
  have hinside := h "GET /?id=1&module=m HTTP/1.1".toList [] (by decide)
  have hpieces : Separated (cstr "GET /?id=1&module=m HTTP/1.1".toList) ["GET /?id=1&module=m HTTP/1.1".toList] := by
    refine ⟨fun x hx => ?_, by decide⟩
    obtain rfl := List.mem_singleton.mp hx
    decide
  exact ((separated_iff hpieces).mp ⟨hinside.inside, hinside.inOrder _ hpieces⟩).1 rfl

end Request

end RadioServices.Musicgo.ScanBound

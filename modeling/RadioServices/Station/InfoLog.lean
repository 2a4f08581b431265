import RadioServices.Logger.LogSize
import RadioServices.Lib.Runs

namespace RadioServices.Station.InfoLog

open Lib.C Lib.Scan Lib.Runs Logger.LogSize

structure TInfoLog where
  logSize : Int
  header : Str
  file : Option Str

/-- What is written, with the memory behind the buffer of the tail and whether the file can be opened to cut it and
to write to it. -/
structure Write where
  str : Str
  behind : Str
  cutOpens : Bool
  opens : Bool

inductive Event
  | setHeader (header : Str)
  | write (w : Write)

/-- `check_log_size`, which does not return where a log that is too large cannot be opened. -/
def checkLogSize (l : TInfoLog) (w : Write) : Option TInfoLog :=
  match l.file with
  | none => some l
  | some old =>
      if l.logSize = 0 ∨ (old.length : Int) < l.logSize then some l
      else if w.cutOpens = true then
        some { l with file := some (Logger.LogSize.checkLogSize l.header old w.behind l.logSize).file }
      else none

def Write.written (w : Write) : Str := if w.opens = true then w.str else []

/-- `Tlog::write`, which does not open the file for an empty text. -/
def append (l : TInfoLog) (w : Write) : TInfoLog :=
  if w.str = [] ∨ w.opens = false then l else { l with file := some (l.file.getD [] ++ w.str) }

def write (l : TInfoLog) (w : Write) : Option TInfoLog := (checkLogSize l w).map fun l => append l w

def info (msg : Str) : Str := COMMENT_INFO ++ msg

def step (l : TInfoLog) : Event → Option TInfoLog
  | .setHeader header => some { l with header := header }
  | .write w => write l w

def written : Event → Str
  | .setHeader _ => []
  | .write w => w.written

def Holds (file t later : Str) : Prop := ∃ a b g c, file = a ++ t ++ b ++ g ++ c ∧ b ++ c = later

/-- The header leaves room in the log for two buffers, and what is written has no NUL. -/
def Sound (logSize : Int) : Event → Prop
  | .setHeader header => (header.length : Int) + 2 * sz ≤ logSize
  | .write w => '\x00' ∉ w.str

instance (logSize : Int) : ∀ e, Decidable (Sound logSize e)
  | .setHeader header => inferInstanceAs (Decidable ((header.length : Int) + 2 * sz ≤ logSize))
  | .write w => inferInstanceAs (Decidable ('\x00' ∉ w.str))

/-- What was written since the log was cut has no NUL, and one buffer is left above what was there then. -/
structure Plain (l : TInfoLog) : Prop where
  header : (l.header.length : Int) + 2 * sz ≤ l.logSize
  recent : ∃ base recent, l.file.getD [] = base ++ recent ∧ '\x00' ∉ recent ∧ (base.length : Int) + sz ≤ l.logSize

section Cuts

variable {l l' : TInfoLog} {w : Write} {old : Str}

theorem append_file (l : TInfoLog) (w : Write) : (append l w).file.getD [] = l.file.getD [] ++ w.written := by
  rw [append, Write.written]
  by_cases hopens : w.opens = true
  · rw [if_pos hopens]
    split
    · rename_i h
      have hnil : w.str = [] := h.resolve_right (by simp [hopens])
      rw [hnil, List.append_nil]
    · rfl
  · rw [if_neg hopens, if_pos (.inr (Bool.eq_false_iff.mpr hopens)), List.append_nil]

theorem append_header (l : TInfoLog) (w : Write) : (append l w).header = l.header := by
  rw [append]
  split <;> rfl

theorem append_logSize (l : TInfoLog) (w : Write) : (append l w).logSize = l.logSize := by
  rw [append]
  split <;> rfl

/-- A log is left as it is or cut, and then written to. -/
theorem write_cases (h : write l w = some l') : l'.header = l.header ∧ l'.logSize = l.logSize ∧
    (l'.file.getD [] = l.file.getD [] ++ w.written ∧
        (l.logSize = 0 ∨ l.file = none ∨ ((l.file.getD []).length : Int) < l.logSize) ∨
      ∃ old, l.file = some old ∧ l.logSize ≠ 0 ∧ l.logSize ≤ old.length ∧
        l'.file.getD [] = (cutLog l.header old w.behind).file ++ w.written) := by
  rw [write, Option.map_eq_some_iff] at h
  obtain ⟨m, hm, rfl⟩ := h
  rw [append_file, append_header, append_logSize]
  rw [checkLogSize] at hm
  cases hfile : l.file with
  | none =>
      rw [hfile] at hm
      obtain rfl := Option.some.inj hm
      exact ⟨rfl, rfl, .inl ⟨by rw [hfile], .inr (.inl rfl)⟩⟩
  | some old =>
      rw [hfile] at hm
      dsimp only at hm
      split at hm
      · rename_i hsmall
        obtain rfl := Option.some.inj hm
        exact ⟨rfl, rfl, .inl ⟨by rw [hfile], hsmall.imp id .inr⟩⟩
      · rename_i hlarge
        rw [not_or, Int.not_lt] at hlarge
        split at hm
        · obtain rfl := Option.some.inj hm
          refine ⟨rfl, rfl, .inr ⟨old, rfl, hlarge.1, hlarge.2, ?_⟩⟩
          rw [Logger.LogSize.checkLogSize, if_neg hlarge.1, if_pos hlarge.2]
          rfl
        · cases hm

theorem length_cutLog (header old behind : Str) : (cutLog header old behind).file.length ≤ header.length + sz := by
  rw [cutLog]
  split
  · exact Nat.le_add_right _ _
  · dsimp only
    split
    · exact Nat.le_add_right _ _
    · rw [List.length_append, List.length_take]
      omega

/-- A log that is cut keeps what comes from a marker near its end on. -/
theorem cutLog_marked {header behind a t : Str} (hlen : ¬ (a ++ (COMMENT_INFO ++ t)).length < sz)
    (hfits : (COMMENT_INFO ++ t).length ≤ sz) (hnul : '\x00' ∉ tail (a ++ (COMMENT_INFO ++ t))) :
    ∃ x g, (cutLog header (a ++ (COMMENT_INFO ++ t)) behind).file = x ++ (COMMENT_INFO ++ t) ++ g := by
  generalize hold : a ++ (COMMENT_INFO ++ t) = old at hlen hnul
  obtain ⟨x, htail⟩ : ∃ x, tail old = x ++ (COMMENT_INFO ++ t) := by
    refine ⟨a.drop (old.length - sz), ?_⟩
    have hle : old.length - sz ≤ a.length := by
      rw [← hold, List.length_append]
      omega
    rw [tail]
    conv_lhs => arg 2; rw [← hold]
    exact List.drop_append_of_le_length hle
  have hxlen : x.length ≤ (tail old).length := by
    rw [htail, List.length_append]
    exact Nat.le_add_right _ _
  have hmarked : strstrVerdict COMMENT_INFO ((buffer old behind).drop x.length) = .accept := by
    rw [strstrVerdict_accept, buffer_drop hxlen, htail, List.drop_left, List.append_assoc]
    exact List.prefix_append _ _
  obtain ⟨k, hk, hne, hpassed⟩ := @exists_first _ (strstrVerdict COMMENT_INFO) (buffer old behind) x.length
    (by rw [hmarked]; exact Verdict.noConfusion)
  have hdrop : (buffer old behind).drop k = x.drop k ++ (COMMENT_INFO ++ t) ++ (behind ++ ['\x00']) := by
    rw [buffer_drop (hk.trans hxlen), htail, List.drop_append_of_le_length hk]
  have haccept : strstrVerdict COMMENT_INFO ((buffer old behind).drop k) = .accept := by
    cases hverdict : strstrVerdict COMMENT_INFO ((buffer old behind).drop k) with
    | pass => exact absurd hverdict hne
    | accept => rfl
    | stop =>
        -- a NUL in front of the marker would stand in the buffer
        obtain ⟨rest, hrest⟩ := strstrVerdict_stop.mp hverdict
        have hcons : ∃ c u, x.drop k ++ (COMMENT_INFO ++ t) = c :: u := by
          cases hcase : x.drop k ++ (COMMENT_INFO ++ t) with
          | nil => cases (List.append_eq_nil_iff.mp (List.append_eq_nil_iff.mp hcase).2).1
          | cons c u => exact ⟨c, u, rfl⟩
        obtain ⟨c, u, hcons⟩ := hcons
        rw [hdrop, hcons] at hrest
        have hc : c = '\x00' := (List.cons.inj hrest).1
        refine absurd ?_ hnul
        rw [htail, ← hc]
        have hmem : c ∈ x.drop k ++ (COMMENT_INFO ++ t) := hcons ▸ List.mem_cons_self
        rcases List.mem_append.mp hmem with hmem | hmem
        · exact List.mem_append_left _ (List.mem_of_mem_drop hmem)
        · exact List.mem_append_right _ hmem
  have hlength : k < (buffer old behind).length := by
    rw [buffer, List.length_append, List.length_append, List.length_singleton]
    omega
  rw [cutLog_of_some behind hlen (scan_eq_some_iff.mpr ⟨k, hlength, (Nat.zero_add k).symm, haccept, hpassed⟩), hdrop]
  refine ⟨header ++ x.drop k, (behind ++ ['\x00']).take (sz - (x.drop k ++ (COMMENT_INFO ++ t)).length), ?_⟩
  have hroom : (x.drop k ++ (COMMENT_INFO ++ t)).length ≤ sz := by
    have htotal := length_tail hlen
    rw [htail, List.length_append] at htotal
    rw [List.length_append, List.length_drop]
    omega
  dsimp only
  rw [List.take_append, List.take_of_length_le hroom]
  simp only [List.append_assoc]

end Cuts

/-- The text and what was written after it end the file, or a cut lies behind and the next one is far. -/
def Held (t done : Str) (l : TInfoLog) : Prop :=
  (∃ a, l.file.getD [] = a ++ (t ++ done)) ∨
    ∃ a b g c, l.file.getD [] = a ++ t ++ b ++ g ++ c ∧ b ++ c = done ∧
      (((a ++ t ++ b ++ g).length : Nat) : Int) + sz ≤ l.logSize

section Retention

variable {l l' : TInfoLog} {w : Write}

theorem written_plain (h : Sound l.logSize (.write w)) : '\x00' ∉ w.written := by
  rw [Write.written]
  split
  · exact h
  · exact List.not_mem_nil

/-- Before the next cut as much as the buffer has was written after the last one. -/
theorem nul_not_mem_tail (h : Plain l) {old : Str} (hfile : l.file = some old) (hlarge : l.logSize ≤ old.length) :
    '\x00' ∉ tail old := by
  obtain ⟨base, recent, hold, hnul, hbase⟩ := h.recent
  rw [hfile, Option.getD_some] at hold
  subst hold
  rw [List.length_append] at hlarge
  rw [tail, List.length_append, List.drop_append, List.drop_of_length_le (by omega), List.nil_append]
  exact fun hmem => hnul (List.mem_of_mem_drop hmem)

theorem write_plain (h : Plain l) (hsound : Sound l.logSize (.write w)) (hwrite : write l w = some l') : Plain l' := by
  have hheader := h.header
  obtain ⟨base, recent, hold, hnul, hbase⟩ := h.recent
  obtain ⟨hsame, hsize, ⟨hfile, -⟩ | ⟨old, hfile, -, -, hcut⟩⟩ := write_cases hwrite
  · refine ⟨by rwa [hsame, hsize], base, recent ++ w.written, ?_, ?_, by rwa [hsize]⟩
    · rw [hfile, hold, List.append_assoc]
    · exact fun hmem => (List.mem_append.mp hmem).elim hnul (written_plain hsound)
  · refine ⟨by rwa [hsame, hsize], (cutLog l.header old w.behind).file, w.written, hcut, written_plain hsound, ?_⟩
    have hlength := length_cutLog l.header old w.behind
    rw [hsize]
    omega

theorem step_plain {e : Event} (h : Plain l) (hsound : Sound l.logSize e) (hstep : step l e = some l') :
    Plain l' ∧ l'.logSize = l.logSize := by
  cases e with
  | setHeader header =>
      obtain rfl := Option.some.inj hstep
      exact ⟨⟨hsound, h.recent⟩, rfl⟩
  | write w => exact ⟨write_plain h hsound hstep, (write_cases hstep).2.1⟩

theorem write_held {t done : Str} (h : Plain l) (hheld : Held (info t) done l) (hfits : (info t ++ done).length ≤ sz)
    (hwrite : write l w = some l') : Held (info t) (done ++ w.written) l' := by
  obtain ⟨-, hsize, ⟨hfile, -⟩ | ⟨old, hfile, -, hlarge, hcut⟩⟩ := write_cases hwrite
  · rcases hheld with ⟨a, ha⟩ | ⟨a, b, g, c, hheld, hdone, hroom⟩
    · exact .inl ⟨a, by rw [hfile, ha]; simp only [List.append_assoc]⟩
    · refine .inr ⟨a, b, g, c ++ w.written, ?_, by rw [← hdone, List.append_assoc], by rwa [hsize]⟩
      rw [hfile, hheld, List.append_assoc]
  · rcases hheld with ⟨a, ha⟩ | ⟨a, b, g, c, hheld, hdone, hroom⟩
    · rw [hfile, Option.getD_some] at ha
      have hheader := h.header
      have hnul := nul_not_mem_tail h hfile hlarge
      rw [info, List.append_assoc] at ha hfits
      subst ha
      obtain ⟨x, g, hkept⟩ := @cutLog_marked l.header w.behind a (t ++ done) (by omega) hfits hnul
      have hlength := length_cutLog l.header (a ++ (COMMENT_INFO ++ (t ++ done))) w.behind
      rw [hkept] at hlength hcut
      refine .inr ⟨x, done, g, w.written, ?_, rfl, ?_⟩
      · rw [hcut, info]
        simp only [List.append_assoc]
      · rw [hsize, info]
        simp only [List.length_append] at hlength ⊢
        omega
    · -- what was written since the cut is less than one buffer
      rw [hfile, Option.getD_some] at hheld
      rw [hheld, List.length_append] at hlarge
      have hseven : COMMENT_INFO.length = 7 := rfl
      rw [info, ← hdone] at hfits
      simp only [List.length_append] at hfits hlarge hroom
      omega

theorem foldlM_held {t done : Str} {events : List Event} (h : Plain l) (hheld : Held (info t) done l)
    (hsound : ∀ e ∈ events, Sound l.logSize e) (hfits : (info t ++ done ++ events.flatMap written).length ≤ sz)
    (hrun : events.foldlM step l = some l') : Held (info t) (done ++ events.flatMap written) l' := by
  induction events generalizing l done with
  | nil =>
      obtain rfl := Option.some.inj hrun
      rwa [List.flatMap_nil, List.append_nil]
  | cons e events ih =>
      rw [List.foldlM_cons, Option.bind_eq_bind, Option.bind_eq_some_iff] at hrun
      obtain ⟨m, hstep, hrun⟩ := hrun
      rw [List.forall_mem_cons] at hsound
      obtain ⟨hplain, hsize⟩ := step_plain h hsound.1 hstep
      rw [List.flatMap_cons, ← List.append_assoc] at hfits ⊢
      rw [List.append_assoc (info t)] at hfits
      refine ih hplain ?_ (hsize ▸ hsound.2) hfits hrun
      cases e with
      | setHeader header =>
          obtain rfl := Option.some.inj hstep
          rw [written, List.append_nil]
          exact hheld
      | write w =>
          refine write_held h hheld ?_ hstep
          simp only [List.length_append] at hfits ⊢
          omega

theorem held_of_info {t : Str} (hopens : w.opens = true) (hstr : w.str = info t)
    (hwrite : write l w = some l') : Held (info t) [] l' := by
  have hwritten : w.written = info t := by rw [Write.written, if_pos hopens, hstr]
  obtain ⟨-, -, ⟨hfile, -⟩ | ⟨old, -, -, -, hcut⟩⟩ := write_cases hwrite
  · exact .inl ⟨l.file.getD [], by rw [hfile, hwritten, List.append_nil]⟩
  · exact .inl ⟨(cutLog l.header old w.behind).file, by rw [hcut, hwritten, List.append_nil]⟩

theorem holds_of_held {t done : Str} (h : Held t done l) : Holds (l.file.getD []) t done := by
  rcases h with ⟨a, ha⟩ | ⟨a, b, g, c, hfile, hdone, -⟩
  · exact ⟨a, done, [], [], by rw [ha]; simp only [List.append_assoc, List.append_nil], List.append_nil _⟩
  · exact ⟨a, b, g, c, hfile, hdone⟩

end Retention

/-- An error stays in the log until a buffer was written, with all that came after it. -/
theorem run_retains {l l' : TInfoLog} {before later : List Event} {w : Write} {msg : Str} (hplain : Plain l)
    (hstr : w.str = info msg) (hopens : w.opens = true)
    (hsound : ∀ e ∈ before ++ .write w :: later, Sound l.logSize e)
    (hfits : (info msg ++ later.flatMap written).length ≤ sz)
    (hrun : (before ++ .write w :: later).foldlM step l = some l') :
    Holds (l'.file.getD []) (info msg) (later.flatMap written) := by
  rw [List.foldlM_append, Option.bind_eq_bind, Option.bind_eq_some_iff] at hrun
  obtain ⟨m, hbefore, hrun⟩ := hrun
  rw [List.forall_mem_append, List.forall_mem_cons] at hsound
  have hm : Plain m ∧ m.logSize = l.logSize := by
    refine foldlM_invariant_of_mem (fun m => Plain m ∧ m.logSize = l.logSize) ?_ hbefore ⟨hplain, rfl⟩
    intro a e b he hstep ha
    obtain ⟨hb, hsize⟩ := step_plain ha.1 (ha.2 ▸ hsound.1 e he) hstep
    exact ⟨hb, hsize.trans ha.2⟩
  rw [List.foldlM_cons, Option.bind_eq_bind, Option.bind_eq_some_iff] at hrun
  obtain ⟨n, hwrite, hrun⟩ := hrun
  obtain ⟨hn, hsize⟩ := step_plain (e := .write w) hm.1 (hm.2 ▸ hsound.2.1) hwrite
  have hlast := foldlM_held hn (held_of_info hopens hstr hwrite) (hsize ▸ hm.2 ▸ hsound.2.2)
    (by rwa [List.append_nil]) hrun
  exact holds_of_held hlast

/-- The file is as long as it was. The error is in front of a cut. -/
def fullLog : TInfoLog := ⟨3072, [], some (List.replicate 3065 'x')⟩

def firstError : Write := ⟨info "a".toList, [], true, true⟩

def laterWrites : List Event := [.write ⟨"b".toList, [], true, true⟩, .write ⟨"c".toList, [], true, true⟩]

theorem run_retains_demo : ∃ l, ([] ++ Event.write firstError :: laterWrites).foldlM step fullLog = some l ∧
    Holds (l.file.getD []) (info "a".toList) "bc".toList := by
  have hsome : (([] ++ Event.write firstError :: laterWrites).foldlM step fullLog).isSome = true := by decide +kernel
  have hplain : Plain fullLog :=
    ⟨by decide, [], List.replicate 3065 'x', rfl, fun h => absurd (List.eq_of_mem_replicate h) (by decide), by decide⟩
  obtain ⟨l, hl⟩ := Option.isSome_iff_exists.mp hsome
  exact ⟨l, hl, @run_retains fullLog l [] laterWrites firstError "a".toList hplain rfl rfl (by decide) (by decide) hl⟩

/-- The log is never longer than its limit, or a header with the tail, and one text. -/
theorem run_bounded {l l' : TInfoLog} {events : List Event} {longest : Nat} {H : Nat} (hpos : 0 < l.logSize)
    (hheader : l.header.length ≤ H) (hheaders : ∀ header, .setHeader header ∈ events → header.length ≤ H)
    (hstr : ∀ w, .write w ∈ events → w.str.length ≤ longest)
    (hfile : ((l.file.getD []).length : Int) < max l.logSize (H + sz + 1) + longest)
    (hrun : events.foldlM step l = some l') :
    ((l'.file.getD []).length : Int) < max l.logSize (H + sz + 1) + longest := by
  have hlast : l'.logSize = l.logSize ∧ l'.header.length ≤ H ∧
      ((l'.file.getD []).length : Int) < max l.logSize (H + sz + 1) + longest := by
    refine foldlM_invariant_of_mem (fun m => m.logSize = l.logSize ∧ m.header.length ≤ H ∧
      ((m.file.getD []).length : Int) < max l.logSize (H + sz + 1) + longest) ?_ hrun ⟨rfl, hheader, hfile⟩
    rintro a e b he hstep ⟨hsize, hlen, hbound⟩
    cases e with
    | setHeader header =>
        obtain rfl := Option.some.inj hstep
        exact ⟨hsize, hheaders header he, hbound⟩
    | write w =>
        have hwritten : w.written.length ≤ longest := by
          rw [Write.written]
          split
          · exact hstr w he
          · exact Nat.zero_le _
        obtain ⟨hsame, hnext, ⟨happend, hsmall⟩ | ⟨old, -, -, -, hcut⟩⟩ := write_cases hstep
        · refine ⟨hnext.trans hsize, hsame ▸ hlen, ?_⟩
          rw [happend, List.length_append]
          rcases hsmall with hzero | hnone | hlt
          · omega
          · rw [hnone, Option.getD_none, List.length_nil]
            omega
          · omega
        · have hlength := length_cutLog a.header old w.behind
          refine ⟨hnext.trans hsize, hsame ▸ hlen, ?_⟩
          rw [hcut, List.length_append]
          omega
  exact hlast.2.2

theorem run_bounded_demo : ∃ l, (Event.write firstError :: laterWrites).foldlM step fullLog = some l ∧
    ((l.file.getD []).length : Int) < max 3072 (0 + sz + 1) + 8 := by
  have hsome : ((Event.write firstError :: laterWrites).foldlM step fullLog).isSome = true := by decide +kernel
  obtain ⟨l, hl⟩ := Option.isSome_iff_exists.mp hsome
  refine ⟨l, hl, @run_bounded fullLog l (.write firstError :: laterWrites) 8 0 (by decide) (by decide) ?_ ?_ ?_ hl⟩
  · intro header h
    simp [laterWrites] at h
  · intro w h
    simp only [laterWrites, List.mem_cons, Event.write.injEq, List.not_mem_nil, or_false] at h
    rcases h with rfl | rfl | rfl <;> decide
  · rw [fullLog, Option.getD_some, List.length_replicate, sz_eq]
    decide

end RadioServices.Station.InfoLog

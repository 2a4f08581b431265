import RadioServices.Accordion.Parameters
import Mathlib.Data.List.Nodup
import Mathlib.Logic.Function.Basic

namespace RadioServices.Accordion.ConfigParam

open Lib Lib.C

inductive Key
  | host
  | port
  | mount
  | streamtype
  | channelid
  | channeltype
  deriving DecidableEq

namespace Key

def text : Key → Str
  | .host => "host".toList
  | .port => "port".toList
  | .mount => "mount".toList
  | .streamtype => "streamtype".toList
  | .channelid => "channelid".toList
  | .channeltype => "channeltype".toList

def all : List Key := [.host, .port, .mount, .streamtype, .channelid, .channeltype]

end Key

/-- The keys of `config_param` in the order of their addresses. -/
abbrev Order := {order : List Key // order.Perm Key.all}

abbrev TconfigParam := Key → Str

/-- The loop over the map for one argument, which ends at the first key that occurs in it. -/
def override : List Key → TconfigParam → Str → TconfigParam
  | [], config, _ => config
  | s :: order, config, arg =>
      match find s.text arg with
      | none => override order config arg
      | some c =>
          match strchr c '=' with
          | none => config
          | some c => Function.update config s c.tail

def tconfig (order : Order) (argv : List Str) : TconfigParam :=
  (argv.drop 2).foldl (override order) fun _ => []

abbrev Given := {given : List (Key × Str) // (given.map Prod.fst).Nodup}

def argument (p : Key × Str) : Str := p.1.text ++ '=' :: p.2

/-- Every name has the value given for it, and is empty if none is. -/
def Assigned (config : TconfigParam) (given : List (Key × Str)) : Prop :=
  (∀ p ∈ given, config p.1 = p.2) ∧ ∀ s ∉ given.map Prod.fst, config s = []

def ahead (order : List Key) (s : Key) : List Key := order.takeWhile (· ≠ s)

def Unshadowed (order : List Key) (p : Key × Str) : Prop := ∀ s ∈ ahead order p.1, ¬ s.text <:+: p.2

section Texts

theorem text_ne_nil (s : Key) : s.text ≠ [] := by
  cases s <;> decide

theorem eq_not_mem_text (s : Key) : '=' ∉ s.text := by
  cases s <;> decide

/-- No name occurs in another one. -/
theorem find_text (s t : Key) : find s.text t.text = if s = t then some t.text else none := by
  cases s <;> cases t <;> decide

theorem find_argument (s : Key) (p : Key × Str) :
    find s.text (argument p) = if s = p.1 then some (argument p) else find s.text p.2 := by
  rw [argument, find_append_cons (eq_not_mem_text s) (text_ne_nil s), find_text]
  by_cases h : s = p.1
  · rw [if_pos h, if_pos h]
  · rw [if_neg h, if_neg h]

end Texts

section Override

variable {config : TconfigParam} {order : List Key}

theorem override_argument {p : Key × Str} (hmem : p.1 ∈ order) (h : Unshadowed order p) :
    override order config (argument p) = Function.update config p.1 p.2 := by
  induction order with
  | nil => exact absurd hmem List.not_mem_nil
  | cons s order ih =>
      rw [override, find_argument]
      by_cases hs : s = p.1
      · rw [if_pos hs, argument]
        dsimp only
        rw [strchr_append (eq_not_mem_text p.1), hs]
        rfl
      · have hahead : ahead (s :: order) p.1 = s :: ahead order p.1 :=
          List.takeWhile_cons_of_pos (decide_eq_true hs)
        rw [Unshadowed, hahead] at h
        rw [if_neg hs, (find_eq_none (text_ne_nil s)).mpr (h s List.mem_cons_self)]
        exact ih (List.mem_of_ne_of_mem (Ne.symm hs) hmem) fun t ht => h t (List.mem_cons_of_mem _ ht)

theorem override_cases (config : TconfigParam) (arg : Str) (order : List Key) :
    override order config arg = config ∨
      ∃ s value, override order config arg = Function.update config s value ∧ value <:+ arg ∧
        ∀ t ∈ ahead order s, ¬ t.text <:+: arg := by
  induction order with
  | nil => exact .inl rfl
  | cons t order ih =>
      rw [override]
      cases hfind : find t.text arg with
      | none =>
          refine ih.imp_right fun ⟨s, value, hset, hsuffix, hahead⟩ => ⟨s, value, hset, hsuffix, fun u hu => ?_⟩
          rw [ahead, List.takeWhile_cons] at hu
          split at hu
          · rcases List.mem_cons.mp hu with rfl | hu
            · exact (find_eq_none (text_ne_nil u)).mp hfind
            · exact hahead u hu
          · exact absurd hu List.not_mem_nil
      | some c =>
          dsimp only
          cases hchr : strchr c '=' with
          | none => exact .inl rfl
          | some e =>
              refine .inr ⟨t, e.tail, rfl, ?_, fun u hu => ?_⟩
              · have hdrop : c.dropWhile (fun d => d ≠ '=') = e := by
                  rw [strchr] at hchr
                  split at hchr
                  · cases hchr
                  · exact Option.some.inj hchr
                have hsuffix : e <:+ c := hdrop ▸ List.dropWhile_suffix _
                exact ((List.tail_suffix e).trans hsuffix).trans (find_suffix hfind)
              · rw [ahead, List.takeWhile_cons_of_neg (by simp)] at hu
                exact absurd hu List.not_mem_nil

/-- No value that is ever set has a name in it that is looked for in front of its own. -/
theorem unshadowed_foldl (order : List Key) (args : List Str)
    (h : ∀ s, Unshadowed order (s, config s)) (s : Key) :
    Unshadowed order (s, args.foldl (override order) config s) := by
  induction args generalizing config with
  | nil => exact h s
  | cons arg args ih =>
      refine ih fun t => ?_
      rcases override_cases config arg order with hsame | ⟨u, value, hset, hsuffix, hahead⟩
      · rw [hsame]
        exact h t
      · rw [hset]
        by_cases ht : t = u
        · subst ht
          rw [Function.update_self]
          exact fun k hk hfound => hahead k hk (hfound.trans hsuffix.isInfix)
        · rw [Function.update_of_ne ht]
          exact h t

theorem foldl_override {given : List (Key × Str)} (hmem : ∀ s, s ∈ order) (hnodup : (given.map Prod.fst).Nodup)
    (h : ∀ p ∈ given, Unshadowed order p) :
    (∀ p ∈ given, (given.map argument).foldl (override order) config p.1 = p.2) ∧
      ∀ s ∉ given.map Prod.fst,
        (given.map argument).foldl (override order) config s = config s := by
  induction given generalizing config with
  | nil => exact ⟨fun p hp => absurd hp List.not_mem_nil, fun s _ => rfl⟩
  | cons q given ih =>
      rw [List.map_cons, List.nodup_cons] at hnodup
      obtain ⟨hset, hkept⟩ := @ih (Function.update config q.1 q.2) hnodup.2 fun p hp => h p (List.mem_cons_of_mem _ hp)
      rw [List.map_cons, List.foldl_cons, override_argument (hmem q.1) (h q List.mem_cons_self)]
      constructor
      · intro p hp
        rcases List.mem_cons.mp hp with rfl | hp
        · rw [hkept p.1 hnodup.1, Function.update_self]
        · exact hset p hp
      · intro s hs
        rw [List.map_cons, List.mem_cons, not_or] at hs
        rw [hkept s hs.2, Function.update_of_ne hs.1]

end Override

/-- Every name gets its value if and only if no value has a name in it that is looked for in front of its own. -/
theorem overrides_assigned_iff (order : Order) (given : Given) (program cfgFile : Str) :
    Assigned (tconfig order (program :: cfgFile :: given.val.map argument)) given.val ↔
      ∀ p ∈ given.val, Unshadowed order.val p := by
  have hmem (s : Key) : s ∈ order.val := by
    rw [order.property.mem_iff]
    cases s <;> decide
  constructor
  · rintro ⟨hset, -⟩ p hp
    have hempty (s : Key) : Unshadowed order.val (s, []) := fun t _ hinfix =>
      text_ne_nil t (List.infix_nil.mp hinfix)
    have hunshadowed := unshadowed_foldl order.val (given.val.map argument) hempty p.1
    have hvalue := hset p hp
    rw [tconfig, List.drop_succ_cons, List.drop_succ_cons, List.drop_zero] at hvalue
    rwa [hvalue] at hunshadowed
  · exact foldl_override hmem given.property

/-- The mount point has the name of a key that comes first. -/
theorem value_hides_name :
    ¬ ∀ (order : Order) (given : Given) (program cfgFile : Str),
      Assigned (tconfig order (program :: cfgFile :: given.val.map argument)) given.val := by
  intro h
  have hset := (h ⟨Key.all, .refl _⟩ ⟨[(.mount, "/host".toList)], List.nodup_singleton _⟩ [] []).1
    (.mount, "/host".toList) (List.mem_singleton.mpr rfl)
  exact absurd hset (by decide)

end RadioServices.Accordion.ConfigParam

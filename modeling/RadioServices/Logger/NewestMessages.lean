import RadioServices.Logger.RemoteThread

namespace RadioServices.Logger.NewestMessages

open Lib RemoteThread

def listAfter (r : RemoteThread) (groups : List Vmessage) : Vmessage :=
  (groups.foldl (appendMessages r.sizeInMemo) (r.msgList, [])).1

/-- Of the list and the groups in the order of their keys, what `append` keeps is the newest. -/
structure KeepsNewest (r : RemoteThread) (mList : Mmessagelist) : Prop where
  newest : (r.append mList).msgList <:+ r.msgList ++ mList.values.flatten
  kept : ∀ before group after, mList.values = before ++ group :: after →
    (listAfter r before).length ≤ r.sizeInMemo → listAfter r (before ++ [group]) = listAfter r before ++ group
  cut : ∀ before group after, mList.values = before ++ group :: after →
    r.sizeInMemo < (listAfter r before).length →
      listAfter r (before ++ [group]) = (listAfter r before).drop (3 * (listAfter r before).length / 4) ++ group
  whole : (r.append mList).msgList = listAfter r mList.values
  last : ∀ before group, mList.values = before ++ [group] → group <:+ (r.append mList).msgList
  bounded : ∀ limit : Nat, limit ≤ 3 * r.sizeInMemo → (∀ group ∈ mList.values, group.length ≤ limit) →
    r.msgList.length ≤ r.sizeInMemo + limit → (r.append mList).msgList.length ≤ r.sizeInMemo + limit

variable (r : RemoteThread)

section Group

variable (groups : List Vmessage) (group : Vmessage)

theorem appendMessages_fst (sizeInMemo : Int) (acc : Vmessage × Vmessage) :
    (appendMessages sizeInMemo acc group).1 =
      if sizeInMemo < acc.1.length then acc.1.drop (3 * acc.1.length / 4) ++ group else acc.1 ++ group := by
  rw [Nat.mul_comm]
  exact apply_ite Prod.fst _ _ _

theorem listAfter_concat : listAfter r (groups ++ [group]) =
    if r.sizeInMemo < (listAfter r groups).length then
      (listAfter r groups).drop (3 * (listAfter r groups).length / 4) ++ group
    else listAfter r groups ++ group := by
  rw [listAfter, List.foldl_append, List.foldl_cons, List.foldl_nil]
  exact appendMessages_fst group r.sizeInMemo _

theorem suffix_listAfter_concat : group <:+ listAfter r (groups ++ [group]) := by
  rw [listAfter_concat]
  split <;> exact List.suffix_append _ _

theorem length_listAfter_concat {limit : Nat} (hlimit : limit ≤ 3 * r.sizeInMemo) (hgroup : group.length ≤ limit)
    (h : (listAfter r groups).length ≤ r.sizeInMemo + limit) :
    (listAfter r (groups ++ [group])).length ≤ r.sizeInMemo + limit := by
  rw [listAfter_concat]
  split
  · rw [List.length_append, List.length_drop]
    omega
  · rw [List.length_append]
    omega

end Group

theorem length_listAfter {limit : Nat} (hlimit : limit ≤ 3 * r.sizeInMemo)
    (h : r.msgList.length ≤ r.sizeInMemo + limit) (groups : List Vmessage)
    (hgroups : ∀ group ∈ groups, group.length ≤ limit) :
    (listAfter r groups).length ≤ r.sizeInMemo + limit := by
  induction groups using List.reverseRecOn with
  | nil => exact h
  | append_singleton groups group ih =>
      have hbefore := ih fun g hg => hgroups g (List.mem_append_left _ hg)
      have hgroup := hgroups group (List.mem_append_right _ List.mem_cons_self)
      exact length_listAfter_concat r groups group hlimit hgroup hbefore

theorem append_keepsNewest (mList : Mmessagelist) : KeepsNewest r mList where
  newest := ⟨r.dropped mList, dropped_append r mList⟩
  kept before group _ _ hle := by
    rw [listAfter_concat, if_neg (not_lt.mpr hle)]
  cut before group _ _ hlt := by
    rw [listAfter_concat, if_pos hlt]
  whole := rfl
  last before group hvalues := by
    have hlast := suffix_listAfter_concat r before group
    rw [← hvalues] at hlast
    exact hlast
  bounded limit hlimit hgroups hlist := length_listAfter r hlimit hlist mList.values hgroups

end RadioServices.Logger.NewestMessages

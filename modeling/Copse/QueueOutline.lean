import Mathlib.Data.List.ReduceOption
import Mathlib.Data.List.Forall2
import Mathlib.Data.List.Nodup

set_option autoImplicit false

/-!
# A bounded queue whose holes are filled from its end

An item that is removed from the middle leaves its place to the last one. When
several items go at once, the order in which they go may decide which item ends
up in which hole. An outline keeps the items whose places do not depend on it.
-/
namespace QueueOutline
variable {α β : Type*}

/-- The items that stay do so at their places, as long as these places stay. -/
structure SwapRemoved (hit : α → Bool) (l l' : List α) : Prop where
  perm : l'.Perm (l.filter (fun x => !hit x))
  stays : ∀ j x, j < l'.length → l[j]? = some x → hit x = false → l'[j]? = some x

section removal
variable {hit hit' : α → Bool} {l l' l'' : List α}

theorem SwapRemoved.refl (l : List α) : SwapRemoved (fun _ => false) l l :=
  ⟨by simp, fun _ _ _ hj _ => hj⟩

theorem SwapRemoved.length_le (h : SwapRemoved hit l l') : l'.length ≤ l.length := by
  rw [h.perm.length_eq]
  exact List.length_filter_le _ _

theorem SwapRemoved.trans (h : SwapRemoved hit l l') (h' : SwapRemoved hit' l' l'') :
    SwapRemoved (fun x => hit x || hit' x) l l'' := by
  have hle := h'.length_le
  constructor
  · have hperm := h'.perm.trans (h.perm.filter (fun x => !hit' x))
    have hboth : (fun x => !(hit x || hit' x)) = fun x => !hit' x && !hit x := by
      funext x
      rw [Bool.not_or, Bool.and_comm]
    rwa [List.filter_filter, ← hboth] at hperm
  · intro j x hj hx hstay
    rw [Bool.or_eq_false_iff] at hstay
    exact h'.stays j x hj (h.stays j x (by omega) hx hstay.1) hstay.2

theorem SwapRemoved.tail {x : α} (h : SwapRemoved hit (x :: l) l') (hx : hit x = false) :
    ∃ rest, l' = x :: rest ∧ SwapRemoved hit l rest := by
  have hperm := h.perm
  rw [List.filter_cons_of_pos (by rw [hx]; rfl)] at hperm
  have hlen := hperm.length_eq
  rw [List.length_cons] at hlen
  have hhead : l'[0]? = some x := h.stays 0 x (by omega) rfl hx
  cases l' with
  | nil => cases hhead
  | cons y rest =>
    obtain rfl := Option.some.inj hhead
    refine ⟨rest, rfl, hperm.cons_inv, ?_⟩
    intro j z hj hz hstay
    exact h.stays (j + 1) z (Nat.succ_lt_succ hj) hz hstay

theorem SwapRemoved.map {hit' : β → Bool} (f : α → β) (h : SwapRemoved hit l l')
    (heq : ∀ x ∈ l, hit' (f x) = hit x) : SwapRemoved hit' (l.map f) (l'.map f) := by
  constructor
  · have hfilter : l.filter (fun x => !hit x) = l.filter ((fun y => !hit' y) ∘ f) :=
      List.filter_congr (fun x hx => by simp only [Function.comp_apply, heq x hx])
    rw [List.filter_map, ← hfilter]
    exact h.perm.map f
  · intro j y hj hy hstay
    rw [List.length_map] at hj
    rw [List.getElem?_map, Option.map_eq_some_iff] at hy ⊢
    obtain ⟨x, hx, rfl⟩ := hy
    rw [heq x (List.mem_of_getElem? hx)] at hstay
    exact ⟨x, h.stays j x hj hx hstay, rfl⟩

theorem filter_erased [DecidableEq α] {a b : List α} {x : α} (h : (a ++ x :: b).Nodup) :
    (a ++ x :: b).filter (fun y => !decide (y = x)) = a ++ b := by
  have hx : ∀ y ∈ a ++ b, y ≠ x := by
    intro y hy heq
    rw [List.nodup_middle, List.nodup_cons] at h
    exact h.1 (heq ▸ hy)
  have hself : ∀ l : List α, (∀ y ∈ l, y ∈ a ++ b) → l.filter (fun y => !decide (y = x)) = l :=
    fun l hl => List.filter_eq_self.mpr (fun y hy => by simp [hx y (hl y hy)])
  rw [List.filter_append, List.filter_cons_of_neg (by simp),
    hself a (fun y hy => List.mem_append_left _ hy), hself b (fun y hy => List.mem_append_right _ hy)]

theorem swapRemoved_last [DecidableEq α] {a : List α} {x : α} (h : (a ++ [x]).Nodup) :
    SwapRemoved (fun y => decide (y = x)) (a ++ [x]) a := by
  constructor
  · rw [filter_erased h, List.append_nil]
  · intro j y hj hy _
    rwa [List.getElem?_append_left hj] at hy

theorem swapRemoved_middle [DecidableEq α] {a b : List α} {x z : α}
    (h : (a ++ x :: (b ++ [z])).Nodup) :
    SwapRemoved (fun y => decide (y = x)) (a ++ x :: (b ++ [z])) (a ++ z :: b) := by
  constructor
  · rw [filter_erased h]
    exact List.Perm.append_left a (List.perm_append_singleton z b).symm
  · intro j y hj hy hstay
    rw [List.length_append, List.length_cons] at hj
    rcases Nat.lt_trichotomy j a.length with hlt | rfl | hgt
    · rwa [List.getElem?_append_left hlt] at hy ⊢
    · rw [List.getElem?_append_right (Nat.le_refl _), Nat.sub_self, List.getElem?_cons_zero,
        Option.some_inj] at hy
      simp [hy] at hstay
    · obtain ⟨m, rfl⟩ : ∃ m, j = a.length + (m + 1) := ⟨j - a.length - 1, by omega⟩
      rw [List.getElem?_append_right (by omega), Nat.add_sub_cancel_left,
        List.getElem?_cons_succ] at hy ⊢
      rwa [List.getElem?_append_left (by omega)] at hy

end removal

/-- The items of a queue: those at known places, and those at the open ones. -/
structure Outline (α : Type*) where
  places : List (Option α)
  loose : List α

namespace Outline

def ofList (l : List α) : Outline α := ⟨l.map some, []⟩

def items (q : Outline α) : List α := q.places.reduceOption ++ q.loose

/-- A single loose item belongs to the single open place. -/
def settle (q : Outline α) : Outline α :=
  match q.loose with
  | [x] => ⟨q.places.map (fun o => some (o.getD x)), []⟩
  | _ => q

/-- Remove the items that are hit, in any order. The items behind the last place that stays move
into the holes. -/
def clear (hit : α → Bool) (q : Outline α) : Outline α :=
  let left := q.items.countP (fun x => !hit x)
  settle ⟨(q.places.take left).map (Option.filter (fun x => !hit x)),
    (q.places.drop left).reduceOption.filter (fun x => !hit x) ++
      q.loose.filter (fun x => !hit x)⟩

def clearEach : Outline α → List (α → Bool) → Outline α × ℕ
  | q, [] => (q, 0)
  | q, hit :: hits =>
    let r := clearEach (q.clear hit) hits
    (r.1, q.items.countP hit + r.2)

/-- Append an item; a full queue drops its head, and it must be known which item that is. -/
def push (capacity : ℕ) (q : Outline α) (x : α) : Option (Outline α) :=
  if q.places.length = capacity then
    match q.places with
    | some _ :: rest => some ⟨rest ++ [some x], q.loose⟩
    | _ => none
  else some ⟨q.places ++ [some x], q.loose⟩

/-- Append those items that no item of the queue is near to, and count them. -/
def pushEach (near : α → α → Bool) (capacity : ℕ) : Outline α → List α → Option (Outline α × ℕ)
  | q, [] => some (q, 0)
  | q, x :: rest =>
    if q.items.any (fun y => near y x) then pushEach near capacity q rest
    else (q.push capacity x).bind (fun q => (pushEach near capacity q rest).map
      (fun r => (r.1, r.2 + 1)))

end Outline

/-- The queue `l` has the items of the outline, the known ones at their places. -/
structure Describes (q : Outline α) (l : List α) : Prop where
  known : List.Forall₂ (fun o x => ∀ y, o = some y → y = x) q.places l
  perm : l.Perm q.items

section
variable {q q' : Outline α} {l l' : List α}

theorem describes_ofList (l : List α) : Describes (Outline.ofList l) l := by
  constructor
  · rw [Outline.ofList, List.forall₂_map_left_iff, List.forall₂_same]
    exact fun x _ y hy => (Option.some.inj hy).symm
  · simp [Outline.items, Outline.ofList, List.reduceOption]

theorem Describes.length_eq (h : Describes q l) : q.places.length = l.length := h.known.length_eq

/-- When all open places hold the same item, the outline tells the whole queue. -/
theorem exists_gaps {places : List (Option α)}
    (h : List.Forall₂ (fun o x => ∀ y, o = some y → y = x) places l) :
    ∃ gaps, l.Perm (places.reduceOption ++ gaps) ∧
      ∀ x, (∀ y ∈ gaps, y = x) → l = places.map (fun o => o.getD x) := by
  induction h with
  | nil => exact ⟨[], List.Perm.refl _, fun _ _ => rfl⟩
  | @cons o x places l hx _ ih =>
    obtain ⟨gaps, hperm, hfill⟩ := ih
    cases o with
    | some y =>
      rw [hx y rfl]
      exact ⟨gaps, hperm.cons x, fun z hz => congrArg (x :: ·) (hfill z hz)⟩
    | none =>
      refine ⟨x :: gaps, (hperm.cons x).trans List.perm_middle.symm, fun z hz => ?_⟩
      obtain ⟨hxz, hgaps⟩ := List.forall_mem_cons.mp hz
      rw [List.map_cons, Option.getD_none, hxz, hfill z hgaps]

theorem Describes.settle (h : Describes q l) : Describes q.settle l := by
  unfold Outline.settle
  split
  · rename_i x hloose
    obtain ⟨gaps, hperm, hfill⟩ := exists_gaps h.known
    have hgaps : gaps.Perm [x] := by
      have hitems := h.perm
      rw [Outline.items, hloose] at hitems
      exact (List.perm_append_left_iff _).mp (hperm.symm.trans hitems)
    have hlist : l = q.places.map (fun o => o.getD x) :=
      hfill x (fun y hy => List.mem_singleton.mp (hgaps.mem_iff.mp hy))
    have hplaces : q.places.map (fun o => some (o.getD x)) = l.map some := by
      rw [hlist, List.map_map]
      rfl
    rw [hplaces]
    exact describes_ofList l
  · exact h

theorem reduceOption_filter (p : α → Bool) (places : List (Option α)) :
    (places.map (Option.filter p)).reduceOption = places.reduceOption.filter p := by
  induction places with
  | nil => rfl
  | cons o places ih =>
    cases o with
    | none => exact ih
    | some x =>
      cases hx : p x with
      | true => simp [Option.filter, hx, ih]
      | false => simp [Option.filter, hx, ih]

/-- Whatever the order of the removals, the outline describes the queue they leave. -/
theorem Describes.clear {hit : α → Bool} (h : Describes q l) (hr : SwapRemoved hit l l') :
    Describes (q.clear hit) l' := by
  have hperm := hr.perm.trans (h.perm.filter (fun x => !hit x))
  have hleft : l'.length = q.items.countP (fun x => !hit x) := by
    rw [hperm.length_eq, List.countP_eq_length_filter]
  unfold Outline.clear
  rw [← hleft]
  apply Describes.settle
  constructor
  · rw [List.forall₂_map_left_iff, List.forall₂_iff_get]
    have hle := hr.length_le
    have hlen := h.length_eq
    refine ⟨by rw [List.length_take]; omega, fun j hj hj' y hy => ?_⟩
    obtain ⟨hplace, hstay⟩ := Option.filter_eq_some_iff.mp hy
    have hitem : l[j]? = some y := by
      have hknown := (List.forall₂_iff_get.mp h.known).2 j (by omega) (by omega) y
        (by simpa using hplace)
      rw [List.getElem?_eq_getElem (by omega), hknown]
      rfl
    have hkept := hr.stays j y hj' hitem (by simpa using hstay)
    rw [List.getElem?_eq_getElem hj', Option.some_inj] at hkept
    exact hkept.symm
  · rw [Outline.items] at hperm ⊢
    rw [reduceOption_filter, ← List.append_assoc, ← List.filter_append, ← List.reduceOption_append,
      List.take_append_drop, ← List.filter_append]
    exact hperm

example : (Outline.ofList [1, 2, 3, 4]).clear (fun x => decide (x = 1)) = .ofList [4, 2, 3] := rfl

example : (Outline.ofList [1, 2, 3, 4]).clear (fun x => decide (x ≤ 2)) = ⟨[none, none], [3, 4]⟩ := rfl

theorem Describes.countP (h : Describes q l) (hit : α → Bool) : q.items.countP hit = l.countP hit :=
  (h.perm.countP_eq hit).symm

theorem Describes.push {capacity : ℕ} {x : α} (h : Describes q l)
    (hpush : q.push capacity x = some q') :
    Describes q' ((if l.length = capacity then l.tail else l) ++ [x]) := by
  unfold Outline.push at hpush
  rw [h.length_eq] at hpush
  have hlast : List.Forall₂ (fun o y => ∀ z, o = some z → z = y) [some x] [x] :=
    .cons (fun _ hz => (Option.some.inj hz).symm) .nil
  have hknown := h.known
  have hperm := h.perm
  unfold Outline.items at hperm
  split_ifs at hpush ⊢ with hfull
  · split at hpush
    · rename_i y rest hplaces
      rw [hplaces] at hknown hperm
      obtain rfl := Option.some.inj hpush
      cases hknown with
      | @cons _ z _ l hz hrest =>
        rw [hz y rfl] at hperm
        rw [List.reduceOption_cons_of_some, List.cons_append] at hperm
        refine ⟨List.rel_append hrest hlast, ?_⟩
        rw [Outline.items, List.reduceOption_append, List.append_assoc]
        refine (hperm.cons_inv.append_right [x]).trans ?_
        rw [List.append_assoc]
        exact List.Perm.append_left _ List.perm_append_comm
    · cases hpush
  · obtain rfl := Option.some.inj hpush
    refine ⟨List.rel_append hknown hlast, ?_⟩
    rw [Outline.items, List.reduceOption_append, List.append_assoc]
    refine (hperm.append_right [x]).trans ?_
    rw [List.append_assoc]
    exact List.Perm.append_left _ List.perm_append_comm

theorem Describes.any (h : Describes q l) (p : α → Bool) : q.items.any p = l.any p := by
  rw [Bool.eq_iff_iff, List.any_eq_true, List.any_eq_true]
  simp only [h.perm.mem_iff]

end
end QueueOutline

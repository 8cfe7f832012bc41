import Mathlib.Data.List.Sort
import Mathlib.Order.Lattice

set_option autoImplicit false

namespace BoundedSelection

section
variable {α β : Type*} [LinearOrder β] (key : α → β)

/-- No element is above its parent at index `(i - 1) / 2`. -/
def IsHeap (h : List α) : Prop :=
  ∀ i x y, 0 < i → h[i]? = some x → h[(i - 1) / 2]? = some y → key x ≤ key y

variable {key}

theorem isHeap_nil : IsHeap key [] := by
  intro i x y _ hx
  simp at hx

theorem IsHeap.index_le_front {x : α} {h : List α} (hh : IsHeap key (x :: h)) (i : ℕ) (y : α)
    (hy : (x :: h)[i]? = some y) : key y ≤ key x := by
  induction i using Nat.strong_induction_on generalizing y with
  | _ i ih =>
    rcases Nat.eq_zero_or_pos i with rfl | hi
    · simp only [List.getElem?_cons_zero, Option.some.injEq] at hy
      exact le_of_eq (congrArg key hy.symm)
    · have hlt : i < (x :: h).length := (List.getElem?_eq_some_iff.mp hy).choose
      have hp : (x :: h)[(i - 1) / 2]? = some (x :: h)[(i - 1) / 2] :=
        List.getElem?_eq_getElem (by omega)
      exact (hh i y _ hi hy hp).trans (ih ((i - 1) / 2) (by omega) _ hp)

theorem IsHeap.le_front {x : α} {h : List α} (hh : IsHeap key (x :: h)) :
    ∀ y ∈ x :: h, key y ≤ key x := by
  intro y hy
  obtain ⟨i, hi⟩ := List.mem_iff_getElem?.mp hy
  exact hh.index_le_front i y hi

theorem isHeap_of_pairwise {h : List α} (hs : h.Pairwise (fun x y => key y ≤ key x)) :
    IsHeap key h := by
  intro i x y hi hx hy
  obtain ⟨hil, rfl⟩ := List.getElem?_eq_some_iff.mp hx
  obtain ⟨hpl, rfl⟩ := List.getElem?_eq_some_iff.mp hy
  exact List.pairwise_iff_getElem.mp hs _ _ hpl hil (by omega)

variable (key) in
/-- `sel` holds `k` elements of least key of `all`, or all of them when there are fewer. -/
def Selects (k : ℕ) (sel all : List α) : Prop :=
  ∃ rest, (sel ++ rest).Perm all ∧ (∀ x ∈ sel, ∀ y ∈ rest, key x ≤ key y) ∧
    sel.length ≤ k ∧ (rest = [] ∨ sel.length = k)

theorem Selects.nil (k : ℕ) : Selects key k [] [] :=
  ⟨[], by simp, by simp, Nat.zero_le _, Or.inl rfl⟩

theorem Selects.perm {k : ℕ} {sel sel' all all' : List α} (h : Selects key k sel all)
    (hs : sel'.Perm sel) (ha : all.Perm all') : Selects key k sel' all' := by
  obtain ⟨rest, hp, hle, hk, hr⟩ := h
  refine ⟨rest, ((hs.append_right rest).trans hp).trans ha, ?_, ?_, ?_⟩
  · exact fun x hx y hy => hle x (hs.mem_iff.mp hx) y hy
  · rw [hs.length_eq]; exact hk
  · rw [hs.length_eq]; exact hr

theorem Selects.add {k : ℕ} {sel all : List α} (h : Selects key k sel all) (x : α)
    (room : sel.length < k) : Selects key k (x :: sel) (x :: all) := by
  obtain ⟨rest, hp, -, -, hr⟩ := h
  have hnil : rest = [] := by
    rcases hr with hr | hr
    · exact hr
    · omega
  subst hnil
  refine ⟨[], ?_, by simp, Nat.succ_le_of_lt room, Or.inl rfl⟩
  simpa using hp.cons x

theorem Selects.replace {k : ℕ} {sel sel' all : List α} {x w : α} (h : Selects key k sel all)
    (full : sel.length = k) (hw : (w :: sel').Perm (x :: sel))
    (hmax : ∀ y ∈ sel', key y ≤ key w) : Selects key k sel' (x :: all) := by
  obtain ⟨rest, hp, hle, -, -⟩ := h
  have hlen : sel'.length = k := by
    have hl := hw.length_eq
    simp only [List.length_cons] at hl
    omega
  refine ⟨w :: rest, ?_, ?_, by omega, Or.inr hlen⟩
  · calc
      (sel' ++ w :: rest).Perm (w :: (sel' ++ rest)) := List.perm_middle
      _ = (w :: sel') ++ rest := rfl
      List.Perm _ ((x :: sel) ++ rest) := hw.append_right rest
      _ = x :: (sel ++ rest) := rfl
      List.Perm _ (x :: all) := hp.cons x
  · intro y hy z hz
    rcases List.mem_cons.mp hz with rfl | hz
    · exact hmax y hy
    · rcases List.mem_cons.mp (hw.mem_iff.mp List.mem_cons_self) with rfl | hws
      · have hsel : y ∈ sel := hw.cons_inv.mem_iff.mp hy
        exact hle y hsel z hz
      · exact (hmax y hy).trans (hle w hws z hz)

theorem Selects.skip {k : ℕ} {sel all : List α} {x : α} (h : Selects key k sel all)
    (full : sel.length = k) (hmax : ∀ y ∈ sel, key y ≤ key x) : Selects key k sel (x :: all) :=
  h.replace full (List.Perm.refl _) hmax

theorem Selects.skip_all {k : ℕ} {sel all : List α} (xs : List α) (h : Selects key k sel all)
    (full : sel.length = k) (hmax : ∀ x ∈ xs, ∀ y ∈ sel, key y ≤ key x) :
    Selects key k sel (xs ++ all) := by
  induction xs with
  | nil => exact h
  | cons x xs ih =>
    have tail := ih (fun z hz => hmax z (List.mem_cons_of_mem _ hz))
    exact tail.skip full (hmax x List.mem_cons_self)

theorem Selects.length_eq {k : ℕ} {sel all : List α} (h : Selects key k sel all) :
    sel.length = min k all.length := by
  obtain ⟨rest, hp, -, hk, hr⟩ := h
  have hl := hp.length_eq
  rw [List.length_append] at hl
  rcases hr with rfl | hr
  · simp only [List.length_nil] at hl
    omega
  · omega

theorem Selects.subperm {k : ℕ} {sel all : List α} (h : Selects key k sel all) :
    ∀ x ∈ sel, x ∈ all := by
  obtain ⟨rest, hp, -⟩ := h
  exact fun x hx => hp.mem_iff.mp (List.mem_append_left _ hx)

/-- A selected element above `m` leaves fewer than `k` elements up to `m`. -/
theorem Selects.countP_lt {k : ℕ} {sel all : List α} (h : Selects key k sel all) {x : α} {m : β}
    (hx : x ∈ sel) (hm : m < key x) : all.countP (fun y => decide (key y ≤ m)) < k := by
  obtain ⟨rest, hp, hle, hk, -⟩ := h
  have hrest : rest.countP (fun y => decide (key y ≤ m)) = 0 := by
    rw [List.countP_eq_zero]
    intro y hy
    rw [decide_eq_true_eq, not_le]
    exact hm.trans_le (hle x hx y hy)
  have hsel : sel.countP (fun y => decide (key y ≤ m)) ≠ sel.length := by
    intro heq
    have hall := List.countP_eq_length.mp heq x hx
    exact absurd (of_decide_eq_true hall) (not_le.mpr hm)
  have hlen : sel.countP (fun y => decide (key y ≤ m)) ≤ sel.length := List.countP_le_length
  rw [← hp.countP_eq, List.countP_append, hrest]
  omega

theorem Selects.le_countP {k : ℕ} {sel all : List α} (h : Selects key k sel all) {m : β}
    (full : sel.length = k) (hm : ∀ x ∈ sel, key x ≤ m) :
    k ≤ all.countP (fun y => decide (key y ≤ m)) := by
  obtain ⟨rest, hp, -⟩ := h
  have hsel : sel.countP (fun y => decide (key y ≤ m)) = sel.length :=
    List.countP_eq_length.mpr (fun x hx => decide_eq_true (hm x hx))
  rw [← hp.countP_eq, List.countP_append]
  omega

theorem Selects.nodup_map {γ : Type*} {f : α → γ} {k : ℕ} {sel all : List α}
    (h : Selects key k sel all) (hd : (all.map f).Nodup) : (sel.map f).Nodup := by
  obtain ⟨rest, hp, -⟩ := h
  have hn : ((sel ++ rest).map f).Nodup := (hp.map f).nodup_iff.mpr hd
  rw [List.map_append] at hn
  exact (List.nodup_append.mp hn).1

theorem Selects.keys_eq_take {k : ℕ} {sel all : List α} (h : Selects key k sel all)
    (hsel : sel.Pairwise (fun x y => key x ≤ key y)) {keys : List β}
    (hperm : keys.Perm (all.map key)) (hkeys : keys.Pairwise (· ≤ ·)) :
    sel.map key = keys.take sel.length := by
  obtain ⟨rest, hp, hle, -, -⟩ := h
  let tail := (rest.map key).insertionSort (· ≤ ·)
  have htail : tail.Perm (rest.map key) := List.perm_insertionSort _ _
  have hsorted : (sel.map key ++ tail).Pairwise (· ≤ ·) := by
    rw [List.pairwise_append]
    refine ⟨List.pairwise_map.mpr hsel, List.pairwise_insertionSort _ _, ?_⟩
    intro a ha b hb
    obtain ⟨x, hx, rfl⟩ := List.mem_map.mp ha
    obtain ⟨y, hy, rfl⟩ := List.mem_map.mp (htail.mem_iff.mp hb)
    exact hle x hx y hy
  have hall : (sel.map key ++ tail).Perm keys := by
    refine ((htail.append_left _).trans ?_).trans hperm.symm
    rw [← List.map_append]
    exact hp.map key
  have heq : sel.map key ++ tail = keys := hall.eq_of_pairwise' hsorted hkeys
  rw [← heq, List.take_append_of_le_length (by simp), List.take_of_length_le (by simp)]

section distinct
variable [DecidableEq α] {sel all : List α}

theorem append_filter_perm (hd : all.Nodup) (hsel : sel.Nodup) (hsub : ∀ x ∈ sel, x ∈ all) :
    (sel ++ all.filter (fun y => decide (y ∉ sel))).Perm all := by
  refine (List.perm_ext_iff_of_nodup ?_ hd).mpr (fun x => ?_)
  · refine List.nodup_append.mpr ⟨hsel, hd.filter _, fun x hx y hy heq => ?_⟩
    rw [List.mem_filter, decide_eq_true_eq] at hy
    exact hy.2 (heq ▸ hx)
  · rw [List.mem_append, List.mem_filter, decide_eq_true_eq]
    by_cases hx : x ∈ sel
    · exact ⟨fun _ => hsub x hx, fun _ => .inl hx⟩
    · simp [hx]

theorem selects_of_distinct {k : ℕ} (hd : all.Nodup) (hsel : sel.Nodup)
    (hsub : ∀ x ∈ sel, x ∈ all) (hle : ∀ x ∈ sel, ∀ y ∈ all, y ∉ sel → key x ≤ key y)
    (hlen : sel.length = min k all.length) : Selects key k sel all := by
  have hp := append_filter_perm hd hsel hsub
  refine ⟨_, hp, fun x hx y hy => ?_, by omega, ?_⟩
  · rw [List.mem_filter, decide_eq_true_eq] at hy
    exact hle x hx y hy.1 hy.2
  · have hl := hp.length_eq
    rw [List.length_append] at hl
    rw [← List.length_eq_zero_iff]
    omega

theorem le_of_keys_eq_take {keys : List β} (hd : all.Nodup) (hsel : sel.Nodup)
    (hsub : ∀ x ∈ sel, x ∈ all) (hperm : keys.Perm (all.map key)) (hkeys : keys.Pairwise (· ≤ ·))
    (htake : sel.map key = keys.take sel.length) :
    ∀ x ∈ sel, ∀ y ∈ all, y ∉ sel → key x ≤ key y := by
  intro x hx y hy hnot
  have hp := (append_filter_perm hd hsel hsub).map key
  rw [List.map_append, htake] at hp
  have hdrop := (List.perm_append_left_iff _).mp
    (((List.take_append_drop sel.length keys).symm ▸ hperm).trans hp.symm)
  have hmem : key y ∈ keys.drop sel.length :=
    hdrop.mem_iff.mpr (List.mem_map_of_mem (List.mem_filter.mpr ⟨hy, by simpa using hnot⟩))
  rw [← List.take_append_drop sel.length keys, List.pairwise_append] at hkeys
  have hfirst := List.mem_map_of_mem (f := key) hx
  rw [htake] at hfirst
  exact hkeys.2.2 _ hfirst _ hmem

end distinct

end
end BoundedSelection

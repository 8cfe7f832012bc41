import Copse.SwapQueue
import Mathlib.Data.Fintype.Card

set_option autoImplicit false

namespace SwapQueue
open QueueOutline
variable {α ι : Type*}

section
variable (near : α → α → Bool)

/-- No item is near a later one. -/
def Separated (q : List α) : Prop := q.Pairwise (fun y x => near y x = false)

def Covered (q : List α) (x : α) : Prop := ∃ y ∈ q, near y x = true

/-- The items of one cell of the region are near each other. -/
def Narrow (region : α → Prop) (cell : α → ι) : Prop :=
  ∀ x y, region x → region y → cell x = cell y → near x y = true

end

section
variable {near : α → α → Bool} {capacity n : ℕ} {q q' batch : List α} {hits : List (α → Bool)}
variable {region : α → Prop} {cell : α → ι} {x : α}

theorem Separated.length_le [Fintype ι] (h : Separated near q) (hcell : Narrow near region cell)
    (hin : ∀ x ∈ q, region x) : q.length ≤ Fintype.card ι := by
  have hd : (q.map cell).Nodup := by
    rw [List.Nodup, List.pairwise_map]
    refine h.imp_of_mem (fun {y x} hy hx hfar heq => ?_)
    rw [hcell y x (hin y hy) (hin x hx) heq] at hfar
    cases hfar
  rw [← List.length_map cell]
  exact hd.length_le_card

theorem any_near_eq_false (h : q.any (fun y => near y x) = false) : ∀ y ∈ q, near y x = false := by
  intro y hy
  rw [← Bool.not_eq_true]
  intro hnear
  rw [List.any_eq_true.mpr ⟨y, hy, hnear⟩] at h
  cases h

theorem Separated.concat (h : Separated near q) (hfar : q.any (fun y => near y x) = false) :
    Separated near (q ++ [x]) := by
  refine List.pairwise_append.mpr ⟨h, List.pairwise_singleton _ x, fun y hy z hz => ?_⟩
  rw [List.mem_singleton.mp hz]
  exact any_near_eq_false hfar y hy

theorem Covered.append {l : List α} (h : Covered near q x) : Covered near (q ++ l) x := by
  obtain ⟨y, hy, hnear⟩ := h
  exact ⟨y, List.mem_append_left l hy, hnear⟩

/-- A queue with room for one item from each cell lets nothing go for a batch from the region. -/
theorem admitAll_keeps [Fintype ι] (hcell : Narrow near region cell)
    (hself : ∀ x, near x x = true) (hcap : Fintype.card ι ≤ capacity) (hq : Separated near q)
    (hin : ∀ x ∈ q, region x) (hbatch : ∀ x ∈ batch, region x) :
    ∃ kept, (admitAll near capacity q batch).1 = q ++ kept ∧
      (admitAll near capacity q batch).2 = kept.length ∧ Separated near (q ++ kept) ∧
      (∀ x ∈ kept, region x) ∧ ∀ x ∈ batch, Covered near (q ++ kept) x := by
  induction batch generalizing q with
  | nil =>
    refine ⟨[], ?_, rfl, ?_, by simp, by simp⟩
    · rw [admitAll, List.append_nil]
    · rwa [List.append_nil]
  | cons x batch ih =>
    obtain ⟨hx, hrest⟩ := List.forall_mem_cons.mp hbatch
    rw [admitAll]
    cases hany : q.any (fun y => near y x) with
    | true =>
      obtain ⟨kept, hfst, hsnd, hsep, hreg, hcov⟩ := ih hq hin hrest
      have hnear : Covered near q x := List.any_eq_true.mp hany
      rw [if_pos rfl]
      exact ⟨kept, hfst, hsnd, hsep, hreg, List.forall_mem_cons.mpr ⟨hnear.append, hcov⟩⟩
    | false =>
      have hsep := hq.concat hany
      have hin' : ∀ y ∈ q ++ [x], region y := by
        rw [List.forall_mem_append]
        exact ⟨hin, by simpa using hx⟩
      have hlen := hsep.length_le hcell hin'
      rw [List.length_append, List.length_singleton] at hlen
      have hadmit : admitOne capacity q x = q ++ [x] := by rw [admitOne, if_neg (by omega)]
      obtain ⟨kept, hfst, hsnd, hsep', hreg, hcov⟩ := ih hsep hin' hrest
      rw [if_neg Bool.false_ne_true, hadmit]
      dsimp only
      rw [hfst, hsnd]
      have hself' : Covered near (q ++ [x]) x := ⟨x, by simp, hself x⟩
      have happend : q ++ [x] ++ kept = q ++ x :: kept := by simp
      rw [happend] at hsep' hcov ⊢
      refine ⟨x :: kept, rfl, rfl, hsep', List.forall_mem_cons.mpr ⟨hx, hreg⟩, ?_⟩
      refine List.forall_mem_cons.mpr ⟨?_, hcov⟩
      rw [← happend]
      exact hself'.append

theorem RemovedEach.separated (h : RemovedEach q hits q' n)
    (hsymm : ∀ x y, near x y = near y x) (hq : Separated near q) : Separated near q' := by
  induction h with
  | nil => exact hq
  | @cons _ _ _ hit _ _ first _ ih =>
    have hfiltered := hq.sublist (List.filter_sublist (p := fun y => !hit y))
    exact ih ((first.perm.pairwise_iff (fun {x y} hfar => by rw [hsymm, hfar])).mpr hfiltered)

theorem RemovedEach.covered (h : RemovedEach q hits q' n)
    (hkeep : ∀ y, near y x = true → ∀ hit ∈ hits, hit y = false) (hc : Covered near q x) :
    Covered near q' x := by
  induction h with
  | nil => exact hc
  | @cons _ _ _ hit _ _ first _ ih =>
    obtain ⟨y, hy, hnear⟩ := hc
    refine ih (fun y hnear hit hhit => hkeep y hnear hit (List.mem_cons_of_mem _ hhit)) ⟨y, ?_, hnear⟩
    rw [first.perm.mem_iff, List.mem_filter, hkeep y hnear hit List.mem_cons_self]
    exact ⟨hy, rfl⟩

end
end SwapQueue

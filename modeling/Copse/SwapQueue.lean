import Copse.QueueOutline

set_option autoImplicit false

namespace SwapQueue
open QueueOutline
variable {α : Type*}

section
variable (near : α → α → Bool) (capacity : ℕ)

def admitOne (q : List α) (x : α) : List α := (if q.length = capacity then q.tail else q) ++ [x]

/-- Admit the items of a batch one by one, and count those that got in. -/
def admitAll : List α → List α → List α × ℕ
  | q, [] => (q, 0)
  | q, x :: batch =>
    if q.any (fun y => near y x) then admitAll q batch
    else
      let r := admitAll (admitOne capacity q x) batch
      (r.1, r.2 + 1)

end

/-- Removals in rounds: the items hit in each, the queue they leave and how many went. -/
inductive RemovedEach : List α → List (α → Bool) → List α → ℕ → Prop where
  | nil (q : List α) : RemovedEach q [] q 0
  | cons {q q' q'' : List α} {hit : α → Bool} {hits : List (α → Bool)} {n : ℕ}
    (first : SwapRemoved hit q q') (rest : RemovedEach q' hits q'' n) :
    RemovedEach q (hit :: hits) q'' (q.countP hit + n)

section
variable {near : α → α → Bool} {capacity n : ℕ} {q q' batch : List α} {hits : List (α → Bool)}

theorem length_admitOne (hcap : 0 < capacity) (hle : q.length ≤ capacity) (x : α) :
    (admitOne capacity q x).length = min capacity (q.length + 1) := by
  rw [admitOne]
  split_ifs
  · rw [List.length_append, List.length_tail, List.length_singleton]
    omega
  · rw [List.length_append, List.length_singleton]
    omega

theorem length_admitAll (hcap : 0 < capacity) (hle : q.length ≤ capacity) (batch : List α) :
    (admitAll near capacity q batch).1.length =
      min capacity (q.length + (admitAll near capacity q batch).2) := by
  induction batch generalizing q with
  | nil => exact (Nat.min_eq_right hle).symm
  | cons x batch ih =>
    rw [admitAll]
    split_ifs
    · exact ih hle
    · have hlen := length_admitOne hcap hle x
      have hrest := ih (show (admitOne capacity q x).length ≤ capacity by omega)
      dsimp only
      omega

theorem mem_admitOne {x y : α} (hy : y ∈ admitOne capacity q x) : y ∈ q ∨ y = x := by
  rw [admitOne, List.mem_append, List.mem_singleton] at hy
  refine hy.imp_left (fun hy => ?_)
  split_ifs at hy
  · exact List.mem_of_mem_tail hy
  · exact hy

theorem mem_admitAll {y : α} (hy : y ∈ (admitAll near capacity q batch).1) :
    y ∈ q ∨ y ∈ batch ∧ 0 < (admitAll near capacity q batch).2 := by
  induction batch generalizing q with
  | nil => exact .inl hy
  | cons x batch ih =>
    rw [admitAll] at hy ⊢
    split_ifs at hy ⊢
    · exact (ih hy).imp_right (fun h => ⟨List.mem_cons_of_mem x h.1, h.2⟩)
    · dsimp only at hy ⊢
      rcases ih hy with h | h
      · rcases mem_admitOne h with h | rfl
        · exact .inl h
        · exact .inr ⟨List.mem_cons_self, Nat.succ_pos _⟩
      · exact .inr ⟨List.mem_cons_of_mem x h.1, Nat.succ_pos _⟩

theorem RemovedEach.length_add (h : RemovedEach q hits q' n) : q'.length + n = q.length := by
  induction h with
  | nil => rfl
  | @cons q q' q'' hit hits n first _ ih =>
    have hlen := first.perm.length_eq
    have hsplit := List.length_eq_countP_add_countP hit (l := q)
    rw [← List.countP_eq_length_filter] at hlen
    simp only [Bool.not_eq_true, Bool.decide_eq_false] at hsplit
    omega

theorem RemovedEach.mem (h : RemovedEach q hits q' n) {y : α} (hy : y ∈ q') :
    y ∈ q ∧ ∀ hit ∈ hits, hit y = false := by
  induction h with
  | nil => exact ⟨hy, by simp⟩
  | cons first _ ih =>
    obtain ⟨hmem, hrest⟩ := ih hy
    rw [first.perm.mem_iff, List.mem_filter, Bool.not_eq_true'] at hmem
    exact ⟨hmem.1, List.forall_mem_cons.mpr ⟨hmem.2, hrest⟩⟩

end

section
variable {near : α → α → Bool} {capacity n : ℕ} {q q' batch : List α}
variable {f f' : Outline α} {hits : List (α → Bool)}

theorem describes_admitAll (h : Describes f q)
    (hpush : f.pushEach near capacity batch = some (f', n)) :
    Describes f' (admitAll near capacity q batch).1 ∧ (admitAll near capacity q batch).2 = n := by
  induction batch generalizing f q n with
  | nil =>
    obtain ⟨rfl, rfl⟩ := Prod.mk.inj (Option.some.inj hpush)
    exact ⟨h, rfl⟩
  | cons x batch ih =>
    rw [Outline.pushEach, h.any] at hpush
    rw [admitAll]
    split_ifs at hpush ⊢
    · exact ih h hpush
    · obtain ⟨f₁, hfirst, hrest⟩ := Option.bind_eq_some_iff.mp hpush
      obtain ⟨r, hr, heq⟩ := Option.map_eq_some_iff.mp hrest
      obtain ⟨rfl, rfl⟩ := Prod.mk.inj heq
      obtain ⟨hdesc, hcount⟩ := ih (h.push hfirst) hr
      exact ⟨hdesc, congrArg (· + 1) hcount⟩

theorem RemovedEach.describes (hr : RemovedEach q hits q' n) (h : Describes f q) :
    Describes (f.clearEach hits).1 q' ∧ n = (f.clearEach hits).2 := by
  induction hr generalizing f with
  | nil => exact ⟨h, rfl⟩
  | @cons _ _ _ hit _ _ first _ ih =>
    obtain ⟨hdesc, rfl⟩ := ih (h.clear first)
    rw [← h.countP hit]
    exact ⟨hdesc, rfl⟩

end
end SwapQueue

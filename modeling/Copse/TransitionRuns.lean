import Mathlib.Algebra.BigOperators.Group.List.Basic
import Mathlib.Algebra.Order.Group.Defs
import Mathlib.Algebra.Ring.Nat
import Mathlib.Tactic.GCongr

set_option autoImplicit false

namespace TransitionRuns

section
variable {σ ι : Type*}

inductive Reach (init : σ → Prop) (next : σ → ι → σ → Prop) : σ → Prop where
  | init {s : σ} (h : init s) : Reach init next s
  | step {s s' : σ} (i : ι) (run : Reach init next s) (h : next s i s') : Reach init next s'

variable {init : σ → Prop} {next : σ → ι → σ → Prop}

/-- What holds initially and is kept by every step from a reached state holds of every state. -/
theorem Reach.invariant {P : σ → Prop} (h0 : ∀ s, init s → P s)
    (hs : ∀ s i s', Reach init next s → P s → next s i s' → P s') {s : σ}
    (run : Reach init next s) : P s := by
  induction run with
  | init h => exact h0 _ h
  | step i run h ih => exact hs _ i _ run ih h

theorem Reach.mono {next' : σ → ι → σ → Prop} (h : ∀ s i s', next s i s' → next' s i s') {s : σ}
    (run : Reach init next s) : Reach init next' s := by
  induction run with
  | init h0 => exact .init h0
  | step i _ hi ih => exact .step i ih (h _ _ _ hi)

theorem Reach.map {τ : Type*} {init' : τ → Prop} {next' : τ → ι → τ → Prop} (f : σ → τ)
    (h0 : ∀ s, init s → init' (f s)) (hs : ∀ s i s', next s i s' → next' (f s) i (f s')) {s : σ}
    (run : Reach init next s) : Reach init' next' (f s) := by
  induction run with
  | init h => exact .init (h0 _ h)
  | step i _ hi ih => exact .step i ih (hs _ _ _ hi)

end

section
variable {σ ι : Type*} (next : σ → ι → σ)

/-- The steps of a list of labels, each with the state it is taken from. -/
def stepsOf : σ → List ι → List (σ × ι)
  | _, [] => []
  | s, i :: is => (s, i) :: stepsOf (next s i) is

/-- Consecutive steps from one state to another. -/
inductive Chain : σ → List (σ × ι) → σ → Prop where
  | nil (s : σ) : Chain s [] s
  | cons {s s' : σ} {l : List (σ × ι)} (i : ι) (rest : Chain (next s i) l s') :
    Chain s ((s, i) :: l) s'

variable {next} {s s' s'' : σ} {l l' : List (σ × ι)}

theorem mem_stepsOf_snd {is : List ι} {m : σ × ι} (hm : m ∈ stepsOf next s is) :
    m.2 ∈ is := by
  induction is generalizing s with
  | nil => simp [stepsOf] at hm
  | cons i is ih =>
    rcases List.mem_cons.mp hm with rfl | hm
    · exact List.mem_cons_self
    · exact List.mem_cons_of_mem _ (ih hm)

theorem map_stepsOf {α : Type*} (f : ι → α) (is : List ι) :
    (stepsOf next s is).map (fun m => f m.2) = is.map f := by
  induction is generalizing s with
  | nil => rfl
  | cons i is ih => exact congrArg (f i :: ·) ih

theorem stepsOf_chain (next : σ → ι → σ) (s : σ) (is : List ι) :
    Chain next s (stepsOf next s is) (is.foldl next s) := by
  induction is generalizing s with
  | nil => exact .nil s
  | cons i is ih => exact .cons i (ih (next s i))

theorem Chain.append (h : Chain next s l s') (h' : Chain next s' l' s'') :
    Chain next s (l ++ l') s'' := by
  induction h with
  | nil => exact h'
  | cons i _ ih => exact .cons i (ih h')

theorem Chain.split (h : Chain next s (l ++ l') s'') :
    ∃ s', Chain next s l s' ∧ Chain next s' l' s'' := by
  induction l generalizing s with
  | nil => exact ⟨s, .nil s, h⟩
  | cons m l ih =>
    cases h with
    | cons i rest =>
      obtain ⟨s', hl, hl'⟩ := ih rest
      exact ⟨s', .cons i hl, hl'⟩

theorem Chain.invariant {P : σ → Prop} (h : Chain next s l s')
    (hs : ∀ m ∈ l, P m.1 → P (next m.1 m.2)) (h0 : P s) : (∀ m ∈ l, P m.1) ∧ P s' := by
  induction h with
  | nil => exact ⟨by simp, h0⟩
  | cons i _ ih =>
    have hrest := ih (fun m hm => hs m (List.mem_cons_of_mem _ hm)) (hs _ List.mem_cons_self h0)
    exact ⟨List.forall_mem_cons.mpr ⟨h0, hrest.1⟩, hrest.2⟩

theorem Chain.grows {r : σ → σ → Prop} (refl : ∀ s, r s s)
    (trans : ∀ {a b c}, r a b → r b c → r a c) (h : Chain next s l s')
    (hs : ∀ m ∈ l, r m.1 (next m.1 m.2)) : r s s' ∧ ∀ m ∈ l, r (next m.1 m.2) s' := by
  induction h with
  | nil => exact ⟨refl _, by simp⟩
  | cons i _ ih =>
    have hrest := ih (fun m hm => hs m (List.mem_cons_of_mem _ hm))
    exact ⟨trans (hs _ List.mem_cons_self) hrest.1, List.forall_mem_cons.mpr hrest⟩

/-- The potential method: where each step pays its cost and the rise of the potential out of its
credit, a chain costs at most its credit and the potential it started with. The potential is
read off a ghost value that the relation carries along. -/
theorem Chain.amortized {α M : Type*} [AddCommGroup M] [PartialOrder M] [IsOrderedAddMonoid M]
    {R : σ → α → Prop} {cost credit : σ × ι → M} {φ : α → M} (h : Chain next s l s')
    (hs : ∀ m ∈ l, ∀ a, R m.1 a →
      ∃ a', R (next m.1 m.2) a' ∧ cost m + φ a' ≤ credit m + φ a) {a : α} (h0 : R s a) :
    ∃ a', R s' a' ∧ (l.map cost).sum + φ a' ≤ (l.map credit).sum + φ a := by
  induction h generalizing a with
  | nil => exact ⟨a, h0, by simp⟩
  | cons i _ ih =>
    obtain ⟨b, hb, hstep⟩ := hs _ List.mem_cons_self a h0
    obtain ⟨a', ha', hrest⟩ := ih (fun m hm => hs m (List.mem_cons_of_mem _ hm)) hb
    refine ⟨a', ha', ?_⟩
    rw [List.map_cons, List.sum_cons, List.map_cons, List.sum_cons]
    calc _ = cost _ + ((List.map cost _).sum + φ a') := add_assoc _ _ _
      _ ≤ cost _ + ((List.map credit _).sum + φ b) := by gcongr
      _ = (List.map credit _).sum + (cost _ + φ b) := add_left_comm _ _ _
      _ ≤ (List.map credit _).sum + (credit _ + φ a) := by gcongr
      _ = _ := by rw [add_left_comm, add_assoc]

theorem Chain.spends {P : ℕ → σ → Prop} {price : σ × ι → ℕ} (h : Chain next s l s')
    (hs : ∀ m ∈ l, ∀ x, P (price m + x) m.1 → P x (next m.1 m.2)) {x : ℕ}
    (h0 : P ((l.map price).sum + x) s) : P x s' ∧ ∀ m ∈ l, ∃ y, P y (next m.1 m.2) := by
  induction h with
  | nil =>
    rw [List.map_nil, List.sum_nil, Nat.zero_add] at h0
    exact ⟨h0, by simp⟩
  | cons i _ ih =>
    rw [List.map_cons, List.sum_cons, Nat.add_assoc] at h0
    have hfirst := hs _ List.mem_cons_self _ h0
    have hrest := ih (fun m hm => hs m (List.mem_cons_of_mem _ hm)) hfirst
    exact ⟨hrest.1, List.forall_mem_cons.mpr ⟨⟨_, hfirst⟩, hrest.2⟩⟩

end
end TransitionRuns

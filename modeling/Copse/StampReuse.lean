import Copse.KDTreeGrowth
import Copse.PointStoreRuns

set_option autoImplicit false

namespace Copse
open TransitionRuns

namespace PointStore
variable {Dim : ℕ} {K : Type*} [Field K]

/-- How often a call increments the stamp of a slot: once when it evicts the slot and once when it
hands the slot out. -/
def increment (i : ℕ) (s : PointStore Dim K) : StoreOp Dim K → ℕ
  | .acquire x =>
    (if s.live = s.capacity ∧ s.victim = i then 1 else 0) + if (s.acquire x).2 = i then 1 else 0
  | .release _ => 0

def increments (i : ℕ) : PointStore Dim K → List (StoreOp Dim K) → ℕ
  | _, [] => 0
  | s, op :: ops => increment i s op + increments i (s.step op) ops

def Ends (i : ℕ) (s : PointStore Dim K) : StoreOp Dim K → Prop
  | .acquire _ => s.live = s.capacity ∧ s.victim = i
  | .release j => j = i

def Takes (i : ℕ) (s : PointStore Dim K) (op : StoreOp Dim K) : Prop :=
  ∃ x, op = .acquire x ∧ (s.acquire x).2 = i

structure Sized (s : PointStore Dim K) : Prop where
  generations : s.generations.length = s.capacity
  liveBits : s.liveBits.length = s.capacity

section
variable {s : PointStore Dim K} {op : StoreOp Dim K} {i : ℕ}

section
omit [Field K]

theorem isLive_set (u : PointStore Dim K) (v : ℕ) (b : Bool) (h : u.liveBits.length = u.capacity)
    (hi : i < u.capacity) :
    ({ u with liveBits := u.liveBits.set v b }.isLive i = true ↔
      if i = v then b = true else u.isLive i = true) := by
  simp only [isLive, hi, decide_true, Bool.true_and, List.getD_eq_getElem?_getD, List.getElem?_set]
  by_cases hv : i = v
  · subst hv
    simp [h, hi]
  · simp [hv, Ne.symm hv]

theorem Sized.evict (h : Sized s) : Sized s.evict := by
  obtain ⟨hg, hl⟩ := h
  exact ⟨List.length_set.trans hg, List.length_set.trans hl⟩

theorem Sized.append (h : Sized s) (x : Point Dim K) : Sized (s.append x).1 := by
  obtain ⟨hg, hl⟩ := h
  exact ⟨List.length_set.trans hg, List.length_set.trans hl⟩

/-- The store that `acquire` appends to. -/
def vacated (s : PointStore Dim K) : PointStore Dim K := if s.live = s.capacity then s.evict else s

theorem Sized.vacated (h : Sized s) : Sized s.vacated := by
  unfold PointStore.vacated
  split_ifs
  · exact h.evict
  · exact h

theorem vacated_capacity (s : PointStore Dim K) : s.vacated.capacity = s.capacity := by
  unfold vacated
  split_ifs <;> rfl

theorem Sized.step (h : Sized s) (op : StoreOp Dim K) : Sized (s.step op) := by
  cases op with
  | acquire x => exact h.vacated.append x
  | release j =>
    have hlen : (s.release j).generations = s.generations ∧
        (s.release j).liveBits = s.liveBits.set j false := by
      simp only [release]
      split_ifs <;> exact ⟨rfl, rfl⟩
    refine ⟨?_, ?_⟩
    · rw [PointStore.step, hlen.1, release_capacity]
      exact h.generations
    · rw [PointStore.step, hlen.2, release_capacity, List.length_set]
      exact h.liveBits

theorem step_capacity (s : PointStore Dim K) (op : StoreOp Dim K) :
    (s.step op).capacity = s.capacity := by
  cases op with
  | acquire x => exact acquire_capacity x
  | release j => exact release_capacity s j

theorem vacated_stampCount (h : Sized s) (hi : i < s.capacity) :
    s.vacated.stampCount i =
      s.stampCount i + if s.live = s.capacity ∧ s.victim = i then 1 else 0 := by
  have hg := h.generations
  unfold vacated
  by_cases hfull : s.live = s.capacity
  · have hbump := s.bump_stampCount s.victim i
    rw [if_pos hfull]
    change (s.bump s.victim).stampCount i = _
    rw [hbump]
    by_cases hv : s.victim = i
    · rw [if_pos ⟨hv, by omega⟩, if_pos ⟨hfull, hv⟩]
    · rw [if_neg (fun h => hv h.1), if_neg (fun h => hv h.2), Nat.add_zero]
  · rw [if_neg hfull, if_neg (fun h => hfull h.1), Nat.add_zero]

theorem step_stampCount (h : Sized s) (hi : i < s.capacity) (op : StoreOp Dim K) :
    (s.step op).stampCount i = s.stampCount i + increment i s op := by
  cases op with
  | acquire x =>
    have hg := h.vacated.generations
    have hcap := s.vacated_capacity
    have hbump := s.vacated.bump_stampCount (s.acquire x).2 i
    change (s.vacated.bump (s.acquire x).2).stampCount i = _
    rw [hbump, vacated_stampCount h hi, increment]
    by_cases hx : (s.acquire x).2 = i
    · rw [if_pos ⟨hx, by omega⟩, if_pos hx, Nat.add_assoc]
    · rw [if_neg (fun h => hx h.1), if_neg hx, Nat.add_zero]
  | release j => exact release_stampCount s j i

theorem live_before (h : Sized s) (hi : i < s.capacity) (htakes : ¬ Takes i s op)
    (hlive : (s.step op).isLive i = true) : s.isLive i = true ∧ ¬ Ends i s op := by
  cases op with
  | acquire x =>
    have hset := isLive_set s.vacated (s.acquire x).2 true h.vacated.liveBits
      (s.vacated_capacity.symm ▸ hi)
    have hne : i ≠ (s.acquire x).2 := fun heq => htakes ⟨x, rfl, heq.symm⟩
    rw [if_neg hne] at hset
    have hvac : s.vacated.isLive i = true := hset.mp hlive
    by_cases hfull : s.live = s.capacity
    · rw [vacated, if_pos hfull] at hvac
      have hevict := (isLive_set s s.victim false h.liveBits hi).mp hvac
      by_cases hv : i = s.victim
      · rw [if_pos hv] at hevict
        cases hevict
      · rw [if_neg hv] at hevict
        exact ⟨hevict, fun hends => hv hends.2.symm⟩
    · rw [vacated, if_neg hfull] at hvac
      exact ⟨hvac, fun hends => hfull hends.1⟩
  | release j =>
    have hrel : (s.release j).isLive i = true := hlive
    rw [release_isLive, Bool.and_eq_true, decide_eq_true_eq] at hrel
    exact ⟨hrel.1, fun hends => hrel.2 hends.symm⟩

theorem live_of_takes (h : Sized s) (hi : i < s.capacity) (htakes : Takes i s op) :
    (s.step op).isLive i = true := by
  obtain ⟨x, rfl, hx⟩ := htakes
  have hset := isLive_set s.vacated (s.acquire x).2 true h.vacated.liveBits
    (s.vacated_capacity.symm ▸ hi)
  rw [if_pos hx.symm] at hset
  exact hset.mpr rfl

theorem increment_eq_zero (htakes : ¬ Takes i s op) (hends : ¬ Ends i s op) :
    increment i s op = 0 := by
  cases op with
  | acquire x =>
    have hevicts : ¬ (s.live = s.capacity ∧ s.victim = i) := hends
    rw [increment, if_neg hevicts, if_neg (fun hx => htakes ⟨x, rfl, hx⟩)]
  | release j => rfl

theorem increments_append (i : ℕ) (s : PointStore Dim K) (l l' : List (StoreOp Dim K)) :
    increments i s (l ++ l') = increments i s l + increments i (l.foldl step s) l' := by
  induction l generalizing s with
  | nil => exact (Nat.zero_add _).symm
  | cons op l ih =>
    simp only [List.cons_append, increments, List.foldl_cons, ih, Nat.add_assoc]

theorem run_sized (h : Sized s) (l : List (StoreOp Dim K)) :
    Sized (l.foldl step s) ∧ (l.foldl step s).capacity = s.capacity := by
  induction l generalizing s with
  | nil => exact ⟨h, rfl⟩
  | cons op l ih =>
    obtain ⟨hs, hc⟩ := ih (h.step op)
    exact ⟨hs, hc.trans (step_capacity s op)⟩

theorem run_stampCount (h : Sized s) (hi : i < s.capacity) (l : List (StoreOp Dim K)) :
    (l.foldl step s).stampCount i = s.stampCount i + increments i s l := by
  induction l generalizing s with
  | nil => rfl
  | cons op l ih =>
    rw [List.foldl_cons, ih (h.step op) ((step_capacity s op).symm ▸ hi), step_stampCount h hi,
      increments, Nat.add_assoc]

/-- A slot that is live after its occupancy ended was handed out since, and its stamp is the one it
got then. -/
theorem exists_taking (h : Sized s) (hi : i < s.capacity) {op : StoreOp Dim K} (hends : Ends i s op)
    (l : List (StoreOp Dim K)) (hlive : ((op :: l).foldl step s).isLive i = true) :
    ∃ l' op', l' ++ [op'] <+: op :: l ∧ Takes i (l'.foldl step s) op' ∧
      increments i s (op :: l) = increments i s (l' ++ [op']) := by
  induction l using List.reverseRecOn with
  | nil =>
    by_cases htakes : Takes i s op
    · exact ⟨[], op, List.prefix_refl _, htakes, rfl⟩
    · exact absurd hends (live_before h hi htakes hlive).2
  | append_singleton l op' ih =>
    obtain ⟨hsized, hcap⟩ := run_sized h (op :: l)
    rw [← List.cons_append, List.foldl_append] at hlive
    by_cases htakes : Takes i ((op :: l).foldl step s) op'
    · exact ⟨op :: l, op', List.prefix_refl _, htakes, rfl⟩
    · obtain ⟨hbefore, hkeeps⟩ := live_before hsized (hcap.symm ▸ hi) htakes hlive
      obtain ⟨l', last, hprefix, htaken, hcount⟩ := ih hbefore
      have hlast : increments i ((op :: l).foldl step s) [op'] = 0 :=
        increment_eq_zero htakes hkeeps
      refine ⟨l', last, hprefix.trans (List.prefix_append _ [op']), htaken, ?_⟩
      rw [← List.cons_append, increments_append, hlast, hcount, Nat.add_zero]

end

theorem create_sized {capacity : ℕ} (h : PointStore.create capacity = .ok s) : Sized s := by
  unfold create at h
  split_ifs at h
  cases h
  exact ⟨List.length_replicate, List.length_replicate⟩

theorem StoreReachable.sized {capacity : ℕ} (h : StoreReachable capacity s) : Sized s := by
  refine Reach.invariant (P := fun s => Sized s) (fun s hs => create_sized hs) ?_ h
  rintro s op s' - hs ⟨-, rfl⟩
  exact hs.step op

theorem u32_add_eq_iff (n k : ℕ) : u32 (n + k) = u32 n ↔ 2 ^ 32 ∣ k := by
  unfold u32
  omega

/-- A pair of slot and stamp that was current stays stale from the end of its occupancy on exactly
when no call hands the slot out at a multiple of `2 ^ 32` increments since. -/
theorem stale_iff {capacity : ℕ} (h : StoreReachable capacity s) (hlive : s.isLive i = true)
    (pre : List (StoreOp Dim K)) {op : StoreOp Dim K} (hends : Ends i (pre.foldl step s) op)
    (later : List (StoreOp Dim K)) :
    (∀ l, l <+: later →
        ¬ (((pre ++ op :: l).foldl step s).generation i = s.generation i ∧
          ((pre ++ op :: l).foldl step s).isLive i = true)) ↔
      ∀ l op', l ++ [op'] <+: op :: later → Takes i ((pre ++ l).foldl step s) op' →
        ¬ 2 ^ 32 ∣ increments i s (pre ++ l ++ [op']) := by
  have hsized := h.sized
  have hi : i < s.capacity := by
    simp only [isLive, Bool.and_eq_true, decide_eq_true_eq] at hlive
    exact hlive.1
  have current : ∀ l, ((pre ++ l).foldl step s).generation i = s.generation i ↔
      2 ^ 32 ∣ increments i s (pre ++ l) := by
    intro l
    change u32 (((pre ++ l).foldl step s).stampCount i) = u32 (s.stampCount i) ↔ _
    rw [run_stampCount hsized hi, u32_add_eq_iff]
  constructor
  · intro hstale l op' hprefix htakes hdvd
    obtain ⟨hsized', hcap⟩ := run_sized hsized (pre ++ l)
    have hafter := live_of_takes hsized' (hcap.symm ▸ hi) htakes
    rw [List.append_assoc] at hdvd
    obtain ⟨rest, hrest⟩ : ∃ rest, l ++ [op'] = op :: rest := by
      cases l with
      | nil =>
        obtain ⟨hop, -⟩ := List.cons_prefix_cons.mp hprefix
        exact ⟨[], by rw [hop]; rfl⟩
      | cons first l =>
        obtain ⟨hop, -⟩ := List.cons_prefix_cons.mp hprefix
        exact ⟨l ++ [op'], by rw [hop]; rfl⟩
    rw [hrest] at hprefix hdvd
    refine hstale rest (List.cons_prefix_cons.mp hprefix).2 ⟨(current _).mpr hdvd, ?_⟩
    rw [← hrest, ← List.append_assoc, List.foldl_append]
    exact hafter
  · rintro hfresh l hprefix ⟨hgen, hafter⟩
    obtain ⟨hsized', hcap⟩ := run_sized hsized pre
    rw [List.foldl_append] at hafter
    obtain ⟨l', op', hl', htakes, hcount⟩ := exists_taking hsized' (hcap.symm ▸ hi) hends l hafter
    rw [← List.foldl_append] at htakes
    refine hfresh l' op' (hl'.trans ((List.prefix_cons_inj op).mpr hprefix)) htakes ?_
    have hdvd := (current (op :: l)).mp hgen
    rwa [increments_append, hcount, ← increments_append, ← List.append_assoc] at hdvd

end

section
open KDTreeImpl

theorem oneSlot_reachable : StoreReachable 1 (oneSlot 0 1) := by
  refine .step (.acquire 0) (.init (s := ⟨1, 0, [0], [false], [0], [0], [invalid], 0, 0⟩) rfl)
    ⟨trivial, ?_⟩
  simp [step, acquire, append, bump, oneSlot, u32]

theorem run_oneSlot (x : Point 2 ℚ) (g n : ℕ) :
    (List.replicate n (.acquire x)).foldl step (oneSlot x g) = oneSlot x (g + 2 * n) := by
  induction n generalizing g with
  | zero => rfl
  | succ n ih =>
    rw [List.replicate_succ, List.foldl_cons, step, acquire_oneSlot, ih]
    congr 1
    omega

/-- In a store of one slot every acquire evicts, and `2 ^ 31` of them bring the stamp back. -/
theorem stamp_returns :
    StoreReachable 1 (oneSlot 0 1) ∧ (oneSlot 0 1).isLive 0 = true ∧
      Ends 0 (oneSlot 0 1) (.acquire 0) ∧
      ((.acquire 0 :: List.replicate (2 ^ 31 - 1) (.acquire 0)).foldl step
        (oneSlot 0 1)).generation 0 = (oneSlot 0 1).generation 0 ∧
      ((.acquire 0 :: List.replicate (2 ^ 31 - 1) (.acquire 0)).foldl step
        (oneSlot 0 1)).isLive 0 = true := by
  have hrun : (.acquire 0 :: List.replicate (2 ^ 31 - 1) (.acquire 0)).foldl step (oneSlot 0 1) =
      oneSlot 0 (1 + 2 ^ 32) := by
    have hcount : 1 + 2 * (2 ^ 31 - 1 + 1) = 1 + 2 ^ 32 := by norm_num
    rw [← List.replicate_succ, run_oneSlot, hcount]
  rw [hrun]
  refine ⟨oneSlot_reachable, rfl, ⟨rfl, rfl⟩, ?_, rfl⟩
  change u32 (1 + 2 ^ 32) = u32 1
  rw [u32_add_eq_iff]

/-- Released and handed out once more, the slot does not bring the old pair back. -/
theorem stale_iff_oneSlot :
    ¬ (((oneSlot 0 1).step (.release 0)).generation 0 = (oneSlot 0 1).generation 0 ∧
        ((oneSlot 0 1).step (.release 0)).isLive 0 = true) ∧
      ¬ ((([.release 0, .acquire 0] : List (StoreOp 2 ℚ)).foldl step (oneSlot 0 1)).generation 0 =
          (oneSlot 0 1).generation 0 ∧
        (([.release 0, .acquire 0] : List (StoreOp 2 ℚ)).foldl step (oneSlot 0 1)).isLive 0 =
          true) := by
  -- a release hands nothing out, so the acquire is the only call to test
  have hfresh : ∀ l op', l ++ [op'] <+: [.release 0, .acquire 0] →
      Takes 0 (l.foldl step (oneSlot 0 1)) op' →
      ¬ 2 ^ 32 ∣ increments 0 (oneSlot 0 1) (l ++ [op']) := by
    rintro l op' hprefix ⟨x, rfl, -⟩
    rcases List.prefix_concat_iff.mp
      (show _ <+: [StoreOp.release 0] ++ [.acquire 0] from hprefix) with heq | hshort
    · obtain ⟨rfl, hx⟩ := List.append_inj' heq rfl
      cases hx
      have hone : increments 0 (oneSlot 0 1) ([.release 0] ++ [.acquire 0]) = 1 := by
        decide +kernel
      rw [hone]
      decide
    · rcases List.prefix_concat_iff.mp
        (show _ <+: [] ++ [StoreOp.release 0] from hshort) with heq | hnil
      · obtain ⟨-, hx⟩ := List.append_inj' heq rfl
        cases hx
      · exact absurd (List.prefix_nil.mp hnil) (by simp)
  have hstale := (stale_iff oneSlot_reachable rfl []
    (show Ends 0 (oneSlot 0 1) (.release 0) from rfl) [.acquire 0]).mpr hfresh
  exact ⟨hstale [] List.nil_prefix, hstale [.acquire 0] List.prefix_rfl⟩

end
end PointStore
end Copse

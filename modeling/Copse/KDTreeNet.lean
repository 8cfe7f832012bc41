import Copse.KDTreeTraces
import Copse.SeparatedNet
import Mathlib.Algebra.BigOperators.Field
import Mathlib.Data.Fintype.Pi

set_option autoImplicit false

namespace Copse
open PointQueue QueueOutline SwapQueue TransitionRuns

namespace Point
variable {Dim : ℕ} {K : Type*} [Field K] [LinearOrder K]

def Between (lo hi x : Point Dim K) : Prop := ∀ i, lo i ≤ x i ∧ x i ≤ hi i

/-- The side of a cell when each side of the box from `lo` to `hi` is cut into `m + 1` parts. -/
def cellSide (lo hi : Point Dim K) (m : ℕ) (i : Fin Dim) : K := (hi i - lo i) / ((m + 1 : ℕ) : K)

def gridCell (lo hi : Point Dim K) (m : ℕ) (x : Point Dim K) : Fin Dim → Fin (m + 1) := fun i =>
  ⟨Nat.findGreatest (fun j => lo i + (j : K) * cellSide lo hi m i ≤ x i) m,
    Nat.lt_succ_of_le (Nat.findGreatest_le m)⟩

section
variable [IsStrictOrderedRing K] {lo hi x y : Point Dim K} {m : ℕ}

theorem cellSide_mul (lo hi : Point Dim K) (m : ℕ) (i : Fin Dim) :
    ((m + 1 : ℕ) : K) * cellSide lo hi m i = hi i - lo i := by
  have hne : ((m + 1 : ℕ) : K) ≠ 0 := Nat.cast_ne_zero.mpr (Nat.succ_ne_zero m)
  rw [cellSide, mul_div_cancel₀ _ hne]

theorem gridCell_bounds (h : Between lo hi x) (i : Fin Dim) :
    lo i + ((gridCell lo hi m x i : ℕ) : K) * cellSide lo hi m i ≤ x i ∧
      x i ≤ lo i + ((gridCell lo hi m x i : ℕ) : K) * cellSide lo hi m i + cellSide lo hi m i := by
  constructor
  · have hzero : lo i + ((0 : ℕ) : K) * cellSide lo hi m i ≤ x i := by
      rw [Nat.cast_zero, zero_mul, add_zero]
      exact (h i).1
    exact Nat.findGreatest_spec (P := fun j => lo i + (j : K) * cellSide lo hi m i ≤ x i)
      (Nat.zero_le m) hzero
  · have hle : (gridCell lo hi m x i : ℕ) ≤ m := Nat.le_of_lt_succ (gridCell lo hi m x i).isLt
    rcases hle.eq_or_lt with heq | hlt
    · have hmul := cellSide_mul lo hi m i
      have hhi := (h i).2
      rw [Nat.cast_succ] at hmul
      rw [heq]
      linarith
    · have hnot : ¬ lo i + ((gridCell lo hi m x i + 1 : ℕ) : K) * cellSide lo hi m i ≤ x i :=
        Nat.findGreatest_is_greatest (P := fun j => lo i + (j : K) * cellSide lo hi m i ≤ x i)
          (Nat.lt_succ_self _) hlt
      rw [Nat.cast_succ] at hnot
      linarith

theorem sqDist_le_of_gridCell (hx : Between lo hi x) (hy : Between lo hi y)
    (h : gridCell lo hi m x = gridCell lo hi m y) :
    ((m + 1 : ℕ) : K) * ((m + 1 : ℕ) : K) * x.sqDist y ≤ lo.sqDist hi := by
  rw [sqDist, sqDist, Finset.mul_sum]
  refine Finset.sum_le_sum (fun i _ => ?_)
  have hbx := gridCell_bounds (m := m) hx i
  have hby := gridCell_bounds (m := m) hy i
  have hside := cellSide_mul lo hi m i
  rw [← h] at hby
  have hsq : (x i - y i) * (x i - y i) ≤ cellSide lo hi m i * cellSide lo hi m i :=
    abs_le_iff_mul_self_le.mp (abs_le_abs (by linarith) (by linarith))
  calc _ ≤ ((m + 1 : ℕ) : K) * ((m + 1 : ℕ) : K) * (cellSide lo hi m i * cellSide lo hi m i) :=
        mul_le_mul_of_nonneg_left hsq (mul_self_nonneg _)
    _ = (((m + 1 : ℕ) : K) * cellSide lo hi m i) * (((m + 1 : ℕ) : K) * cellSide lo hi m i) := by ring
    _ = (lo i - hi i) * (lo i - hi i) := by rw [hside]; ring

theorem narrow_gridCell {cfg : Config K}
    (hm : lo.sqDist hi < (((m + 1 : ℕ) : K) * cfg.resolution) * (((m + 1 : ℕ) : K) * cfg.resolution)) :
    Narrow (near cfg) (Between lo hi) (gridCell lo hi m) := by
  intro x y hx hy hcell
  have hle := sqDist_le_of_gridCell hx hy hcell
  have hpos : (0 : K) < ((m + 1 : ℕ) : K) * ((m + 1 : ℕ) : K) :=
    mul_self_pos.mpr (Nat.cast_ne_zero.mpr (Nat.succ_ne_zero m))
  rw [near, decide_eq_true_eq]
  refine lt_of_mul_lt_mul_left (hle.trans_lt (hm.trans_eq ?_)) hpos.le
  ring

end
end Point

namespace PointQueue
variable {Dim : ℕ} {K : Type*} [Field K] [LinearOrder K]

def taken : List (Call Dim K × Answer Dim K) → ℕ
  | (.update (.insert _), .count n) :: l => n + taken l
  | _ :: l => taken l
  | [] => 0

def dropped : List (Call Dim K × Answer Dim K) → ℕ
  | (.update (.insert _), _) :: l => dropped l
  | (.update _, .count n) :: l => n + dropped l
  | _ :: l => dropped l
  | [] => 0

/-- An insertion brought the point, and no deletion since then was about a point near it. -/
def Owed (cfg : Config K) (past : List (Call Dim K × Answer Dim K)) (x : Point Dim K) : Prop :=
  ∃ before batch n after, past = before ++ (.update (.insert batch), .count n) :: after ∧
    x ∈ batch ∧ ∀ m ∈ after, ∀ op, m.1 = .update op →
      ∀ y, near cfg y x = true → op.deletes (cfg.resolution * cfg.resolution) y = false

def StaysIn (region : Point Dim K → Prop) (l : List (Call Dim K × Answer Dim K)) : Prop :=
  ∀ m ∈ l, ∀ batch, m.1 = .update (.insert batch) → ∀ x ∈ batch, region x

/-- The queue has lost nothing to evictions and is a net of what came. -/
structure IsNet (cfg : Config K) (region : Point Dim K → Prop)
    (past : List (Call Dim K × Answer Dim K)) (q : List (Point Dim K)) : Prop where
  within : ∀ x ∈ q, region x
  separated : Separated (near cfg) q
  balance : q.length + dropped past = taken past
  covers : ∀ x, Owed cfg past x → Covered (near cfg) q x

section
variable {cfg : Config K} {q q' : List (Point Dim K)} {i : Call Dim K × Answer Dim K}
variable {past l l' : List (Call Dim K × Answer Dim K)} {region : Point Dim K → Prop}
variable {ι : Type*} {cell : Point Dim K → ι} {x : Point Dim K}

omit [Field K] [LinearOrder K] in
theorem taken_append (l l' : List (Call Dim K × Answer Dim K)) :
    taken (l ++ l') = taken l + taken l' := by
  fun_induction taken l with
  | case1 batch n l ih => rw [List.cons_append, taken, ih, Nat.add_assoc]
  | case2 m l hm ih => rw [List.cons_append, taken, ih]; exact hm
  | case3 => rw [List.nil_append, Nat.zero_add]

omit [Field K] [LinearOrder K] in
theorem dropped_append (l l' : List (Call Dim K × Answer Dim K)) :
    dropped (l ++ l') = dropped l + dropped l' := by
  fun_induction dropped l with
  | case1 batch a l ih => rw [List.cons_append, dropped, ih]
  | case2 op n l hop ih => rw [List.cons_append, dropped, ih, Nat.add_assoc]; exact hop
  | case3 m l h₁ h₂ ih => rw [List.cons_append, dropped, ih]; exacts [h₁, h₂]
  | case4 => rw [List.nil_append, Nat.zero_add]

theorem Owed.before_last (h : Owed cfg (past ++ [i]) x) :
    Owed cfg past x ∧ (∀ op, i.1 = .update op → ∀ y, near cfg y x = true →
        op.deletes (cfg.resolution * cfg.resolution) y = false) ∨
      ∃ batch n, i = (.update (.insert batch), .count n) ∧ x ∈ batch := by
  obtain ⟨before, batch, n, after, heq, hx, hafter⟩ := h
  rcases List.eq_nil_or_concat' after with rfl | ⟨rest, j, rfl⟩
  · obtain ⟨-, hi⟩ := List.append_inj' heq rfl
    exact .inr ⟨batch, n, List.singleton_inj.mp hi, hx⟩
  · rw [← List.cons_append, ← List.append_assoc] at heq
    obtain ⟨hpast, hi⟩ := List.append_inj' heq rfl
    rw [List.singleton_inj] at hi
    subst hi hpast
    exact .inl ⟨⟨before, batch, n, rest, rfl, hx, fun m hm => hafter m (List.mem_append_left _ hm)⟩,
      hafter i (by simp)⟩

variable [IsStrictOrderedRing K]

omit [IsStrictOrderedRing K] in
theorem near_comm (x y : Point Dim K) : near cfg x y = near cfg y x := by
  rw [near, near, Point.sqDist_comm]

theorem near_self (hres : 0 < cfg.resolution) (x : Point Dim K) : near cfg x x = true := by
  rw [near, decide_eq_true_eq, Point.sqDist]
  simp only [sub_self, mul_zero, Finset.sum_const_zero]
  exact mul_pos hres hres

/-- A call keeps a queue a net when there is a slot for each cell of the region. -/
theorem IsNet.next [Fintype ι] (h : IsNet cfg region past q) (hcell : Narrow (near cfg) region cell)
    (hres : 0 < cfg.resolution) (hcap : Fintype.card ι ≤ cfg.capacity) (hi : StaysIn region [i])
    (hnext : Next cfg q i q') : IsNet cfg region (past ++ [i]) q' := by
  have unchanged : (∀ op, i.1 ≠ .update op) → IsNet cfg region (past ++ [i]) q := by
    intro hop
    have htaken : taken [i] = 0 := by
      obtain ⟨call, answer⟩ := i
      cases call with
      | update op => exact absurd rfl (hop op)
      | _ => rfl
    have hdropped : dropped [i] = 0 := by
      obtain ⟨call, answer⟩ := i
      cases call with
      | update op => exact absurd rfl (hop op)
      | _ => rfl
    refine ⟨h.within, h.separated, ?_, fun x hx => ?_⟩
    · rw [taken_append, dropped_append, htaken, hdropped]
      exact h.balance
    · rcases hx.before_last with ⟨hbefore, -⟩ | ⟨batch, n, rfl, -⟩
      · exact h.covers x hbefore
      · exact absurd rfl (hop _)
  cases hnext with
  | insert batch =>
    obtain ⟨kept, hfst, hsnd, hsep, hreg, hcov⟩ := admitAll_keeps hcell (near_self hres) hcap
      h.separated h.within (hi _ List.mem_cons_self batch rfl)
    have hbalance := h.balance
    rw [hfst]
    refine ⟨List.forall_mem_append.mpr ⟨h.within, hreg⟩, hsep, ?_, fun x hx => ?_⟩
    · rw [taken_append, dropped_append, List.length_append, taken, taken, dropped, dropped, hsnd]
      omega
    · rcases hx.before_last with ⟨hbefore, -⟩ | ⟨batch', n, heq, hmem⟩
      · exact (h.covers x hbefore).append
      · cases heq
        exact hcov x hmem
  | @delete _ n op hop removed =>
    have hbalance := h.balance
    have hlen := removed.length_add
    have htaken : taken [(Call.update op, Answer.count n)] = 0 := by
      cases op with
      | insert batch => exact absurd rfl (hop batch)
      | _ => rfl
    have hdropped : dropped [(Call.update op, Answer.count n)] = n := by
      cases op with
      | insert batch => exact absurd rfl (hop batch)
      | _ => rfl
    refine ⟨fun x hx => h.within x (removed.mem hx).1, removed.separated near_comm h.separated,
      ?_, fun x hx => ?_⟩
    · rw [taken_append, dropped_append, htaken, hdropped]
      omega
    · rcases hx.before_last with ⟨hbefore, hspared⟩ | ⟨batch, n, heq, -⟩
      · refine removed.covered (fun y hnear hit hhit => ?_) (h.covers x hbefore)
        have hdeletes := hspared op rfl y hnear
        rw [← Bool.not_eq_true] at hdeletes ⊢
        exact fun htrue => hdeletes (Op.exists_round_iff.mp ⟨hit, hhit, htrue⟩)
      · cases heq
        exact absurd rfl (hop batch)
  | knn | radius | hybrid | size => exact unchanged (by simp)

theorem isNet_of_trace [Fintype ι] (hcell : Narrow (near cfg) region cell)
    (hres : 0 < cfg.resolution) (hcap : Fintype.card ι ≤ cfg.capacity) (hin : StaysIn region l)
    (h : Trace (Next cfg) [] l q) : IsNet cfg region l q := by
  have hstart : IsNet cfg region [] ([] : List (Point Dim K)) :=
    ⟨by simp, List.Pairwise.nil, rfl, fun x hx => by
      obtain ⟨before, batch, n, after, heq, -⟩ := hx
      simp at heq⟩
  refine h.history (P := fun past q => StaysIn region past → IsNet cfg region past q)
    (fun past q i q' hq hnext hin => ?_) (fun _ => hstart) hin
  exact (hq (fun m hm => hin m (List.mem_append_left _ hm))).next hcell hres hcap
    (fun m hm => hin m (List.mem_append_right _ hm)) hnext

end
end PointQueue

namespace KDTreeImpl
variable {Dim : ℕ} [NeZero Dim] {K : Type*} [Field K] [LinearOrder K]

theorem insert_rejected {env : Env K} {s : KDTreeImpl Dim K} {batch : List (Point Dim K)}
    (h : ∀ x ∈ batch, s.accepts x = false) : s.insert env batch = (s, 0) := by
  have hloop : insertLoop env s batch = (s, 0) := by
    induction batch with
    | nil => rfl
    | cons x batch ih =>
      obtain ⟨hx, hrest⟩ := List.forall_mem_cons.mp h
      have hfirst : s.insertPoint env x = (s, 0) := by
        rw [insertPoint, hx, if_neg Bool.false_ne_true]
      rw [insertLoop, hfirst]
      dsimp only
      rw [ih hrest]
      rfl
  rw [insert, hloop]
  rfl

variable [IsStrictOrderedRing K] {env : Env K} {cfg : Config K} {s s' : KDTreeImpl Dim K}

omit [NeZero Dim] in
theorem Queued.rejects {q : List (Point Dim K)} {x : Point Dim K} (h : Queued cfg s q)
    (hx : Covered (near cfg) q x) : s.accepts x = false := by
  obtain ⟨o, hs⟩ := h.sound
  obtain ⟨window, free, hring, rfl⟩ := h.ring
  obtain ⟨y, hy, hnear⟩ := hx
  obtain ⟨i, hi, rfl⟩ := List.mem_map.mp hy
  rw [near, decide_eq_true_eq] at hnear
  rw [← Bool.not_eq_true, accepts_iff x hs]
  intro hfar
  have hle := hfar i ((hring.isLive_iff i).mpr hi)
  rw [sqResolution, h.config] at hle
  exact absurd hnear (not_lt.mpr hle)

/-- In a tree with a slot for each cell of a grid over the box, cut finer than the resolution, a
stream from the box loses no point to an eviction. There is a live point near each that came, unless
a later deletion was about a point near it, so to bring those again changes nothing. -/
theorem grid_sized (hB : 2 * cfg.leafBucketSize ≤ 65535) (hs : create cfg = .ok s)
    (hn : s.NoWrap) {l : List (Call Dim K × Answer Dim K)} (h : Trace (Answers env) s l s')
    {lo hi : Point Dim K} {m : ℕ} (hm : lo.sqDist hi <
      (((m + 1 : ℕ) : K) * cfg.resolution) * (((m + 1 : ℕ) : K) * cfg.resolution))
    (hcap : (m + 1) ^ Dim ≤ cfg.capacity) (hin : StaysIn (Point.Between lo hi) l) :
    s'.size ≤ (m + 1) ^ Dim ∧ s'.size + dropped l = taken l ∧
      (∀ x, Owed cfg l x → ∃ y ∈ s'.evictionOrder, y.sqDist x < cfg.resolution * cfg.resolution) ∧
      ∀ batch, (∀ x ∈ batch, Owed cfg l x) → s'.insert env batch = (s', 0) := by
  obtain ⟨q, hq, hqueued⟩ := exists_queue hB hs hn h
  have hcell := Point.narrow_gridCell hm
  have hcard : Fintype.card (Fin Dim → Fin (m + 1)) = (m + 1) ^ Dim := by simp
  have hnet := isNet_of_trace hcell (create_fresh hs).accepted.resolution (hcard.trans_le hcap) hin hq
  have hlen := hnet.separated.length_le hcell hnet.within
  rw [hqueued.size_eq, ← hcard, hqueued.order]
  refine ⟨hlen, hnet.balance, fun x hx => ?_, fun batch hbatch => ?_⟩
  · obtain ⟨y, hy, hnear⟩ := hnet.covers x hx
    exact ⟨y, hy, of_decide_eq_true hnear⟩
  · exact insert_rejected (fun x hx => hqueued.rejects (hnet.covers x (hbatch x hx)))

theorem replies_fst (calls : List (Call Dim K)) : (replies env s calls).map Prod.fst = calls := by
  induction calls generalizing s with
  | nil => rfl
  | cons call calls ih => rw [replies, List.map_cons, ih]

theorem staysIn_replies {region : Point Dim K → Prop} {calls : List (Call Dim K)}
    (h : ∀ batch, Call.update (.insert batch) ∈ calls → ∀ x ∈ batch, region x) :
    StaysIn region (replies env s calls) := by
  intro m hm batch heq
  have hmem := List.mem_map_of_mem (f := Prod.fst) hm
  rw [replies_fst, heq] at hmem
  exact h batch hmem

def cornerCalls : List (Call 2 ℚ) :=
  [.update (.insert [![0, 0], ![1 / 10, 0], ![1 / 20, 1 / 20]]), .update (.remove [![1 / 10, 0]]),
    .update (.insert [![1 / 10, 1 / 10], ![0, 1 / 10]]), .knn ![0, 0] 2]

theorem grid_sized_plane :
    (after exactEnv (start (plane 4 (1 / 4))) cornerCalls).size +
        dropped (replies exactEnv (start (plane 4 (1 / 4))) cornerCalls) =
      taken (replies exactEnv (start (plane 4 (1 / 4))) cornerCalls) := by
  have hin : StaysIn (Point.Between 0 ![1 / 10, 1 / 10])
      (replies exactEnv (start (plane 4 (1 / 4))) cornerCalls) := by
    refine staysIn_replies (fun batch hbatch x hx i => ?_)
    simp only [cornerCalls, List.mem_cons, Call.update.injEq, Op.insert.injEq, reduceCtorEq,
      List.not_mem_nil, or_false, false_or] at hbatch
    rcases hbatch with rfl | rfl <;> simp only [List.mem_cons, List.not_mem_nil, or_false] at hx <;>
      rcases hx with rfl | rfl | rfl <;> revert i <;> decide +kernel
  exact (grid_sized (by decide) (create_start (plane_accepted (by decide) (by norm_num)))
    (noWrap_of_fits (by decide +kernel)) (replies_trace (by decide +kernel))
    (m := 1) (by decide +kernel) (by decide) hin).2.1

end KDTreeImpl
end Copse

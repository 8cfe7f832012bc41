import Copse.DepthBudget

set_option autoImplicit false

namespace Copse
open PointStore TreeBuilder TransitionRuns

namespace KDTreeImpl
variable {Dim : ℕ} [NeZero Dim] {K : Type*} [Field K] [LinearOrder K]

/-- A state that took in `i` of at most `N` points and may take in `x` more, that is `k` levels
too deep at most, and that `Q` allows to go on. -/
structure Kept (cfg : Config K) (Q : ℕ → KDTreeImpl Dim K → Prop) (N k i x : ℕ)
    (s : KDTreeImpl Dim K) : Prop where
  settled : ∃ o, Sound s o ∧ Settled cfg k i o
  config : s.cfg = cfg
  size : s.size ≤ i
  left : i + x ≤ N
  budget : Q x s

/-- `Q` carries over each step of a call of at most `m` points, and the step wraps nothing. -/
def Affords (env : Env K) [IsStrictOrderedRing K] (cfg : Config K)
    (Q : ℕ → KDTreeImpl Dim K → Prop) (N m : ℕ) (s : KDTreeImpl Dim K) (op : Op Dim K) : Prop :=
  ∀ n ∈ s.steps env op, ∀ k i x, k ≤ m → n.1.Ready n.2 →
    Kept cfg Q N k i (n.2.arrivals + x) n.1 → (n.1.act env n.2).NoWrap ∧ Q x (n.1.act env n.2)

section
variable {env : Env K} {cfg : Config K} {s : KDTreeImpl Dim K} {Q : ℕ → KDTreeImpl Dim K → Prop}
variable {N m k i x H : ℕ} {a : Action Dim K} [IsStrictOrderedRing K]

theorem Kept.act (hexact : env.counter = .exact) (accepted : Accepted cfg)
    (h : Kept cfg Q N k i (a.arrivals + x) s) (ready : s.Ready a) (hk : a = .sweep → k = 0)
    (hnext : (s.act env a).NoWrap ∧ Q x (s.act env a)) :
    Kept cfg Q N (k + a.arrivals) (i + a.arrivals) x (s.act env a) := by
  obtain ⟨o, hs, hsettled⟩ := h.settled
  obtain ⟨o', hev, hs'⟩ := act_sound env a hs ready hnext.1
  have hleft := h.left
  exact
    { settled := ⟨o', hs', act_settled hexact accepted h.config hs hev hs' hsettled h.size hk⟩
      config := (act_cfg env a).1.trans h.config
      size := (act_size hs ready hnext.1).2.trans (Nat.add_le_add_right h.size _)
      left := by omega
      budget := hnext.2 }

theorem Kept.sweepFull (hexact : env.counter = .exact) (accepted : Accepted cfg)
    (h : Kept cfg Q N k i x s)
    (hnext : (s.act env .sweepFull).NoWrap ∧ Q x (s.act env .sweepFull)) :
    Kept cfg Q N 0 i x (s.act env .sweepFull) := by
  obtain ⟨o, hs, hsettled⟩ := h.settled
  obtain ⟨o', hev, hs'⟩ := act_sound env .sweepFull hs trivial hnext.1
  have hzero : Settled cfg 0 i o' := by
    cases hev with
    | idleFull => trivial
    | sweptFull t t' swept =>
      exact settled_of_swept hexact accepted h.config swept (.inl ⟨rfl, fun _ => rfl⟩) hsettled
  have hsize : (s.act env .sweepFull).size = s.size := by
    rw [KDTreeImpl.act, KDTreeImpl.size, sweepFull_points, KDTreeImpl.size]
  exact ⟨⟨o', hs', hzero⟩, (act_cfg env .sweepFull).1.trans h.config, hsize.trans_le h.size, h.left,
    hnext.2⟩

omit [IsStrictOrderedRing K] in
theorem insertLoop_rejected (batch : List (Point Dim K)) (h : (insertLoop env s batch).2 = 0) :
    (insertLoop env s batch).1 = s := by
  induction batch generalizing s with
  | nil => rfl
  | cons y batch ih =>
    have hcount : (s.insertPoint env y).2 + (insertLoop env (s.insertPoint env y).1 batch).2 = 0 := h
    have hfirst : s.insertPoint env y = (s, 0) := by
      cases hy : s.accepts y with
      | false => rw [insertPoint, hy, if_neg Bool.false_ne_true]
      | true =>
        rw [insertPoint, if_pos hy] at hcount
        omega
    rw [hfirst] at hcount
    dsimp only at hcount
    rw [insertLoop, hfirst]
    exact ih (by omega)

theorem insertLoop_kept (hexact : env.counter = .exact) (accepted : Accepted cfg)
    (batch : List (Point Dim K)) (hm : batch.length ≤ m)
    (hQ : Affords env cfg Q N m s (.insert batch)) (h : Kept cfg Q N 0 i (batch.length + x) s) :
    ∃ k ≤ m, Kept cfg Q N k (i + batch.length) x (insertLoop env s batch).1 := by
  have hprice : ((stepsOf (KDTreeImpl.act env) s (batch.map .insertPoint)).map
      (fun n => n.2.arrivals)).sum = batch.length := by
    rw [map_stepsOf, List.map_map]
    simp [Function.comp_def, Action.arrivals]
  have hstart : ∃ k j, k + (((stepsOf (KDTreeImpl.act env) s (batch.map .insertPoint)).map
      (fun n => n.2.arrivals)).sum + 0) ≤ m ∧
      j + (((stepsOf (KDTreeImpl.act env) s (batch.map .insertPoint)).map
        (fun n => n.2.arrivals)).sum + 0) = i + batch.length ∧
      Kept cfg Q N k j (((stepsOf (KDTreeImpl.act env) s (batch.map .insertPoint)).map
        (fun n => n.2.arrivals)).sum + 0 + x) s := by
    rw [hprice]
    exact ⟨0, i, by omega, rfl, h⟩
  have hstep : ∀ n ∈ stepsOf (KDTreeImpl.act env) s (batch.map .insertPoint), ∀ y,
      (∃ k j, k + (n.2.arrivals + y) ≤ m ∧ j + (n.2.arrivals + y) = i + batch.length ∧
        Kept cfg Q N k j (n.2.arrivals + y + x) n.1) →
      ∃ k j, k + y ≤ m ∧ j + y = i + batch.length ∧
        Kept cfg Q N k j (y + x) (n.1.act env n.2) := by
    intro n hn y hy
    obtain ⟨k, j, hk, hj, hy⟩ := hy
    obtain ⟨y', -, hn'⟩ := List.mem_map.mp (mem_stepsOf_snd hn)
    have ready : n.1.Ready n.2 := by
      rw [← hn']
      trivial
    rw [Nat.add_assoc] at hy
    have hnext := hQ n (List.mem_append_left _ hn) k j _ (by omega) ready hy
    refine ⟨k + n.2.arrivals, j + n.2.arrivals, by omega, by omega,
      hy.act hexact accepted ready (fun ha => ?_) hnext⟩
    rw [← hn'] at ha
    cases ha
  obtain ⟨⟨k, j, hk, hj, hend⟩, -⟩ :=
    (stepsOf_chain (KDTreeImpl.act env) s (batch.map .insertPoint)).spends
      (P := fun y u => ∃ k j, k + y ≤ m ∧ j + y = i + batch.length ∧ Kept cfg Q N k j (y + x) u)
      hstep hstart
  rw [insertLoop_fst]
  rw [Nat.add_zero] at hj
  rw [Nat.zero_add] at hend
  exact ⟨k, hk, hj ▸ hend⟩

theorem apply_kept (hexact : env.counter = .exact) (accepted : Accepted cfg) (op : Op Dim K)
    (hm : op.arrivals ≤ m) (hQ : Affords env cfg Q N m s op)
    (h : Kept cfg Q N 0 i (op.arrivals + x) s) :
    Kept cfg Q N 0 (i + op.arrivals) x (s.apply env op).1 := by
  by_cases hop : ∃ batch, op = .insert batch
  · obtain ⟨batch, rfl⟩ := hop
    obtain ⟨k, hk, hloop⟩ := insertLoop_kept hexact accepted batch hm hQ h
    rw [apply, insert]
    dsimp only
    split_ifs with hcount
    · have hnext := hQ _ (List.mem_append_right _ (closing_mem .sweepFull hcount)) k
        (i + batch.length) x hk trivial
      rw [show Action.sweepFull.arrivals = 0 from rfl, Nat.zero_add] at hnext
      exact hloop.sweepFull hexact accepted (hnext hloop)
    · -- nothing was accepted, so the state is the one before the call
      have hsame := insertLoop_rejected batch (Nat.eq_zero_of_not_pos hcount)
      obtain ⟨o, hs, hsettled⟩ := h.settled
      have hmono := hsettled.mono accepted (Nat.zero_le 0) (Nat.le_add_right i batch.length)
      rw [hsame] at hloop ⊢
      exact ⟨⟨o, hs, hmono⟩, hloop.config, hloop.size, hloop.left, hloop.budget⟩
  · have hnone : op.arrivals = 0 := by
      cases op with
      | insert batch => exact absurd ⟨batch, rfl⟩ hop
      | _ => rfl
    have hprice : ∀ n ∈ s.steps env op, n.2.arrivals = 0 := by
      have hsum : ((s.steps env op).map (fun n => n.2.arrivals)).sum = op.arrivals :=
        steps_arrivals op
      rw [hnone, List.sum_eq_zero_iff] at hsum
      exact fun n hn => hsum _ (List.mem_map_of_mem hn)
    obtain ⟨o, hs, -⟩ := h.settled
    have ready : ∀ n ∈ s.steps env op, n.1.Ready n.2 := steps_prepared op hs
    rw [hnone, Nat.zero_add] at h
    rw [hnone, Nat.add_zero]
    refine ((steps_chain env s op).invariant (P := Kept cfg Q N 0 i x) (fun n hn hP => ?_) h).2
    have hstart : Kept cfg Q N 0 i (n.2.arrivals + x) n.1 := by
      rwa [hprice n hn, Nat.zero_add]
    have hend := hstart.act hexact accepted (ready n hn) (fun _ => rfl)
      (hQ n hn 0 i x (Nat.zero_le m) (ready n hn) hstart)
    rwa [hprice n hn, Nat.add_zero, Nat.add_zero] at hend

theorem calls_kept (hexact : env.counter = .exact) (accepted : Accepted cfg)
    (ops : List (Op Dim K)) (hm : ∀ op ∈ ops, op.arrivals ≤ m)
    (hQ : ∀ n ∈ calls env s ops, Affords env cfg Q N m n.1 n.2)
    (h : Kept cfg Q N 0 i ((ops.map Op.arrivals).sum + x) s) :
    Kept cfg Q N 0 (i + (ops.map Op.arrivals).sum) x (run env s ops) ∧
      ∀ n ∈ calls env s ops, ∃ j y, Kept cfg Q N 0 j y (n.1.apply env n.2).1 := by
  induction ops generalizing s i with
  | nil =>
    rw [List.map_nil, List.sum_nil, Nat.zero_add] at h
    exact ⟨h, by simp [calls, stepsOf]⟩
  | cons op ops ih =>
    rw [List.map_cons, List.sum_cons, Nat.add_assoc] at h
    have hfirst := apply_kept hexact accepted op (hm op List.mem_cons_self)
      (hQ (s, op) List.mem_cons_self) h
    have hrest := ih (fun op hop => hm op (List.mem_cons_of_mem _ hop))
      (fun n hn => hQ n (List.mem_cons_of_mem _ hn)) hfirst
    rw [Nat.add_assoc] at hrest
    exact ⟨hrest.1, List.forall_mem_cons.mpr ⟨⟨_, _, hfirst⟩, hrest.2⟩⟩

/-- Whatever a run evicted, deleted or rebuilt, after its last call a node at depth `d + 1` needs
`(1 / alpha) ^ d` points to have come. -/
theorem stream_depth (hexact : env.counter = .exact) (hB : 2 * cfg.leafBucketSize ≤ 65535)
    (hs : create cfg = .ok s) (hn : s.NoWrap) (ops : List (Op Dim K))
    (hrun : ∀ n ∈ calls env s ops, (n.1.apply env n.2).1.NoWrap) {d j : ℕ}
    (hj : (run env s ops).pools.Below (run env s ops).root (d + 1) j) :
    (1 / cfg.alpha) ^ d ≤ ((ops.map Op.arrivals).sum : ℕ) := by
  have fresh := create_fresh hs
  obtain ⟨m, hm⟩ : ∃ m, ∀ op ∈ ops, op.arrivals ≤ m :=
    ⟨(ops.map Op.arrivals).sum, fun op hop => List.le_sum_of_mem (List.mem_map_of_mem hop)⟩
  have hstart : Kept cfg (fun _ _ => True) (ops.map Op.arrivals).sum 0 0
      ((ops.map Op.arrivals).sum + 0) s :=
    ⟨⟨none, fresh.sound hB hn, trivial⟩, fresh.config, (create_unused fresh.points).1.le, by omega,
      trivial⟩
  obtain ⟨hend, -⟩ := calls_kept hexact fresh.accepted ops hm
    (fun n hn o ho _ _ _ _ _ _ => ⟨steps_noWrap (hrun n hn) o ho, trivial⟩) hstart
  obtain ⟨o, hsound, hsettled⟩ := hend.settled
  have hdepth := hsettled.pow_depth_le fresh.accepted hsound hj
  rwa [pow_zero, one_mul, Nat.zero_add] at hdepth

theorem stream_depth_plane :
    (1 / (plane 2 (1 / 2)).alpha) ^ 4 ≤
      ((([.insert streamed] : List (Op 2 ℚ)).map Op.arrivals).sum : ℕ) := by
  have hcheck : (calls exactEnv (start (plane 2 (1 / 2))) [.insert streamed]).all
      (fun n => (n.1.apply exactEnv n.2).1.fits) = true := by
    decide +kernel
  rw [List.all_eq_true] at hcheck
  have h0 : (streamedRun.pools.node streamedRun.root).body = .internal 0 8 2 3 := by decide +kernel
  have h3 : (streamedRun.pools.node 3).body = .internal 0 12 5 6 := by decide +kernel
  have h6 : (streamedRun.pools.node 6).body = .internal 0 14 8 9 := by decide +kernel
  have h9 : (streamedRun.pools.node 9).body = .internal 0 15 11 12 := by decide +kernel
  have h12 : (streamedRun.pools.node 12).body = .internal 0 16 14 15 := by decide +kernel
  exact stream_depth rfl (by decide) (create_start (plane_accepted (by decide) (by norm_num)))
    (noWrap_of_fits (by decide +kernel)) [.insert streamed]
    (fun n hn => noWrap_of_fits (hcheck n hn))
    (.right h0 (.right h3 (.right h6 (.right h9 (.left h12 (.refl 14))))))

/-- A run wraps no stamp and no index of the pools if it brings few enough points, and its pools
come from a number of leaves in proportion to these and the depth they allow. -/
theorem few_points_fit (hexact : env.counter = .exact) (hB : 2 * cfg.leafBucketSize ≤ 65535)
    (hhalf : ((leastHalf cfg + 1 : ℕ) : K) ≤ cfg.alpha * ((2 * leastHalf cfg + 1 : ℕ) : K))
    (hcap : cfg.capacity < 2 ^ 32) (hs : create cfg = .ok s) (ops : List (Op Dim K))
    (hbatch : ∀ op ∈ ops, op.arrivals ≤ m)
    (hH : (1 / cfg.alpha) ^ m * ((ops.map Op.arrivals).sum : ℕ) < (1 / cfg.alpha) ^ H)
    (hfew : ((2 * cfg.leafBucketSize : ℕ) : K) * ((2 * ((H : K) + 1) + rebuildRate cfg) *
      ((ops.map Op.arrivals).sum : ℕ)) < rebuildRate cfg * ((2 ^ 32 : ℕ) : K)) :
    (∀ n ∈ calls env s ops, (n.1.apply env n.2).1.NoWrap) ∧
      ∃ n : ℕ, (run env s ops).pools.nodes.length ≤ 2 * n ∧
        (run env s ops).pools.leafBBoxes.length ≤ n ∧
        (run env s ops).pools.leafBuckets.data.length ≤ 2 * cfg.leafBucketSize * n ∧
        rebuildRate cfg * (n : K) ≤
          (2 * ((H : K) + 1) + rebuildRate cfg) * ((ops.map Op.arrivals).sum : ℕ) := by
  have fresh := create_fresh hs
  obtain ⟨hr, hc⟩ := rebuildRate_spec env fresh.accepted hhalf
  obtain ⟨N, hN⟩ : ∃ N, N = (ops.map Op.arrivals).sum := ⟨_, rfl⟩
  rw [← hN] at hH hfew ⊢
  have hfit : 2 * N < 2 ^ 32 ∧ ∀ n : ℕ, _ → (Pools.clear : Pools Dim K).Allows _ n :=
    few_fit hr fresh.accepted.leafBucketSize hfew
  have hsolvent : Solvent cfg (rebuildRate cfg) H N 0 0 (N + 0) s none :=
    fresh.solvent hB hcap N
  have hstart : Kept cfg (CanPay cfg (rebuildRate cfg) H N) N 0 0
      ((ops.map Op.arrivals).sum + 0) s := by
    rw [← hN]
    exact ⟨⟨none, hsolvent.audited.sound, trivial⟩, fresh.config, hsolvent.size,
      (Nat.zero_add _).le, ⟨_, _, _, hsolvent⟩⟩
  have hQ : ∀ u ∈ calls env s ops,
      Affords env cfg (CanPay cfg (rebuildRate cfg) H N) N m u.1 u.2 := by
    intro u _ v _ k i x hk ready hkept
    obtain ⟨o, hsound, hsettled⟩ := hkept.settled
    obtain ⟨o', n, j, hsolv⟩ := hkept.budget
    have hlevels : (1 / cfg.alpha) ^ k * (i : K) < (1 / cfg.alpha) ^ H := by
      obtain ⟨-, hratio, -⟩ := ratio_bounds fresh.accepted.alpha
      have hi : (i : K) ≤ (N : K) := by
        have hleft := hkept.left
        exact_mod_cast (by omega : i ≤ N)
      refine lt_of_le_of_lt ?_ hH
      gcongr
      exact hratio.le
    obtain ⟨hn, o'', n', hnext⟩ := hsolv.spends hexact hr hc hfit.1 hfit.2 ready
      (hsettled.depthWithin fresh.accepted hsound hlevels)
    exact ⟨hn, o'', n', _, hnext⟩
  obtain ⟨hend, hall⟩ := calls_kept hexact fresh.accepted ops hbatch hQ hstart
  obtain ⟨o, n, i, hend⟩ := hend.budget
  refine ⟨fun u hu => ?_, n, hend.pools hr.nonneg⟩
  obtain ⟨j, y, hkept⟩ := hall u hu
  obtain ⟨o, hsound, -⟩ := hkept.settled
  exact hsound.noWrap

end

theorem few_points_fit_plane :
    (∀ n ∈ calls exactEnv (start (plane 4 (1 / 4))) croppedCalls,
      (n.1.apply exactEnv n.2).1.NoWrap) ∧
      ∃ n : ℕ,
        (run exactEnv (start (plane 4 (1 / 4))) croppedCalls).pools.nodes.length ≤ 2 * n ∧
        (run exactEnv (start (plane 4 (1 / 4))) croppedCalls).pools.leafBBoxes.length ≤ n ∧
        (run exactEnv (start (plane 4 (1 / 4))) croppedCalls).pools.leafBuckets.data.length ≤
          2 * (plane 4 (1 / 4)).leafBucketSize * n ∧
        rebuildRate (plane 4 (1 / 4)) * (n : ℚ) ≤
          (2 * (((9 : ℕ) : ℚ) + 1) + rebuildRate (plane 4 (1 / 4))) *
            ((croppedCalls.map Op.arrivals).sum : ℕ) := by
  have hbatch : croppedCalls.all (fun op => decide (op.arrivals ≤ 4)) = true := by decide
  rw [List.all_eq_true] at hbatch
  exact few_points_fit rfl (by decide) (by decide +kernel) (by decide)
    (create_start (plane_accepted (by decide) (by norm_num))) croppedCalls
    (fun op hop => of_decide_eq_true (hbatch op hop)) (by decide +kernel) (by decide +kernel)

end KDTreeImpl
end Copse

import Copse.PoolGrowth
import Copse.KDTreeReachable

set_option autoImplicit false

namespace Copse
open Pools TreeBuilder PointStore

theorem SearchKernel.exists_of_anyWithinDescend {Dim : ℕ} {K : Type*} [Field K] [LinearOrder K]
    {p : Pools Dim K} {points : PointStore Dim K} {query : Point Dim K} {sqRadius : K} {fuel i : ℕ}
    (h : anyWithinDescend p points query sqRadius fuel i = true) :
    ∃ j, (points.point j).sqDist query < sqRadius := by
  induction fuel generalizing i with
  | zero => cases h
  | succ fuel ih =>
    unfold anyWithinDescend at h
    split_ifs at h
    split at h
    · obtain ⟨e, -, he⟩ := List.any_eq_true.mp h
      exact ⟨e.index, of_decide_eq_true he⟩
    · dsimp only at h
      split_ifs at h
      · exact ih ‹_›
      · exact ih ‹_›
      · exact ih ‹_›
      · exact ih ‹_›

def Pools.Within {Dim : ℕ} {K : Type*} (bound : ℕ) (p : Pools Dim K) : Prop :=
  p.nodes.length ≤ bound ∧ p.leafBBoxes.length ≤ bound ∧ p.leafBuckets.data.length ≤ bound

namespace KDTreeImpl
variable {Dim : ℕ} [NeZero Dim] {K : Type*} [Field K] [LinearOrder K]

/-- A tree that stands at the first node of a well-formed pool. -/
structure Growing (s : KDTreeImpl Dim K) : Prop where
  root : s.root = 0
  some : 0 < s.pools.nodes.length
  formed : s.pools.Formed

section
variable {env : Env K} {cfg : Config K} {s : KDTreeImpl Dim K}

theorem insert_one {x : Point Dim K} (hx : s.accepts x = true) :
    (s.insert env [x]).1 = (s.acceptPoint env x).maybePartialRebuildFull env := by
  simp [insert, insertLoop, insertPoint, hx]

omit [NeZero Dim] in
theorem accepts_vacant (hroot : s.root = invalid) (x : Point Dim K) : s.accepts x = true := by
  simp [accepts, hroot]

variable [IsStrictOrderedRing K]

theorem exists_accepted (s : KDTreeImpl Dim K) : ∃ x, s.accepts x = true := by
  -- a point beyond all others on the first axis
  obtain ⟨far, hfar⟩ := Finset.exists_le (0 :: s.points.points.map (fun p => p 0)).toFinset
  have hle : ∀ j, s.points.point j 0 ≤ far := by
    intro j
    rw [PointStore.point, List.getD_eq_getElem?_getD]
    cases hj : s.points.points[j]? with
    | none => exact hfar 0 (List.mem_toFinset.mpr List.mem_cons_self)
    | some p =>
      refine hfar _ (List.mem_toFinset.mpr (List.mem_cons_of_mem _ ?_))
      exact List.mem_map_of_mem (List.mem_of_getElem? hj)
  refine ⟨fun _ => far + |s.cfg.resolution|, ?_⟩
  rw [accepts, Bool.not_eq_true', ← Bool.not_eq_true, Bool.and_eq_true, not_and]
  intro _ hany
  rw [SearchKernel.anyWithin] at hany
  split_ifs at hany
  obtain ⟨j, hj⟩ := SearchKernel.exists_of_anyWithinDescend hany
  refine absurd hj (not_lt.mpr ?_)
  have hdiff : |s.cfg.resolution| ≤ far + |s.cfg.resolution| - s.points.point j 0 := by
    have hj := hle j
    linarith
  calc s.sqResolution = |s.cfg.resolution| * |s.cfg.resolution| := (abs_mul_abs_self _).symm
    _ ≤ (far + |s.cfg.resolution| - s.points.point j 0) *
        (far + |s.cfg.resolution| - s.points.point j 0) := mul_self_le_mul_self (abs_nonneg _) hdiff
    _ = (s.points.point j 0 - (far + |s.cfg.resolution|)) *
        (s.points.point j 0 - (far + |s.cfg.resolution|)) := by ring
    _ ≤ (s.points.point j).sqDist (fun _ => far + |s.cfg.resolution|) :=
      Finset.single_le_sum
        (f := fun i => (s.points.point j i - (far + |s.cfg.resolution|)) *
          (s.points.point j i - (far + |s.cfg.resolution|)))
        (fun i _ => mul_self_nonneg _) (Finset.mem_univ 0)

omit [IsStrictOrderedRing K] in
theorem sweepFull_growing (env : Env K) (h : Growing s) :
    ((s.maybePartialRebuildFull env).pools = s.pools ∨
      s.pools.nodes.length < (s.maybePartialRebuildFull env).pools.nodes.length) ∧
    ((s.maybePartialRebuildFull env).pools.nodes.length ≤ 2 ^ 32 →
      Growing (s.maybePartialRebuildFull env)) := by
  have heq : s.maybePartialRebuildFull env =
      { s with
        modifiedNodes := []
        pools := (s.builder env).sweepFull s.points s.pools.nodes.length s.pools 0 } := by
    simp only [maybePartialRebuildFull, h.root, show ¬ 0 = invalid by decide, ↓reduceIte]
    rfl
  rw [heq]
  refine ⟨sweep_same_or_grows _ _ _ _, fun hle => ⟨h.root, ?_, sweep_formed _ _ h.formed h.some hle⟩⟩
  exact h.some.trans_le (sweep_grown _ _ _).nodes

omit [IsStrictOrderedRing K] in
theorem acceptPoint_growing (env : Env K) (h : Growing s) (x : Point Dim K) :
    (s.pools.nodes.length < (s.acceptPoint env x).pools.nodes.length ∨
      (s.acceptPoint env x).pools.nodes.length = s.pools.nodes.length ∧
        (s.acceptPoint env x).pools.room + 1 = s.pools.room) ∧
    ((s.acceptPoint env x).pools.nodes.length ≤ 2 ^ 32 → Growing (s.acceptPoint env x)) := by
  have heq : s.acceptPoint env x = { s with points := (s.points.acquire x).1 }.insertIndex env
      (s.points.acquire x).2 := by
    simp only [acceptPoint, h.root, show ¬ 0 = invalid by decide, ↓reduceIte]
  rw [heq, insertIndex, h.root]
  obtain ⟨hgrow, hf⟩ := TreeBuilder.insertIndex_room (s.builder env) (s.points.acquire x).1
    (s.points.acquire x).2 s.pools.nodes.length h.formed h.some (by omega)
  refine ⟨hgrow, fun hle => ⟨rfl, ?_, hf hle⟩⟩
  exact h.some.trans_le (insertIndex_grown _ _ _).nodes

theorem Growing.insert (env : Env K) (h : Growing s) (hlen : s.pools.nodes.length ≤ 2 ^ 32) :
    ∃ x, (s.pools.nodes.length < (s.insert env [x]).1.pools.nodes.length ∨
      (s.insert env [x]).1.pools.nodes.length = s.pools.nodes.length ∧
        (s.insert env [x]).1.pools.room + 1 = s.pools.room) ∧
      ((s.insert env [x]).1.pools.nodes.length ≤ 2 ^ 32 → Growing (s.insert env [x]).1) := by
  obtain ⟨x, hx⟩ := exists_accepted s
  refine ⟨x, ?_⟩
  rw [insert_one hx]
  obtain ⟨haccept, hf⟩ := acceptPoint_growing env h x
  have hgrown : (s.acceptPoint env x).pools.nodes.length ≤
      ((s.acceptPoint env x).maybePartialRebuildFull env).pools.nodes.length :=
    (sweepFull_later _).pools.nodes
  by_cases hle : (s.acceptPoint env x).pools.nodes.length ≤ 2 ^ 32
  · obtain ⟨hsweep, hf'⟩ := sweepFull_growing env (hf hle)
    refine ⟨?_, hf'⟩
    rcases haccept with haccept | haccept
    · exact Or.inl (haccept.trans_le hgrown)
    · rcases hsweep with hsweep | hsweep
      · rw [hsweep]
        exact Or.inr haccept
      · exact Or.inl (haccept.1 ▸ hsweep)
  · rcases haccept with haccept | haccept
    · exact ⟨Or.inl (haccept.trans_le hgrown), fun hle' => absurd (hgrown.trans hle') hle⟩
    · exact absurd (haccept.1.trans_le hlen) hle

theorem run_cons (op : Op Dim K) (ops : List (Op Dim K)) :
    run env s (op :: ops) = run env (s.apply env op).1 ops := rfl

/-- As long as no index has wrapped there is an insertion left that uses up the room or the
indices, so some stream of insertions uses up both. -/
theorem exists_outgrown (env : Env K) (indices room : ℕ) (s : KDTreeImpl Dim K)
    (hindices : 2 ^ 32 < s.pools.nodes.length + indices) (hroom : s.pools.room ≤ room)
    (h : s.pools.nodes.length ≤ 2 ^ 32 → Growing s) :
    ∃ xs : List (Point Dim K),
      2 ^ 32 < (run env s (xs.map (fun x => .insert [x]))).pools.nodes.length := by
  induction indices generalizing room s with
  | zero => exact ⟨[], hindices⟩
  | succ indices ih =>
    induction room generalizing s with
    | zero =>
      by_cases hlen : s.pools.nodes.length ≤ 2 ^ 32
      · obtain ⟨x, hgrow, hnext⟩ := (h hlen).insert env hlen
        obtain ⟨xs, hxs⟩ := ih _ (s.insert env [x]).1 (by omega) le_rfl hnext
        exact ⟨x :: xs, hxs⟩
      · exact ⟨[], not_le.mp hlen⟩
    | succ room ihroom =>
      by_cases hlen : s.pools.nodes.length ≤ 2 ^ 32
      · obtain ⟨x, hgrow | ⟨hsame, hroom'⟩, hnext⟩ := (h hlen).insert env hlen
        · obtain ⟨xs, hxs⟩ := ih _ (s.insert env [x]).1 (by omega) le_rfl hnext
          exact ⟨x :: xs, hxs⟩
        · obtain ⟨xs, hxs⟩ := ihroom (s.insert env [x]).1 (by omega) (by omega) hnext
          exact ⟨x :: xs, hxs⟩
      · exact ⟨[], not_le.mp hlen⟩

omit [NeZero Dim] [Field K] [LinearOrder K] [IsStrictOrderedRing K] in
theorem clear_formed : (Pools.clear : Pools Dim K).Formed :=
  fun _ => ⟨by decide, by decide⟩

omit [IsStrictOrderedRing K] in
theorem Fresh.acceptPoint_growing (env : Env K) (h : Fresh cfg s) (x : Point Dim K)
    (hle : (s.acceptPoint env x).pools.nodes.length ≤ 2 ^ 32) : Growing (s.acceptPoint env x) := by
  let built := buildRecursive env (s.points.acquire x).1 s.cfg.leafBucketSize 1 Pools.clear
    [(s.points.acquire x).2]
  have heq : s.acceptPoint env x =
      { s with
        points := (s.points.acquire x).1
        modifiedNodes := []
        pools := built.1
        root := built.2
        rootBBox := bboxOf (s.points.acquire x).1 [(s.points.acquire x).2] } := by
    simp only [acceptPoint, rebuild, h.root, h.pools, ↓reduceIte]
    rfl
  rw [heq] at hle ⊢
  obtain ⟨hformed, hroot⟩ := buildRecursive_formed _ _ _ clear_formed hle
  exact ⟨hroot, (Nat.zero_le _).trans_lt (buildRecursive_grows _ Pools.clear _), hformed⟩

theorem Fresh.outgrown (env : Env K) (h : Fresh cfg s) :
    ∃ xs : List (Point Dim K),
      2 ^ 32 < (run env s (xs.map (fun x => .insert [x]))).pools.nodes.length := by
  have hfirst : (s.insert env [0]).1.pools.nodes.length ≤ 2 ^ 32 → Growing (s.insert env [0]).1 := by
    rw [insert_one (accepts_vacant h.root 0)]
    have hgrown : (s.acceptPoint env 0).pools.nodes.length ≤
        ((s.acceptPoint env 0).maybePartialRebuildFull env).pools.nodes.length :=
      (sweepFull_later _).pools.nodes
    intro hle
    exact (sweepFull_growing env (h.acceptPoint_growing env 0 (hgrown.trans hle))).2 hle
  obtain ⟨xs, hxs⟩ := exists_outgrown env (2 ^ 32 + 1) _ (s.insert env [0]).1 (by omega) le_rfl hfirst
  exact ⟨0 :: xs, hxs⟩

/-- Memory stays flat in all runs without `rebuild_all`: one bound holds of the sizes of the
pools, and the indices taken from them fit in 32 bits. -/
def MemoryFlat (env : Env K) (s : KDTreeImpl Dim K) : Prop :=
  (∃ bound, ∀ ops : List (Op Dim K), (∀ op ∈ ops, op ≠ .rebuildAll) →
    (run env s ops).pools.Within bound) ∧
  ∀ ops : List (Op Dim K), (∀ op ∈ ops, op ≠ .rebuildAll) → (run env s ops).pools.Within (2 ^ 32)

/-- Under no configuration is there a bound that also keeps the indices from wrapping: some stream
takes the nodes past `2 ^ 32`. -/
theorem memory_not_flat (env : Env K) (h : create cfg = .ok s) : ¬ MemoryFlat env s := by
  rintro ⟨-, hfit⟩
  obtain ⟨xs, hxs⟩ := (create_fresh h).outgrown env
  refine absurd (hfit (xs.map (fun x => .insert [x])) ?_).1 (not_le.mpr hxs)
  intro op hop heq
  obtain ⟨x, -, rfl⟩ := List.mem_map.mp hop
  cases heq

theorem memory_not_flat_plane : ¬ MemoryFlat wordEnv (start (plane 3 (1 / 4)) : KDTreeImpl 2 ℚ) :=
  memory_not_flat wordEnv (create_start (plane_accepted (by decide) (by norm_num)))

end

def oneSlot (x : Point 2 ℚ) (g : ℕ) : PointStore 2 ℚ := ⟨1, 1, [x], [true], [g], [0], [0], 0, 0⟩

theorem acquire_oneSlot (x y : Point 2 ℚ) (g : ℕ) :
    (oneSlot x g).acquire y = (oneSlot y (g + 2), 0) := by
  simp [acquire, evict, append, bump, victim, oneSlot, u32]

theorem oneSlot_valid (x : Point 2 ℚ) (g h : ℕ) :
    (oneSlot x g).valid ⟨0, u32 h⟩ = decide (u32 g = u32 h) := by
  rw [Bool.eq_iff_iff, valid_iff, decide_eq_true_eq]
  exact and_iff_left rfl

/-- The entry that the last insertion wrote, in a leaf of its own at the root, after `n` nodes. -/
structure Lone (n g : ℕ) (p : Pools 2 ℚ) : Prop where
  nodes : p.nodes.length = n
  boxes : p.leafBBoxes.length = n
  slots : p.leafBuckets.data.length = 2 * n
  leaf : ∃ offset bboxIdx, (p.node 0).body = .leaf offset 1 2 bboxIdx ∧ offset + 2 ≤ 2 * n ∧
    offset + 1 < 2 ^ 32 ∧ p.leafBuckets.data[offset]? = some ⟨0, u32 g⟩

theorem rebuild_lone {n g : ℕ} {x : Point 2 ℚ} {p : Pools 2 ℚ}
    (hnodes : p.nodes.length = n) (hboxes : p.leafBBoxes.length = n)
    (hslots : p.leafBuckets.data.length = 2 * n)
    (hlive : collectLiveIndicesInSubtree (oneSlot x g) n p 0 = [0]) :
    Lone (n + 1) g (rebuildSubtreeInPlace wordEnv (oneSlot x g) 1 p 0) := by
  have hidx : u32 n < n + 1 := (Nat.mod_le n _).trans_lt (Nat.lt_succ_self n)
  have hoff : u32 (2 * n) ≤ 2 * n := Nat.mod_le _ _
  rw [rebuildSubtreeInPlace, hnodes, hlive, buildRecursive_small _ _ (by simp)]
  dsimp only
  rw [hnodes]
  refine ⟨?_, ?_, ?_, u32 (2 * n), u32 n, ?_, ?_, ?_, ?_⟩
  · simp [buildLeaf, hnodes]
  · simp [buildLeaf, hboxes, Pools.pushNode, Pools.setNode]
  · simp [buildLeaf, hslots, Pools.pushNode, Pools.setNode, LeafBucket.fill_length, LeafBucket.allocate, u16]
    omega
  · rw [Pools.node_setNode_self (by simp [buildLeaf, hnodes])]
    rw [buildLeaf]
    dsimp only
    rw [Pools.node_setNode_self (by simp [Pools.pushNode, hnodes, hidx])]
    simp [LeafBucket.allocate, Pools.pushNode, hslots, hboxes, u16]
  · omega
  · unfold u32
    omega
  · have hdata : u32 (2 * n) < (p.leafBuckets.data ++ ([⟨0, 0⟩, ⟨0, 0⟩] : List BucketEntry)).length := by
      simp [hslots]
      omega
    have hset := List.getElem?_set_self (a := stamp (oneSlot x g) 0) hdata
    simp only [buildLeaf, Pools.setNode, Pools.pushNode, LeafBucket.allocate, hslots]
    exact hset

/-- A tree over one slot whose last insertion, in generation `g`, put `x` alone into the root. -/
structure Alone (n g : ℕ) (x : Point 2 ℚ) (s : KDTreeImpl 2 ℚ) : Prop where
  cfg : s.cfg = plane 1 (1 / 4)
  root : s.root = 0
  points : s.points = oneSlot x g
  lone : Lone n g s.pools

theorem Alone.accepts {n g : ℕ} {x y : Point 2 ℚ} {s : KDTreeImpl 2 ℚ} (h : Alone n g x s)
    (hx : 1 / 100 ≤ x.sqDist y) (h0 : 1 / 100 ≤ (0 : Point 2 ℚ).sqDist y) : s.accepts y = true := by
  rw [KDTreeImpl.accepts, Bool.not_eq_true', ← Bool.not_eq_true, Bool.and_eq_true, not_and]
  intro _ hany
  rw [SearchKernel.anyWithin] at hany
  split_ifs at hany
  obtain ⟨j, hj⟩ := SearchKernel.exists_of_anyWithinDescend hany
  have hres : s.sqResolution = 1 / 100 := by
    rw [sqResolution, h.cfg]
    norm_num [plane]
  rw [hres, h.points] at hj
  cases j with
  | zero => exact absurd hj (not_lt.mpr hx)
  | succ j => exact absurd hj (not_lt.mpr h0)

theorem Lone.insertIndex {n g : ℕ} {y : Point 2 ℚ} {p : Pools 2 ℚ} {b : TreeBuilder ℚ}
    (hb : b.env = wordEnv) (hB : b.leafBucketSize = 1) (hn : 0 < n) (h : Lone n g p) :
    Lone (n + 1) (g + 2) (b.insertIndex (oneSlot y (g + 2)) 0 n p 0) := by
  obtain ⟨env, B, alpha, threshold⟩ := b
  obtain ⟨rfl, rfl⟩ : env = wordEnv ∧ B = 1 := ⟨hb, hB⟩
  obtain ⟨m, rfl⟩ : ∃ m, n = m + 1 := ⟨n - 1, by omega⟩
  obtain ⟨hnodes, hboxes, hslots, offset, bboxIdx, hbody, hoffset, hfit, hentry⟩ := h
  let q := countNode Counter.word p 0
  have hq : (q.node 0).body = .leaf offset 1 2 bboxIdx := by
    have hnode := Pools.node_setNode_self (p := p) (i := 0)
      (n := ((p.node 0).addTotal Counter.word 1).addLive Counter.word 1) (by omega)
    exact (congrArg TreeNode.body hnode).trans hbody
  have hqnodes : q.nodes.length = m + 1 := by
    simp [q, countNode, Pools.modifyNode, hnodes]
  let r := pushInto (oneSlot y (g + 2)) 0 q 0 offset 1 2 bboxIdx
  have hdata : r.leafBuckets.data = p.leafBuckets.data.set (offset + 1) ⟨0, u32 (g + 2)⟩ := by
    have hnext : u32 (offset + 1) = offset + 1 := Nat.mod_eq_of_lt hfit
    rw [← hnext]
    rfl
  have hlive : collectLiveIndicesInSubtree (oneSlot y (g + 2)) (m + 1) r 0 = [0] := by
    have hbody' : (r.node 0).body = .leaf offset 2 2 bboxIdx := by
      refine congrArg TreeNode.body (Pools.node_setNode_self (p := { q with
        leafBuckets := _, leafBBoxes := _ }) ?_)
      exact hqnodes ▸ hn
    have hview : r.view offset 2 = [⟨0, u32 g⟩, ⟨0, u32 (g + 2)⟩] := by
      obtain ⟨_, hentry⟩ := List.getElem?_eq_some_iff.mp hentry
      rw [Pools.view, LeafBucket.view, hdata,
        List.drop_eq_getElem_cons (by rw [List.length_set]; omega),
        List.drop_eq_getElem_cons (by rw [List.length_set]; omega)]
      simp [hentry]
    have hne : ¬ u32 (g + 2) = u32 g := by
      unfold u32
      omega
    rw [collectLiveIndicesInSubtree, hbody']
    dsimp only
    rw [hview]
    simp [oneSlot_valid, hne]
  rw [insertIndex_at_leaf hq]
  dsimp only
  rw [if_pos (by rfl), rebuildAt]
  refine rebuild_lone (x := y) ?_ ?_ ?_ hlive
  · exact (length_setNode _ _ _).trans hqnodes
  · exact List.length_set.trans hboxes
  · exact (congrArg List.length hdata).trans (List.length_set.trans hslots)

theorem Alone.insert {n g : ℕ} {x y : Point 2 ℚ} {s : KDTreeImpl 2 ℚ} (hn : 0 < n)
    (h : Alone n g x s) (hx : 1 / 100 ≤ x.sqDist y) (h0 : 1 / 100 ≤ (0 : Point 2 ℚ).sqDist y) :
    Alone (n + 1) (g + 2) y (s.insert wordEnv [y]).1 := by
  have haccepts := h.accepts hx h0
  obtain ⟨cfg, points, p, rootBBox, root, modified⟩ := s
  obtain ⟨rfl, rfl, rfl, hlone⟩ := h
  let b : TreeBuilder ℚ := ⟨wordEnv, 1, 7 / 10, 1 / 4⟩
  have hgrown := Lone.insertIndex (y := y) (b := b) rfl rfl hn hlone
  have hacc : acceptPoint wordEnv ⟨plane 1 (1 / 4), oneSlot x g, p, rootBBox, 0, modified⟩ y =
      ⟨plane 1 (1 / 4), oneSlot y (g + 2), b.insertIndex (oneSlot y (g + 2)) 0 n p 0,
        rootBBox.expand y, 0, modified⟩ := by
    simp only [acceptPoint, acquire_oneSlot, KDTreeImpl.insertIndex, hlone.nodes,
      show ¬ 0 = invalid by decide, ↓reduceIte]
    rfl
  rw [insert_one haccepts, hacc]
  have hlen : (b.insertIndex (oneSlot y (g + 2)) 0 n p 0).nodes.length = n + 1 := hgrown.nodes
  have hsweep : b.sweepFull (oneSlot y (g + 2)) (n + 1)
      (b.insertIndex (oneSlot y (g + 2)) 0 n p 0) 0 = b.insertIndex (oneSlot y (g + 2)) 0 n p 0 := by
    obtain ⟨offset, bboxIdx, hbody, -⟩ := hgrown.leaf
    rw [sweepFull, sweep_leaf n (by decide) hbody, if_neg (by decide)]
  refine ⟨rfl, rfl, rfl, ?_⟩
  rw [← hsweep] at hgrown
  simp only [maybePartialRebuildFull, show ¬ 0 = invalid by decide, ↓reduceIte, hlen]
  exact hgrown

def onAxis (n : ℕ) : Point 2 ℚ := fun i => if i = 0 then n else 0

theorem onAxis_apart {n m : ℕ} (h : n < m) : 1 / 100 ≤ (onAxis n).sqDist (onAxis m) := by
  have hcast : (n : ℚ) + 1 ≤ m := by exact_mod_cast h
  have hdist : (onAxis n).sqDist (onAxis m) = (m - n) * (m - n) := by
    simp [Point.sqDist, onAxis, Fin.sum_univ_two]
    ring
  rw [hdist]
  nlinarith

theorem Alone.stream {n g : ℕ} {s : KDTreeImpl 2 ℚ} (k : ℕ) (hn : 0 < n)
    (h : Alone n g (onAxis n) s) :
    ∃ ops : List (Op 2 ℚ), (∀ op ∈ ops, op ≠ .rebuildAll) ∧
      (run wordEnv s ops).pools.nodes.length = n + k := by
  induction k generalizing n g s with
  | zero => exact ⟨[], by simp, h.lone.nodes⟩
  | succ k ih =>
    have hzero : (0 : Point 2 ℚ) = onAxis 0 := by
      funext i
      simp [onAxis]
    have hnext := h.insert hn (onAxis_apart (Nat.lt_succ_self n)) (hzero ▸ onAxis_apart n.succ_pos)
    obtain ⟨ops, hops, hlen⟩ := ih n.succ_pos hnext
    refine ⟨.insert [onAxis (n + 1)] :: ops, ?_, ?_⟩
    · refine List.forall_mem_cons.mpr ⟨?_, hops⟩
      intro heq
      cases heq
    · rw [run_cons]
      exact hlen.trans (by omega)

theorem first_alone : Alone 1 1 (onAxis 1)
    ((start (plane 1 (1 / 4)) : KDTreeImpl 2 ℚ).insert wordEnv [onAxis 1]).1 :=
  ⟨rfl, rfl, rfl, rfl, rfl, rfl, 0, 0, rfl, by decide, by decide, rfl⟩

theorem memory_unbounded_plane : ¬ ∃ bound, ∀ ops : List (Op 2 ℚ), (∀ op ∈ ops, op ≠ .rebuildAll) →
    (run wordEnv (start (plane 1 (1 / 4))) ops).pools.Within bound := by
  rintro ⟨bound, hbound⟩
  obtain ⟨ops, hops, hlen⟩ := first_alone.stream bound Nat.one_pos
  have hwithin := hbound (.insert [onAxis 1] :: ops) (List.forall_mem_cons.mpr ⟨?_, hops⟩)
  · have hle := hlen.symm.trans_le hwithin.1
    omega
  · intro heq
    cases heq

end KDTreeImpl
end Copse

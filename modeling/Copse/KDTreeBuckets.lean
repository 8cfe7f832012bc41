import Copse.BucketAccesses
import Copse.KDTreePools
import Copse.KDTreeGrowth

set_option autoImplicit false

namespace Copse
open PointStore TreeBuilder TransitionRuns

namespace TreeBuilder
variable {Dim : ℕ} {K : Type*} [Field K] [LinearOrder K]

omit [LinearOrder K] in
theorem releaseSubtree_buckets (c : Counter) (fuel : ℕ) (p : Pools Dim K)
    (points : PointStore Dim K) (i : ℕ) :
    (releaseSubtree c fuel p points i).pools.leafBuckets = p.leafBuckets := by
  induction fuel generalizing p points i with
  | zero => rfl
  | succ fuel ih =>
    simp only [releaseSubtree]
    split
    · rfl
    · exact (ih _ _ _).trans (ih _ _ _)

theorem deleteRecurse_buckets (c : Counter) (rg : Region Dim K) (fuel : ℕ) (p : Pools Dim K)
    (points : PointStore Dim K) (i : ℕ) (partition : BBox Dim K) (modified : List ℕ) :
    (deleteRecurse c rg fuel p points i partition modified).pools.leafBuckets =
      p.leafBuckets := by
  induction fuel generalizing p points i partition modified with
  | zero => rfl
  | succ fuel ih =>
    rw [deleteRecurse]
    split_ifs
    · rfl
    · exact releaseSubtree_buckets c _ p points i
    dsimp only
    split
    · split_ifs
      · rfl
      · exact releaseSubtree_buckets c _ p points i
      · rfl
    · exact (ih _ _ _ _ _).trans (ih _ _ _ _ _)

omit [Field K] in
theorem tombstoneIndex_buckets (c : Counter) (x : Point Dim K) (fuel : ℕ) (p : Pools Dim K)
    (i : ℕ) (modified : List ℕ) :
    (tombstoneIndex c x fuel p i modified).1.leafBuckets = p.leafBuckets := by
  induction fuel generalizing p i modified with
  | zero => rfl
  | succ fuel ih =>
    rw [tombstoneIndex]
    split
    · rfl
    · exact ih _ _ _

end TreeBuilder

namespace KDTreeImpl
variable {Dim : ℕ} [NeZero Dim] {K : Type*} [Field K] [LinearOrder K]

def accesses (env : Env K) (s : KDTreeImpl Dim K) : Action Dim K → List BucketAccess
  | .insertPoint x =>
    if s.accepts x then
      let (points, index) := s.points.acquire x
      if s.root = invalid then
        buildAccesses env points s.cfg.leafBucketSize [index].length s.pools [index]
      else (s.builder env).insertAccesses points index s.pools.nodes.length s.pools s.root
    else []
  | .sweepFull =>
    if s.root = invalid then []
    else (s.builder env).sweepAccesses s.points (fun _ => true) s.pools.nodes.length s.pools s.root
  | .sweep =>
    if s.root = invalid ∨ s.modifiedNodes = [] then []
    else (s.builder env).sweepAccesses s.points s.visits s.pools.nodes.length s.pools s.root
  | .rebuildAll =>
    let liveIndices := s.points.forEachLive.map Prod.fst
    if liveIndices = [] then []
    else
      buildAccesses env s.points s.cfg.leafBucketSize liveIndices.length Pools.clear liveIndices
  | .removeIndex _ | .deleteRegion _ => []

section
variable {env : Env K} {cfg : Config K} {s : KDTreeImpl Dim K}

theorem rebuild_pools (env : Env K) (s : KDTreeImpl Dim K) {indices : List ℕ} (h : indices ≠ []) :
    (s.rebuild env indices).pools =
      (buildRecursive env s.points s.cfg.leafBucketSize indices.length s.pools indices).1 := by
  simp only [rebuild, h, ↓reduceIte]

theorem act_wrote (env : Env K) (s : KDTreeImpl Dim K) {a : Action Dim K} (ha : a ≠ .rebuildAll) :
    s.pools.Wrote (s.accesses env a) (s.act env a).pools := by
  cases a with
  | insertPoint x =>
    cases hx : s.accepts x with
    | false =>
      rw [act_rejected env hx]
      exact .of_eq rfl
    | true =>
      rw [act_inserts env hx]
      simp only [accesses, hx, acceptPoint, ↓reduceIte]
      split_ifs with hroot
      · rw [rebuild_pools env _ (List.cons_ne_nil _ _)]
        exact buildRecursive_wrote _ s.pools _
      · exact insertIndex_wrote _ _ s.pools s.root
  | removeIndex i => exact .of_eq (tombstoneIndex_buckets _ _ _ _ _ _)
  | deleteRegion rg =>
    simp only [act, deleteRegion]
    split_ifs
    · exact .of_eq rfl
    · exact .of_eq (deleteRecurse_buckets _ _ _ _ _ _ _ _)
  | sweepFull =>
    simp only [act, accesses, maybePartialRebuildFull]
    split_ifs
    · exact .of_eq rfl
    · exact sweep_wrote _ s.pools s.root
  | sweep =>
    simp only [act, accesses]
    split_ifs with h
    · simp only [maybePartialRebuild, h, ↓reduceIte]
      exact .of_eq rfl
    · rw [not_or] at h
      rw [sweep_eq env h.1 h.2]
      exact sweep_wrote _ s.pools s.root
  | rebuildAll => exact absurd rfl ha

theorem rebuildAll_wrote (env : Env K) (s : KDTreeImpl Dim K) :
    (Pools.clear : Pools Dim K).Wrote (s.accesses env .rebuildAll) (s.rebuildAll env).pools := by
  simp only [accesses, rebuildAll]
  split_ifs with h
  · exact .of_eq rfl
  · rw [rebuild_pools env _ h]
    exact buildRecursive_wrote _ Pools.clear _

theorem accesses_inSlice (env : Env K) (a : Action Dim K)
    (hB : 2 * s.cfg.leafBucketSize ≤ 65535) (h : Shaped s) (fit : (s.act env a).pools.Fit) :
    ∀ m ∈ s.accesses env a, m.InSlice s.cfg.leafBucketSize := by
  cases a with
  | insertPoint x =>
    cases hx : s.accepts x with
    | false => simp [accesses, hx]
    | true =>
      rw [act_inserts env hx] at fit
      simp only [accesses, hx, acceptPoint, ↓reduceIte] at fit ⊢
      split_ifs at fit ⊢ with hroot
      · rw [rebuild_pools env _ (List.cons_ne_nil _ _)] at fit
        exact buildAccesses_inSlice hB _ _ _ fit
      · obtain ⟨t, ht⟩ := h.resolve_left hroot
        simp only [insertIndex, ← ht.root] at fit ⊢
        exact insertAccesses_inSlice (b := s.builder env) hB ht.rep ht.shape fit
  | removeIndex i => exact List.forall_mem_nil _
  | deleteRegion rg => exact List.forall_mem_nil _
  | sweepFull =>
    simp only [act, accesses, maybePartialRebuildFull] at fit ⊢
    split_ifs at fit ⊢
    · exact List.forall_mem_nil _
    · exact sweepAccesses_inSlice (b := s.builder env) hB fit
  | sweep =>
    simp only [act, accesses] at fit ⊢
    split_ifs with h
    · exact List.forall_mem_nil _
    · rw [not_or] at h
      rw [sweep_eq env h.1 h.2] at fit
      exact sweepAccesses_inSlice (b := s.builder env) hB fit
  | rebuildAll =>
    simp only [act, accesses, rebuildAll] at fit ⊢
    split_ifs at fit ⊢ with h
    · exact List.forall_mem_nil _
    · rw [rebuild_pools env _ h] at fit
      exact buildAccesses_inSlice hB _ _ _ fit

theorem sweep_first (b : TreeBuilder K) (points : PointStore Dim K) (i : ℕ)
    (hpos : 0 < b.leafBucketSize) (visit : ℕ → Bool) (fuel : ℕ) :
    let p := buildLeaf b.env.counter points b.leafBucketSize (Pools.clear : Pools Dim K).pushNode 0 [i]
    b.sweep points visit fuel p 0 = p ∧ p.Fit := by
  intro p
  have hbody : (p.node 0).body = .leaf 0 1 (u16 (2 * b.leafBucketSize)) 0 := rfl
  constructor
  · cases fuel with
    | zero => rfl
    | succ fuel => rw [sweep_leaf fuel (by decide) hbody, if_neg (by omega)]
  · have hcap : u16 (2 * b.leafBucketSize) < 2 ^ 16 := Nat.mod_lt _ (by decide)
    have hlen : p.leafBuckets.data.length = u16 (2 * b.leafBucketSize) := by
      simp [p, buildLeaf, Pools.setNode, LeafBucket.fill_length, LeafBucket.allocate, Pools.clear,
        Pools.pushNode]
    have one : 1 < 2 ^ 32 := by decide
    exact ⟨one, by omega, one⟩

theorem insert_first (env : Env K) (x : Point Dim K) (hroot : s.root = invalid)
    (hpools : s.pools = Pools.clear) (hpos : 0 < s.cfg.leafBucketSize) :
    s.accesses env (.insertPoint x) =
        [(Pools.clear : Pools Dim K).leafBuckets.filled (u16 (2 * s.cfg.leafBucketSize)) 1] ∧
      (s.insert env [x]).1.pools.Fit := by
  have haccepts := accepts_vacant hroot x
  have hbuild : buildRecursive env (s.points.acquire x).1 s.cfg.leafBucketSize 1 (Pools.clear : Pools Dim K)
      [(s.points.acquire x).2] =
        (buildLeaf env.counter (s.points.acquire x).1 s.cfg.leafBucketSize
          (Pools.clear : Pools Dim K).pushNode 0 [(s.points.acquire x).2], 0) :=
    buildRecursive_small 1 _ hpos
  constructor
  · simp only [accesses, haccepts, hroot, hpools, ↓reduceIte]
    exact buildAccesses_small 1 Pools.clear hpos
  · obtain ⟨hsweep, fit⟩ := sweep_first (s.builder env) (s.points.acquire x).1
      (s.points.acquire x).2 hpos (fun _ => true) 1
    rw [insert_one haccepts]
    have hacquired : s.acceptPoint env x =
        { s with
          points := (s.points.acquire x).1
          pools := buildLeaf env.counter (s.points.acquire x).1 s.cfg.leafBucketSize
            (Pools.clear : Pools Dim K).pushNode 0 [(s.points.acquire x).2]
          root := 0
          rootBBox := bboxOf (s.points.acquire x).1 [(s.points.acquire x).2]
          modifiedNodes := [] } := by
      simp only [acceptPoint, hroot, ↓reduceIte, rebuild, hpools, List.length_singleton,
        List.cons_ne_nil, hbuild]
    have hzero : 0 ≠ invalid := by decide
    rw [hacquired]
    simp only [maybePartialRebuildFull, hzero, ↓reduceIte]
    rw [← hsweep] at fit
    exact fit

variable [IsStrictOrderedRing K]

/-- Every run whose pool indices fit stays inside its slices exactly when twice the bucket size
fits 16 bits. -/
theorem buckets_inSlice_iff (env : Env K) (hcfg : Accepted cfg) :
    (∀ (s : KDTreeImpl Dim K) (op : Op Dim K), PoolsReachable env cfg s →
      (s.apply env op).1.pools.Fit → ∀ m ∈ s.steps env op, ∀ a ∈ m.1.accesses env m.2,
        a.InSlice cfg.leafBucketSize) ↔ 2 * cfg.leafBucketSize ≤ 65535 := by
  constructor
  · intro h
    by_contra hlarge
    have hstart : PoolsReachable env cfg (start cfg : KDTreeImpl Dim K) :=
      .init (create_start hcfg)
    obtain ⟨haccess, fit⟩ := insert_first env (fun _ => 0) (s := (start cfg : KDTreeImpl Dim K))
      rfl rfl hcfg.leafBucketSize
    have hcap := (h _ (.insert [fun _ => 0]) hstart fit _ List.mem_cons_self _
      (haccess ▸ List.mem_singleton_self _)).capacity
    have hlt : u16 (2 * cfg.leafBucketSize) < 2 ^ 16 := Nat.mod_lt _ (by decide)
    change u16 (2 * cfg.leafBucketSize) = 2 * cfg.leafBucketSize at hcap
    omega
  · intro hB s op h fit m hm
    obtain ⟨hcfg', -, hs⟩ := h.shaped hB
    obtain ⟨hm', hshaped⟩ := (steps_shaped hB hcfg' hs fit).1 m hm
    rw [← hm'] at hB ⊢
    exact accesses_inSlice env m.2 hB hshaped (steps_fit fit m hm)

theorem buckets_inSlice_plane :
    PoolsReachable wordEnv (plane 3 (1 / 4)) (start (plane 3 (1 / 4)) : KDTreeImpl 2 ℚ) ∧
      ∀ m ∈ (start (plane 3 (1 / 4)) : KDTreeImpl 2 ℚ).steps wordEnv (.insert [![0, 0], ![1, 0]]),
        ∀ a ∈ m.1.accesses wordEnv m.2, a.InSlice 1 := by
  have haccepted : Accepted (plane 3 (1 / 4)) := plane_accepted (by decide) (by norm_num)
  have hstart : PoolsReachable wordEnv (plane 3 (1 / 4))
      (start (plane 3 (1 / 4)) : KDTreeImpl 2 ℚ) := .init (create_start haccepted)
  exact ⟨hstart, (buckets_inSlice_iff wordEnv haccepted).mpr (by decide) _ _ hstart
    (noWrap_of_fits (by decide +kernel)).pools⟩

/-- A bucket size that the constructor takes and whose double is a multiple of `2 ^ 16`. -/
def wide : Config ℚ := { plane 3 (1 / 4) with leafBucketSize := 2 ^ 15 }

/-- The first leaf gets no slice, and its entry is written past the end of the bucket pool. -/
theorem bucket_overrun_plane :
    Accepted wide ∧ PoolsReachable wordEnv wide (start wide : KDTreeImpl 2 ℚ) ∧
      ((start wide : KDTreeImpl 2 ℚ).insert wordEnv [![0, 0]]).1.pools.Fit ∧
      ((start wide : KDTreeImpl 2 ℚ), Action.insertPoint ![0, 0]) ∈
        (start wide : KDTreeImpl 2 ℚ).steps wordEnv (.insert [![0, 0]]) ∧
      (start wide : KDTreeImpl 2 ℚ).accesses wordEnv (.insertPoint ![0, 0]) = [⟨0, 0, [0], 0, true⟩] ∧
      ¬ (⟨0, 0, [0], 0, true⟩ : BucketAccess).InSlice wide.leafBucketSize := by
  have haccepted : Accepted wide :=
    ⟨by decide, by norm_num [wide, plane], by decide, by norm_num [wide, plane],
      by norm_num [wide, plane]⟩
  obtain ⟨haccess, fit⟩ := insert_first wordEnv ![0, 0] (s := (start wide : KDTreeImpl 2 ℚ))
    rfl rfl haccepted.leafBucketSize
  refine ⟨haccepted, .init (create_start haccepted), fit, List.mem_cons_self, haccess, fun h => ?_⟩
  have hslot := h.written 0 (List.mem_singleton_self _)
  exact Nat.lt_irrefl 0 hslot.2

end
end KDTreeImpl
end Copse

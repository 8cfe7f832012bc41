import Copse.RingOutline

set_option autoImplicit false

namespace Copse
open PointStore QueueOutline

namespace KDTreeImpl
variable {Dim : ℕ} [NeZero Dim] {K : Type*} [Field K] [LinearOrder K]

def liveCoordinates (s : KDTreeImpl Dim K) : Multiset (Point Dim K) := s.points.coordinates

/-- Two states with the same live points, whose searches find the same distances. -/
structure SameView (env : Env K) (s u : KDTreeImpl Dim K) : Prop where
  live : s.liveCoordinates = u.liveCoordinates
  search : ∀ query k bound,
    (SearchKernel.search env.std s.pools s.points s.root query k bound).map Neighbor.sqDist =
      (SearchKernel.search env.std u.pools u.points u.root query k bound).map Neighbor.sqDist
  knn : ∀ query k, (s.knnSearch env query k).map Neighbor.sqDist =
    (u.knnSearch env query k).map Neighbor.sqDist
  radius : ∀ query r, (s.radiusSearch env query r).map Neighbor.sqDist =
    (u.radiusSearch env query r).map Neighbor.sqDist
  hybrid : ∀ query k r, (s.hybridSearch env query k r).map Neighbor.sqDist =
    (u.hybridSearch env query k r).map Neighbor.sqDist

omit [NeZero Dim] in
theorem liveDistances_coordinates (points : PointStore Dim K) (query : Point Dim K)
    (bound : WithTop K) : liveDistances points query bound =
      ((points.coordinates.filter (fun x => decide ((x.sqDist query : WithTop K) < bound))).map
        (fun x => x.sqDist query)).insertionSort (· ≤ ·) := by
  rw [liveDistances, coordinates, SearchKernel.within, List.filter_map, List.map_map]
  rfl

omit [Field K] in
theorem insertionSort_congr {l l' : List K} (h : l.Perm l') :
    l.insertionSort (· ≤ ·) = l'.insertionSort (· ≤ ·) := by
  apply List.Perm.eq_of_pairwise' (List.pairwise_insertionSort _ _) (List.pairwise_insertionSort _ _)
  exact ((List.perm_insertionSort _ _).trans h).trans (List.perm_insertionSort _ _).symm

omit [NeZero Dim] in
theorem liveDistances_eq {points points' : PointStore Dim K}
    (h : points.coordinates.Perm points'.coordinates) (query : Point Dim K) (bound : WithTop K) :
    liveDistances points query bound = liveDistances points' query bound := by
  rw [liveDistances_coordinates, liveDistances_coordinates]
  exact insertionSort_congr ((h.filter _).map _)

omit [NeZero Dim] in
theorem Nearest.distances_eq {points points' : PointStore Dim K} {query : Point Dim K} {k : ℕ∞}
    {bound : WithTop K} {result result' : List (Neighbor Dim K)}
    (h : Nearest points query k bound result) (h' : Nearest points' query k bound result')
    (hperm : points.coordinates.Perm points'.coordinates) :
    result.map Neighbor.sqDist = result'.map Neighbor.sqDist := by
  have hcount : ∀ points : PointStore Dim K,
      (SearchKernel.within points query bound points.liveSlots).length =
        (liveDistances points query bound).length := by
    intro points
    rw [liveDistances, List.length_insertionSort, List.length_map]
  have hlength : result.length = result'.length := by
    have hl := h.length
    rw [hcount, liveDistances_eq hperm, ← hcount, ← h'.length] at hl
    exact_mod_cast hl
  rw [h.distances, h'.distances, liveDistances_eq hperm, hlength]

section
variable [IsStrictOrderedRing K]

/-- What a call does to the outline of the ring, and what it returns. It is undefined where an
insertion would evict from an open place. -/
def foresee (cfg : Config K) (q : Outline (Point Dim K)) : Op Dim K →
    Option (Outline (Point Dim K) × ℕ)
  | .insert batch =>
    q.pushEach (fun y x => decide (y.sqDist x < cfg.resolution * cfg.resolution)) cfg.capacity batch
  | op => some (q.clearEach (op.rounds (cfg.resolution * cfg.resolution)))

def foreseeAll (cfg : Config K) : Outline (Point Dim K) → List (Op Dim K) →
    Option (Outline (Point Dim K) × List ℕ)
  | q, [] => some (q, [])
  | q, op :: ops =>
    (foresee cfg q op).bind (fun r => (foreseeAll cfg r.1 ops).map (fun t => (t.1, r.2 :: t.2)))

def counts (env : Env K) : KDTreeImpl Dim K → List (Op Dim K) → List ℕ
  | _, [] => []
  | s, op :: ops => (s.apply env op).2 :: counts env (s.apply env op).1 ops

variable {env : Env K} {cfg : Config K} {s u : KDTreeImpl Dim K} {q q' : Outline (Point Dim K)}
  {ops : List (Op Dim K)} {n : ℕ} {ns : List ℕ}

theorem apply_foreseen {op : Op Dim K} (hB : 2 * cfg.leafBucketSize ≤ 65535)
    (h : Reachable env cfg s) (hq : Outlined q s.points) (hn : (s.apply env op).1.NoWrap)
    (hf : foresee cfg q op = some (q', n)) :
    Outlined q' (s.apply env op).1.points ∧ (s.apply env op).2 = n := by
  obtain ⟨o, hs⟩ := h.sound hB
  obtain ⟨hcfg, -, hcap⟩ := h.config
  have hres : s.sqResolution = cfg.resolution * cfg.resolution := by rw [sqResolution, hcfg]
  have clears : (∀ batch, op ≠ .insert batch) →
      some (q.clearEach (op.rounds (cfg.resolution * cfg.resolution))) = some (q', n) →
      Outlined q' (s.apply env op).1.points ∧ (s.apply env op).2 = n := by
    intro hop heq
    have hrounds := (apply_rounds op hop hs hn).outlined hq
    rw [hres, Option.some.inj heq] at hrounds
    exact hrounds
  cases op with
  | insert batch =>
    have hpush : q.pushEach (fun y x => decide (y.sqDist x < cfg.resolution * cfg.resolution))
        s.points.capacity batch = some (q', n) := by
      rw [hcap]
      exact hf
    have hinsert := hq.storeInsert hpush
    have hpoints := insert_points batch hs hn
    rw [hres] at hpoints
    rw [← hpoints] at hinsert
    exact hinsert
  | remove queries => exact clears (by simp) hf
  | boxDelete boxes => exact clears (by simp) hf
  | radiusCrop center r => exact clears (by simp) hf
  | rebuildAll => exact clears (by simp) hf

omit [NeZero Dim] [IsStrictOrderedRing K] in
theorem foreseeAll_cons {op : Op Dim K} (h : foreseeAll cfg q (op :: ops) = some (q', ns)) :
    ∃ q₁ n ns', foresee cfg q op = some (q₁, n) ∧ foreseeAll cfg q₁ ops = some (q', ns') ∧
      ns = n :: ns' := by
  rw [foreseeAll, Option.bind_eq_some_iff] at h
  obtain ⟨⟨q₁, n⟩, hop, hops⟩ := h
  obtain ⟨⟨q₂, ns'⟩, hrest, heq⟩ := Option.map_eq_some_iff.mp hops
  obtain ⟨rfl, rfl⟩ := Prod.mk.inj heq
  exact ⟨q₁, n, ns', hop, hrest, rfl⟩

theorem run_foreseen (hB : 2 * cfg.leafBucketSize ≤ 65535) (h : Reachable env cfg s)
    (hq : Outlined q s.points) (hn : ∀ pre, pre <+: ops → (run env s pre).NoWrap)
    (hf : foreseeAll cfg q ops = some (q', ns)) :
    Reachable env cfg (run env s ops) ∧ Outlined q' (run env s ops).points ∧ counts env s ops = ns := by
  induction ops generalizing s q ns with
  | nil =>
    obtain ⟨rfl, rfl⟩ := Prod.mk.inj (Option.some.inj hf)
    exact ⟨h, hq, rfl⟩
  | cons op ops ih =>
    obtain ⟨q₁, n, ns', hop, hrest, rfl⟩ := foreseeAll_cons hf
    have hstep : (s.apply env op).1.NoWrap := hn [op] (by simp)
    obtain ⟨hq₁, rfl⟩ := apply_foreseen hB h hq hstep hop
    have hnext : Reachable env cfg (s.apply env op).1 := .step op h ⟨rfl, hstep⟩
    have htail : ∀ pre, pre <+: ops → (run env (s.apply env op).1 pre).NoWrap :=
      fun pre hpre => hn (op :: pre) (List.cons_prefix_cons.mpr ⟨rfl, hpre⟩)
    obtain ⟨hreach, hout, hcounts⟩ := ih hnext hq₁ htail hrest
    exact ⟨hreach, hout, congrArg _ hcounts⟩

omit [NeZero Dim] [IsStrictOrderedRing K] in
theorem foreseeAll_prefix {pre : List (Op Dim K)} (hpre : pre <+: ops)
    (h : foreseeAll cfg q ops = some (q', ns)) : ∃ r, foreseeAll cfg q pre = some r := by
  induction pre generalizing ops q ns with
  | nil => exact ⟨_, rfl⟩
  | cons op pre ih =>
    obtain ⟨post, rfl⟩ := hpre
    obtain ⟨q₁, n, ns', hop, hrest, -⟩ := foreseeAll_cons h
    obtain ⟨r, hr⟩ := ih (List.prefix_append pre post) hrest
    exact ⟨(r.1, n :: r.2), by rw [foreseeAll, hop, Option.bind_some, hr, Option.map_some]⟩

omit [NeZero Dim] in
theorem Sound.sameView {o o' : Option (Tree Dim K)} (hs : Sound s o) (hu : Sound u o')
    (hperm : s.points.coordinates.Perm u.points.coordinates) : SameView env s u := by
  have near := fun query k bound => (hs.search_nearest env.std query k bound).distances_eq
    (hu.search_nearest env.std query k bound) hperm
  exact
    { live := Multiset.coe_eq_coe.mpr hperm
      search := near
      knn := fun query k => near query k ⊤
      radius := fun query r => near query sizeMax ((r * r : K) : WithTop K)
      hybrid := fun query k r => near query k ((r * r : K) : WithTop K) }

theorem sameView_of_outlined (hB : 2 * cfg.leafBucketSize ≤ 65535) (hs : Reachable env cfg s)
    (hu : Reachable env cfg u) (hq : Outlined q s.points) (hq' : Outlined q u.points) :
    SameView env s u := by
  obtain ⟨o, hsound⟩ := hs.sound hB
  obtain ⟨o', hsound'⟩ := hu.sound hB
  exact hsound.sameView hsound' (hq.coordinates_perm.trans hq'.coordinates_perm.symm)

theorem Reachable.outlined (hB : 2 * cfg.leafBucketSize ≤ 65535) (h : Reachable env cfg s) :
    Outlined (Outline.ofList (s.points.forEachLive.map Prod.snd)) s.points := by
  obtain ⟨o, hs⟩ := h.sound hB
  obtain ⟨window, free, hring⟩ := hs.ring
  exact forEachLive_outlined hring

/-- As long as no eviction reaches a place of the ring that earlier deletions left open, nothing
tells a state from the one that `rebuild_all` makes of it. -/
theorem rebuildAll_unobservable (hB : 2 * cfg.leafBucketSize ≤ 65535) (h : Reachable env cfg s)
    (ops : List (Op Dim K))
    (hn : ∀ pre, pre <+: ops → (run env s pre).NoWrap ∧ (run env (s.rebuildAll env) pre).NoWrap)
    (hf : (foreseeAll cfg (Outline.ofList (s.points.forEachLive.map Prod.snd)) ops).isSome = true) :
    counts env s ops = counts env (s.rebuildAll env) ops ∧
      ∀ pre, pre <+: ops → SameView env (run env s pre) (run env (s.rebuildAll env) pre) := by
  have hrebuilt : Reachable env cfg (s.rebuildAll env) :=
    .step .rebuildAll h ⟨rfl, (hn [] List.nil_prefix).2⟩
  have hq := h.outlined hB
  have hq' : Outlined (Outline.ofList (s.points.forEachLive.map Prod.snd))
      (s.rebuildAll env).points := by
    rw [rebuildAll_points]
    exact hq
  obtain ⟨⟨q, ns⟩, hall⟩ := Option.isSome_iff_exists.mp hf
  constructor
  · have hs := run_foreseen hB h hq (fun pre hpre => (hn pre hpre).1) hall
    have hu := run_foreseen hB hrebuilt hq' (fun pre hpre => (hn pre hpre).2) hall
    exact hs.2.2.trans hu.2.2.symm
  · intro pre hpre
    obtain ⟨⟨q₁, ns₁⟩, hr⟩ := foreseeAll_prefix hpre hall
    obtain ⟨hs, hout, -⟩ :=
      run_foreseen hB h hq (fun p hp => (hn p (hp.trans hpre)).1) hr
    obtain ⟨hu, hout', -⟩ :=
      run_foreseen hB hrebuilt hq' (fun p hp => (hn p (hp.trans hpre)).2) hr
    exact sameView_of_outlined hB hs hu hout hout'

theorem runMeets_noWrap (h : runMeets env (fun _ _ => true) s ops = true) :
    ∀ pre, pre <+: ops → (run env s pre).NoWrap := by
  induction ops generalizing s with
  | nil =>
    intro pre hpre
    rw [List.prefix_nil.mp hpre]
    exact noWrap_of_fits (runMeets_fits h)
  | cons op ops ih =>
    intro pre hpre
    have hfits := runMeets_fits h
    simp only [runMeets, Bool.and_eq_true] at h
    rcases List.prefix_cons_iff.mp hpre with rfl | ⟨rest, rfl, hrest⟩
    · exact noWrap_of_fits hfits
    · exact ih h.2 rest hrest

end

def roomy : Config ℚ := { plane 5 (1 / 4) with leafBucketSize := 5 }

def shuffled : KDTreeImpl 2 ℚ :=
  run exactEnv (start roomy)
    [.insert [![0, 0], ![1, 0], ![2, 0], ![3, 0], ![4, 0]], .remove [![0, 0]]]

/-- The crop takes the two points at the front of the ring, the last insertion evicts. -/
def revealingCalls : List (Op 2 ℚ) :=
  [.radiusCrop ![5 / 2, 0] (3 / 5), .insert [![5, 0], ![6, 0], ![7, 0], ![8, 0]]]

theorem roomy_accepted : Accepted roomy := by
  have hplane : Accepted (plane 5 (1 / 4)) := plane_accepted (by decide) (by norm_num)
  exact ⟨hplane.capacity, hplane.resolution, by decide, hplane.alpha, hplane.tombstoneThreshold⟩

theorem shuffled_reachable : Reachable exactEnv roomy shuffled :=
  reachable_run roomy_accepted (by decide +kernel)

theorem rebuildAll_observed :
    2 * roomy.leafBucketSize ≤ 65535 ∧ Reachable exactEnv roomy shuffled ∧
      (∀ pre, pre <+: revealingCalls → (run exactEnv shuffled pre).NoWrap ∧
        (run exactEnv (shuffled.rebuildAll exactEnv) pre).NoWrap) ∧
      (run exactEnv shuffled revealingCalls).liveCoordinates ≠
        (run exactEnv (shuffled.rebuildAll exactEnv) revealingCalls).liveCoordinates :=
  ⟨by decide, shuffled_reachable,
    fun pre hpre => ⟨runMeets_noWrap (by decide +kernel) pre hpre,
      runMeets_noWrap (by decide +kernel) pre hpre⟩,
    by decide +kernel⟩

def settledCalls : List (Op 2 ℚ) :=
  [.remove [![2, 0]], .insert [![5, 0], ![6, 0], ![7, 0]], .radiusCrop ![3, 0] 2,
    .insert [![8, 0], ![9, 0], ![10, 0]]]

theorem rebuildAll_unobservable_plane :
    counts exactEnv shuffled settledCalls =
        counts exactEnv (shuffled.rebuildAll exactEnv) settledCalls ∧
      (run exactEnv shuffled settledCalls).liveCoordinates =
        (run exactEnv (shuffled.rebuildAll exactEnv) settledCalls).liveCoordinates := by
  obtain ⟨hcounts, hview⟩ := rebuildAll_unobservable (by decide) shuffled_reachable settledCalls
    (fun pre hpre => ⟨runMeets_noWrap (by decide +kernel) pre hpre,
      runMeets_noWrap (by decide +kernel) pre hpre⟩) (by decide +kernel)
  exact ⟨hcounts, (hview settledCalls (List.prefix_refl _)).live⟩

end KDTreeImpl
end Copse

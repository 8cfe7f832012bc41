import Copse.KDTreeReachable
import Copse.SearchDescend

set_option autoImplicit false

namespace Copse

namespace PointStore
variable {Dim : ℕ} {K : Type*}

def liveSlots (s : PointStore Dim K) : List ℕ := (List.range s.capacity).filter s.isLive

theorem mem_liveSlots {s : PointStore Dim K} {i : ℕ} : i ∈ s.liveSlots ↔ s.isLive i = true := by
  rw [liveSlots, List.mem_filter, List.mem_range]
  exact ⟨And.right, fun h => ⟨lt_of_isLive h, h⟩⟩

theorem liveSlots_nodup (s : PointStore Dim K) : s.liveSlots.Nodup := List.nodup_range.filter _

theorem liveSlots_perm {s : PointStore Dim K} {l : List ℕ} (hd : l.Nodup)
    (h : ∀ i, s.isLive i = true ↔ i ∈ l) : l.Perm s.liveSlots :=
  (List.perm_ext_iff_of_nodup hd s.liveSlots_nodup).mpr
    (fun i => (h i).symm.trans mem_liveSlots.symm)

end PointStore

namespace KDTreeImpl
open PointStore BoundedSelection SearchKernel
variable {Dim : ℕ} [NeZero Dim] {K : Type*} [Field K] [LinearOrder K]

/-- The squared distances below the bound of all live points, sorted upwards. -/
def liveDistances (points : PointStore Dim K) (query : Point Dim K) (bound : WithTop K) : List K :=
  ((within points query bound points.liveSlots).map
    (fun i => (points.point i).sqDist query)).insertionSort (· ≤ ·)

/-- The answer to a query for the `k` nearest live points below a squared distance. -/
structure Nearest (points : PointStore Dim K) (query : Point Dim K) (k : ℕ∞) (bound : WithTop K)
    (result : List (Neighbor Dim K)) : Prop where
  sorted : result.Pairwise (fun x y => x.sqDist ≤ y.sqDist)
  slots : ∃ slots : List ℕ, slots.Nodup ∧ (∀ i ∈ slots, points.isLive i = true) ∧
    result = slots.map (fun i => ⟨points.point i, (points.point i).sqDist query⟩)
  length : (result.length : ℕ∞) = min k (within points query bound points.liveSlots).length
  distances : result.map Neighbor.sqDist = (liveDistances points query bound).take result.length

section
omit [NeZero Dim]

section
variable {points : PointStore Dim K} {query : Point Dim K} {bound : WithTop K}

theorem liveDistances_perm {l : List ℕ} (h : l.Perm points.liveSlots) :
    (liveDistances points query bound).Perm
      ((candidates points query bound l).map HeapEntry.sqDist) := by
  refine (List.perm_insertionSort _ _).trans ?_
  rw [candidates, List.map_map]
  exact ((h.filter _).map _).symm

/-- A sorted selection among the candidates of all live slots is the answer. -/
theorem nearest_of_selects {k : ℕ} {l : List ℕ} {heap result : List (HeapEntry K)}
    (h : l.Perm points.liveSlots)
    (hs : Selects HeapEntry.sqDist k heap (candidates points query bound l))
    (hr : result.Perm heap) (hsorted : result.Pairwise (fun x y => x.sqDist ≤ y.sqDist)) :
    Nearest points query k bound (result.map (fun e => ⟨points.point e.index, e.sqDist⟩)) := by
  have hsel := hs.perm hr (List.Perm.refl _)
  have hindex :
      (candidates points query bound l).map HeapEntry.index = within points query bound l := by
    rw [candidates, List.map_map]
    exact List.map_id _
  have hd : ((candidates points query bound l).map HeapEntry.index).Nodup := by
    rw [hindex]
    exact ((h.nodup_iff.mpr points.liveSlots_nodup).filter _)
  refine ⟨?_, ⟨result.map HeapEntry.index, hsel.nodup_map hd, ?_, ?_⟩, ?_, ?_⟩
  · exact List.pairwise_map.mpr hsorted
  · intro i hi
    obtain ⟨e, he, rfl⟩ := List.mem_map.mp hi
    exact mem_liveSlots.mp (h.mem_iff.mp (mem_candidates (hsel.subperm e he)).1)
  · rw [List.map_map]
    refine List.map_congr_left (fun e he => ?_)
    simp only [Function.comp_apply]
    rw [← (mem_candidates (hsel.subperm e he)).2.1]
  · rw [List.length_map, hsel.length_eq]
    have hlen : (candidates points query bound l).length =
        (within points query bound points.liveSlots).length := by
      rw [candidates, List.length_map]
      exact (h.filter _).length_eq
    rw [hlen]
    exact (Nat.mono_cast (α := ℕ∞)).map_min
  · have hperm : (liveDistances points query bound).Perm
        ((candidates points query bound l).map HeapEntry.sqDist) := liveDistances_perm h
    have htake := hsel.keys_eq_take hsorted hperm (List.pairwise_insertionSort _ _)
    rw [List.length_map, ← htake, List.map_map]
    rfl

theorem nearest_nil (query : Point Dim K) (k : ℕ∞) (bound : WithTop K)
    (h : k = 0 ∨ points.liveSlots = []) : Nearest points query k bound [] := by
  refine ⟨List.Pairwise.nil, ⟨[], List.nodup_nil, by simp, rfl⟩, ?_, by simp⟩
  rcases h with rfl | h
  · simp
  · simp [h, within]

end

end

section
variable [IsStrictOrderedRing K] {env : Env K} {cfg : Config K} {s : KDTreeImpl Dim K}
  {o : Option (Tree Dim K)}

section
omit [NeZero Dim]

theorem Sound.search_nearest (h : Sound s o) (std : StdAlgorithm K) (query : Point Dim K) (k : ℕ)
    (bound : WithTop K) :
    Nearest s.points query k bound
      (SearchKernel.search std s.pools s.points s.root query k bound) := by
  by_cases hk : k = 0
  · rw [search, if_pos (Or.inr hk)]
    exact nearest_nil query _ bound (Or.inl (by simp [hk]))
  · cases o with
    | none =>
      have hvacant : Vacant s := h.reads
      rw [search, if_pos (Or.inl hvacant.root)]
      refine nearest_nil query _ bound (Or.inr ?_)
      simp [liveSlots, hvacant.none]
    | some t =>
      have holds : Holds s t := h.reads
      have hroot := holds.root_valid h.noWrap
      rw [search, if_neg (not_or.mpr ⟨hroot, hk⟩), ← holds.root]
      have hpos : 0 < k := Nat.pos_of_ne_zero hk
      have hzero : AxisBound s.points query (fun _ => 0) t := fun _ _ _ => mul_self_nonneg _
      have hkept := descend_kept std hpos holds.rep h.noWrap.pools holds.placed
        s.pools.nodes.length holds.height_lt 0 (Kept.start k hpos bound (fun _ => 0)) (by simp) hzero
      rw [List.append_nil] at hkept
      exact nearest_of_selects (liveSlots_perm holds.nodup holds.complete) hkept.selects
        (std.sort_perm _) (std.sort_pairwise _)

omit [IsStrictOrderedRing K]

omit [LinearOrder K] in
theorem liveSlots_length_lt (h : s.NoWrap) : s.points.liveSlots.length < sizeMax := by
  have hle : s.points.liveSlots.length ≤ s.points.capacity := by
    refine (List.length_filter_le _ _).trans ?_
    rw [List.length_range]
  have hcap := h.capacity
  unfold sizeMax
  omega

theorem Nearest.unbounded {points : PointStore Dim K} {query : Point Dim K} {bound : WithTop K}
    {result : List (Neighbor Dim K)} (h : Nearest points query sizeMax bound result)
    (hlt : points.liveSlots.length < sizeMax) : Nearest points query ⊤ bound result := by
  refine ⟨h.sorted, h.slots, ?_, h.distances⟩
  have hle : (within points query bound points.liveSlots).length ≤ sizeMax :=
    (List.length_filter_le _ _).trans hlt.le
  rw [h.length, min_eq_right (by exact_mod_cast hle), min_eq_right le_top]

end

/-- Every search of every reachable state returns the brute-force answer. -/
theorem searches_nearest (hB : 2 * cfg.leafBucketSize ≤ 65535) (h : Reachable env cfg s)
    (query : Point Dim K) :
    (∀ (k : ℕ) (bound : WithTop K), Nearest s.points query k bound
      (SearchKernel.search env.std s.pools s.points s.root query k bound)) ∧
    (∀ k : ℕ, Nearest s.points query k ⊤ (s.knnSearch env query k)) ∧
    (∀ r, Nearest s.points query ⊤ ((r * r : K) : WithTop K) (s.radiusSearch env query r)) ∧
    (∀ (k : ℕ) (r : K), Nearest s.points query k ((r * r : K) : WithTop K)
      (s.hybridSearch env query k r)) := by
  obtain ⟨o, hs⟩ := h.sound hB
  refine ⟨fun k bound => hs.search_nearest env.std query k bound,
    fun k => hs.search_nearest env.std query k ⊤, fun r => ?_,
    fun k r => hs.search_nearest env.std query k _⟩
  exact (hs.search_nearest env.std query sizeMax _).unbounded (liveSlots_length_lt hs.noWrap)

end

theorem searches_nearest_plane :
    Nearest
      (run wordEnv (start (plane 3 (1 / 4)))
        [.insert [![0, 0], ![1, 0], ![2, 0]], .remove [![0, 0]]] : KDTreeImpl 2 ℚ).points
      ![0, 0] (1 : ℕ) ⊤
      ((run wordEnv (start (plane 3 (1 / 4)))
        [.insert [![0, 0], ![1, 0], ![2, 0]], .remove [![0, 0]]]).knnSearch wordEnv ![0, 0] 1) :=
  (searches_nearest (by decide)
    (reachable_run (plane_accepted (by decide) (by norm_num)) (by decide +kernel)) ![0, 0]).2.1 1

end KDTreeImpl
end Copse

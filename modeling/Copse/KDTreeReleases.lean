import Copse.PointStoreRuns
import Copse.KDTreeReachable

set_option autoImplicit false

namespace Copse
open PointStore TreeBuilder TransitionRuns

namespace TreeBuilder
variable {Dim : ℕ} {K : Type*} [Field K] [LinearOrder K]

/-- A release call: the store it is made on, and the slot it names. -/
abbrev ReleaseCall (Dim : ℕ) (K : Type*) := PointStore Dim K × ℕ

def entryReleases (hit : Point Dim K → Bool) :
    List BucketEntry → PointStore Dim K → List (ReleaseCall Dim K)
  | [], _ => []
  | e :: es, points =>
    if !points.valid e || !hit (points.point e.index) then entryReleases hit es points
    else (points, e.index) :: entryReleases hit es (points.release e.index)

def subtreeReleases (c : Counter) :
    ℕ → Pools Dim K → PointStore Dim K → ℕ → List (ReleaseCall Dim K)
  | 0, _, _, _ => []
  | fuel + 1, p, points, nodeIdx =>
    match (p.node nodeIdx).body with
    | .leaf offset size _ _ => entryReleases (fun _ => true) (p.view offset size) points
    | .internal _ _ left right =>
      let l := releaseSubtree c fuel p points left
      subtreeReleases c fuel p points left ++ subtreeReleases c fuel l.pools l.points right

def deleteReleases (c : Counter) (rg : Region Dim K) :
    ℕ → Pools Dim K → PointStore Dim K → ℕ → BBox Dim K → List ℕ → List (ReleaseCall Dim K)
  | 0, _, _, _, _, _ => []
  | fuel + 1, p, points, nodeIdx, partition, modified =>
    if rg.keeps partition then []
    else if rg.clears partition then subtreeReleases c p.nodes.length p points nodeIdx
    else
      match (p.node nodeIdx).body with
      | .leaf offset size _ bboxIdx =>
        let leafBBox := p.bbox bboxIdx
        if rg.keeps leafBBox then []
        else if rg.clears leafBBox then subtreeReleases c p.nodes.length p points nodeIdx
        else entryReleases rg.hit (p.view offset size) points
      | .internal dim split left right =>
        let l := deleteRecurse c rg fuel p points left (partition.left dim split) modified
        deleteReleases c rg fuel p points left (partition.left dim split) modified ++
          deleteReleases c rg fuel l.pools l.points right (partition.right dim split) l.modified

omit [LinearOrder K] in
theorem entryReleases_spec (hit : Point Dim K → Bool) (es : List BucketEntry)
    (points : PointStore Dim K) :
    Releases points (entryReleases hit es points) (clearEntries hit es points).1 := by
  induction es generalizing points with
  | nil => exact .nil points
  | cons e es ih =>
    unfold entryReleases clearEntries
    by_cases hskip : (!points.valid e || !hit (points.point e.index)) = true
    · rw [if_pos hskip, if_pos hskip]
      exact ih points
    · rw [if_neg hskip, if_neg hskip]
      rw [Bool.or_eq_true, Bool.not_eq_true', not_or, Bool.not_eq_false] at hskip
      exact .cons ((points.valid_iff e).mp hskip.1).2 (ih _)

omit [LinearOrder K] in
theorem subtreeReleases_spec (c : Counter) (fuel : ℕ) (p : Pools Dim K) (points : PointStore Dim K)
    (i : ℕ) :
    Releases points (subtreeReleases c fuel p points i) (releaseSubtree c fuel p points i).points := by
  induction fuel generalizing p points i with
  | zero => exact .nil points
  | succ fuel ih =>
    rw [subtreeReleases, releaseSubtree]
    cases (p.node i).body with
    | leaf offset size cap bboxIdx => exact entryReleases_spec _ _ points
    | internal dim split left right => exact (ih p points left).append (ih _ _ right)

theorem deleteReleases_spec (c : Counter) (rg : Region Dim K) (fuel : ℕ) (p : Pools Dim K)
    (points : PointStore Dim K) (i : ℕ) (partition : BBox Dim K) (modified : List ℕ) :
    Releases points (deleteReleases c rg fuel p points i partition modified)
      (deleteRecurse c rg fuel p points i partition modified).points := by
  induction fuel generalizing p points i partition modified with
  | zero => exact .nil points
  | succ fuel ih =>
    rw [deleteReleases, deleteRecurse]
    by_cases hk : rg.keeps partition = true
    · rw [if_pos hk, if_pos hk]
      exact .nil points
    by_cases hc : rg.clears partition = true
    · rw [if_neg hk, if_pos hc, if_neg hk, if_pos hc]
      exact subtreeReleases_spec c _ p points i
    rw [if_neg hk, if_neg hc, if_neg hk, if_neg hc]
    cases (p.node i).body with
    | leaf offset size cap bboxIdx =>
      dsimp only
      split_ifs
      · exact .nil points
      · exact subtreeReleases_spec c _ p points i
      · exact entryReleases_spec _ _ points
    | internal dim split left right => exact (ih p points left _ _).append (ih _ _ right _ _)

end TreeBuilder

namespace KDTreeImpl
variable {Dim : ℕ} [NeZero Dim] {K : Type*} [Field K] [LinearOrder K]

def releases (env : Env K) (s : KDTreeImpl Dim K) : Action Dim K → List (ReleaseCall Dim K)
  | .removeIndex index => [(s.points, index)]
  | .deleteRegion rg =>
    if s.root = invalid then []
    else deleteReleases env.counter rg s.pools.nodes.length s.pools s.points s.root s.rootBBox
      s.modifiedNodes
  | _ => []

section
variable {env : Env K} {cfg : Config K} {s : KDTreeImpl Dim K}

/-- The release calls are all that an action other than an insertion does to the store. -/
theorem releases_spec (env : Env K) (a : Action Dim K) (ready : s.Ready a)
    (ha : ∀ x, a ≠ .insertPoint x) : Releases s.points (s.releases env a) (s.act env a).points := by
  cases a with
  | insertPoint x => exact absurd rfl (ha x)
  | removeIndex i => exact .cons ready (.nil _)
  | deleteRegion rg =>
    simp only [releases, act, deleteRegion]
    split_ifs
    · exact .nil _
    · exact deleteReleases_spec env.counter rg _ _ _ _ _ _
  | sweepFull =>
    simp only [releases, act, sweepFull_points]
    exact .nil _
  | sweep =>
    simp only [releases, act, sweep_points]
    exact .nil _
  | rebuildAll =>
    simp only [releases, act, rebuildAll_points]
    exact .nil _

theorem releases_live (env : Env K) (a : Action Dim K) (ready : s.Ready a)
    (hr : ∃ window free, Ring s.points window free) :
    ∀ m ∈ s.releases env a, m.1.isLive m.2 = true ∧ m.1.bufPos.getD m.2 invalid < m.1.capacity := by
  by_cases ha : ∃ x, a = .insertPoint x
  · obtain ⟨x, rfl⟩ := ha
    simp [releases]
  · have hcalls := releases_spec env a ready (fun x hx => ha ⟨x, hx⟩)
    intro m hm
    obtain ⟨window, free, hring⟩ := hcalls.ring hr m hm
    have hlive := hcalls.live m hm
    exact ⟨hlive, (hring.consistent.position m.2 hlive).1⟩

variable [IsStrictOrderedRing K]

/-- The store is consistent in every run of its own, and every run of the tree releases live
slots only. -/
theorem slots_consistent :
    (∀ (c : ℕ) (s : PointStore Dim K), 0 < c → c < 2 ^ 32 → StoreReachable c s → Consistent s) ∧
    ∀ (env : Env K) (cfg : Config K) (s : KDTreeImpl Dim K) (op : Op Dim K),
      2 * cfg.leafBucketSize ≤ 65535 → Reachable env cfg s → (s.apply env op).1.NoWrap →
      ∀ m ∈ s.steps env op, ∀ r ∈ m.1.releases env m.2,
        r.1.isLive r.2 = true ∧ r.1.bufPos.getD r.2 invalid < r.1.capacity := by
  constructor
  · intro c s _ small h
    obtain ⟨window, free, hring⟩ := h.ring small
    exact hring.consistent
  · intro env cfg s op hB h hn m hm
    obtain ⟨o, hs⟩ := h.sound hB
    have hready := steps_ready op hs (steps_noWrap hn) m hm
    obtain ⟨o', hs'⟩ := steps_sound hs hn m hm
    exact releases_live env m.2 hready hs'.ring

theorem slots_consistent_plane :
    Consistent (((start (plane 2 (1 / 4)) : KDTreeImpl 2 ℚ).points.acquire ![0, 0]).1.acquire
      ![1, 0]).1 ∧
    ∀ m ∈ (run wordEnv (start (plane 3 (1 / 4))) [.insert [![0, 0], ![1, 0], ![2, 0]]] :
        KDTreeImpl 2 ℚ).steps wordEnv (.boxDelete [⟨fun _ => ⊥, ![ExtendedField.val 1, ⊤]⟩]),
      ∀ r ∈ m.1.releases wordEnv m.2,
        r.1.isLive r.2 = true ∧ r.1.bufPos.getD r.2 invalid < r.1.capacity :=
  ⟨slots_consistent.1 2 _ (by decide) (by decide)
      (.step (.acquire ![1, 0]) (.step (.acquire ![0, 0]) (.init rfl) ⟨trivial, rfl⟩) ⟨trivial, rfl⟩),
    slots_consistent.2 wordEnv (plane 3 (1 / 4)) _ _ (by decide)
      (reachable_run (plane_accepted (by decide) (by norm_num)) (by decide +kernel))
      (noWrap_of_fits (by decide +kernel))⟩

end
end KDTreeImpl
end Copse

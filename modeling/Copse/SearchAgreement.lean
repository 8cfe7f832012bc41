import Copse.KDTreeUpdates

set_option autoImplicit false

namespace Copse
open PointStore TreeBuilder

namespace KDTreeImpl
open SearchKernel
variable {Dim : ℕ} [NeZero Dim] {K : Type*} [Field K] [LinearOrder K]

section
variable {points : PointStore Dim K} {query : Point Dim K} {bound : WithTop K}
  {result : List (Neighbor Dim K)}
omit [NeZero Dim]

theorem Nearest.ne_nil_iff {k : ℕ} (h : Nearest points query k bound result) (hk : 1 ≤ k) :
    result ≠ [] ↔ within points query bound points.liveSlots ≠ [] := by
  have hlen : result.length = min k (within points query bound points.liveSlots).length := by
    have hlen := h.length
    rw [← (Nat.mono_cast (α := ℕ∞)).map_min] at hlen
    exact_mod_cast hlen
  rw [← List.length_pos_iff, ← List.length_pos_iff]
  omega

theorem Nearest.reports (h : Nearest points query ⊤ bound result) :
    ∃ slots : List ℕ, slots.Perm (within points query bound points.liveSlots) ∧
      result = slots.map (fun i => ⟨points.point i, (points.point i).sqDist query⟩) := by
  obtain ⟨slots, hd, hlive, hr⟩ := h.slots
  have hlen : slots.length = (within points query bound points.liveSlots).length := by
    have hlen := h.length
    rw [min_eq_right le_top, hr, List.length_map] at hlen
    exact_mod_cast hlen
  have hbound : ∀ i ∈ slots, ((points.point i).sqDist query : WithTop K) < bound := by
    intro i hi
    have hmem : (points.point i).sqDist query ∈ result.map Neighbor.sqDist := by
      rw [hr, List.map_map]
      exact List.mem_map_of_mem hi
    rw [h.distances] at hmem
    have hdist := (List.perm_insertionSort _ _).mem_iff.mp (List.mem_of_mem_take hmem)
    obtain ⟨j, hj, heq⟩ := List.mem_map.mp hdist
    rw [← heq]
    exact (mem_within.mp hj).2
  refine ⟨slots, ?_, hr⟩
  have hsub : slots ⊆ within points query bound points.liveSlots :=
    fun i hi => mem_within.mpr ⟨mem_liveSlots.mpr (hlive i hi), hbound i hi⟩
  exact (hd.subperm hsub).perm_of_length_le hlen.ge

end

section
variable [IsStrictOrderedRing K] {env : Env K} {cfg : Config K} {s : KDTreeImpl Dim K}
  {o : Option (Tree Dim K)}

omit [NeZero Dim] in
theorem Sound.collects (h : Sound s o) (query : Point Dim K) (sqRadius : K) :
    (collectIndicesWithin s.pools s.points s.root query sqRadius).Perm
      (within s.points query sqRadius s.points.liveSlots) := by
  cases o with
  | none =>
    have hvacant : Vacant s := h.reads
    rw [collectIndicesWithin, if_pos hvacant.root]
    simp [within, liveSlots, hvacant.none]
  | some t =>
    have holds : Holds s t := h.reads
    rw [collectIndicesWithin, if_neg (holds.root_valid h.noWrap), ← holds.root]
    refine (collectDescend_perm sqRadius holds.rep h.noWrap.pools holds.placed _ holds.height_lt).trans ?_
    exact (liveSlots_perm holds.nodup holds.complete).filter _

section
omit [IsStrictOrderedRing K]

theorem insert_singleton (env : Env K) (s : KDTreeImpl Dim K) (query : Point Dim K) :
    (s.insert env [query]).2 = if s.accepts query then 1 else 0 := by
  simp only [insert, insertLoop, insertPoint]
  split_ifs <;> rfl

theorem remove_singleton (env : Env K) (s : KDTreeImpl Dim K) (query : Point Dim K) :
    (s.remove env [query]).2 = (s.matchesOf query).length := rfl

theorem insert_rejects_iff (env : Env K) (s : KDTreeImpl Dim K) (query : Point Dim K) :
    (s.insert env [query]).2 = 0 ↔ s.matchesOf query ≠ [] := by
  rw [insert_singleton, ← accepts_eq_false_iff]
  cases s.accepts query <;> simp

end

theorem accepts_removed (h : Sound s o) (query : Point Dim K) (hn : (s.remove env [query]).1.NoWrap) :
    (s.remove env [query]).1.accepts query = true := by
  obtain ⟨o', hs'⟩ := apply_sound h (show (s.apply env (.remove [query])).1.NoWrap from hn)
  have hcfg : (s.remove env [query]).1.sqResolution = s.sqResolution := by
    have hlater := (steps_chain env s (.remove [query])).invariant (P := fun u => u.cfg = s.cfg)
      (fun m _ hm => (act_cfg env m.2).1.trans hm) rfl
    rw [sqResolution, sqResolution]
    exact congrArg (fun c => c.resolution * c.resolution) hlater.2
  have hclears := apply_clears (.remove [query]) (by simp) h hn
  simp only [apply] at hs' hclears
  refine (accepts_iff query hs').mpr (fun i hi => ?_)
  have hleft := ((hclears.isLive_iff i).mp hi).2
  rw [hcfg, (hclears.survivor i).1]
  simpa [Op.deletes] using hleft

/-- The three traversals find the same slots, for every query and every bound. -/
theorem same_ball (hB : 2 * cfg.leafBucketSize ≤ 65535) (h : Reachable env cfg s)
    (query : Point Dim K) :
    ((s.insert env [query]).2 = 0 ↔ 1 ≤ (s.remove env [query]).2) ∧
      (1 ≤ (s.remove env [query]).2 ↔ s.radiusSearch env query cfg.resolution ≠ []) ∧
      (s.remove env [query]).2 = (s.radiusSearch env query cfg.resolution).length ∧
      ((s.remove env [query]).1.NoWrap →
        ((s.remove env [query]).1.insert env [query]).2 = 1) ∧
      ∀ sqRadius : K,
        (anyWithin s.pools s.points s.root query sqRadius = true ↔
          collectIndicesWithin s.pools s.points s.root query sqRadius ≠ []) ∧
        (∀ k : ℕ, 1 ≤ k →
          (collectIndicesWithin s.pools s.points s.root query sqRadius ≠ [] ↔
            search env.std s.pools s.points s.root query k sqRadius ≠ [])) ∧
        (collectIndicesWithin s.pools s.points s.root query sqRadius).Nodup ∧
        ∃ slots : List ℕ,
          slots.Perm (collectIndicesWithin s.pools s.points s.root query sqRadius) ∧
          search env.std s.pools s.points s.root query sizeMax sqRadius =
            slots.map (fun i => ⟨s.points.point i, (s.points.point i).sqDist query⟩) := by
  obtain ⟨o, hs⟩ := h.sound hB
  have hres : s.sqResolution = cfg.resolution * cfg.resolution := by
    rw [sqResolution, h.config.1]
  have unbounded : ∀ sqRadius : K, ∃ slots : List ℕ,
      slots.Perm (collectIndicesWithin s.pools s.points s.root query sqRadius) ∧
      search env.std s.pools s.points s.root query sizeMax sqRadius =
        slots.map (fun i => ⟨s.points.point i, (s.points.point i).sqDist query⟩) := by
    intro sqRadius
    have hnear := (hs.search_nearest env.std query sizeMax sqRadius).unbounded
      (liveSlots_length_lt hs.noWrap)
    obtain ⟨slots, hperm, hr⟩ := hnear.reports
    exact ⟨slots, hperm.trans (hs.collects query sqRadius).symm, hr⟩
  have hlength : (s.remove env [query]).2 = (s.radiusSearch env query cfg.resolution).length := by
    obtain ⟨slots, hperm, hr⟩ := unbounded (cfg.resolution * cfg.resolution)
    rw [remove_singleton, matchesOf, hres, radiusSearch, hr, List.length_map, hperm.length_eq]
  have hfound : 1 ≤ (s.remove env [query]).2 ↔ s.matchesOf query ≠ [] := by
    rw [remove_singleton, Nat.one_le_iff_ne_zero, ne_eq, ne_eq, List.length_eq_zero_iff]
  refine ⟨(insert_rejects_iff env s query).trans hfound.symm, ?_, hlength, fun hn => ?_,
    fun sqRadius => ⟨anyWithin_iff s.root sqRadius, fun k hk => ?_, ?_, unbounded sqRadius⟩⟩
  · rw [hlength, Nat.one_le_iff_ne_zero, ne_eq, ne_eq, List.length_eq_zero_iff]
  · rw [insert_singleton, if_pos (accepts_removed hs query hn)]
  · have hnear := hs.search_nearest env.std query k sqRadius
    rw [hnear.ne_nil_iff hk, ← List.length_pos_iff, ← List.length_pos_iff,
      (hs.collects query sqRadius).length_eq]
  · exact (hs.collects query sqRadius).nodup_iff.mpr (s.points.liveSlots_nodup.filter _)

end

def threeRun : KDTreeImpl 2 ℚ :=
  run wordEnv (start (plane 3 (1 / 4))) [.insert [![0, 0], ![1, 0], ![2, 0]], .remove [![0, 0]]]

theorem same_ball_plane :
    (threeRun.remove wordEnv [![1, 0]]).2 =
        (threeRun.radiusSearch wordEnv ![1, 0] (1 / 10)).length ∧
      ((threeRun.remove wordEnv [![1, 0]]).1.insert wordEnv [![1, 0]]).2 = 1 := by
  have hrun : Reachable wordEnv (plane 3 (1 / 4)) threeRun :=
    reachable_run (plane_accepted (by decide) (by norm_num)) (by decide +kernel)
  have hball := same_ball (by decide) hrun ![1, 0]
  exact ⟨hball.2.2.1, hball.2.2.2.1 (noWrap_of_fits (by decide +kernel))⟩

end KDTreeImpl
end Copse

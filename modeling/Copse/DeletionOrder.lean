import Copse.KDTreeTraces

set_option autoImplicit false

namespace Copse
open PointStore BoundedSelection ExtendedField SearchKernel TransitionRuns

namespace KDTreeImpl
variable {Dim : ℕ} [NeZero Dim] {K : Type*} [Field K] [LinearOrder K]

section
omit [NeZero Dim]

section
variable {points points' : PointStore Dim K} {query : Point Dim K} {bound : WithTop K}
variable {hit hit' : Point Dim K → Prop} {n n' : ℕ} {result : List (Neighbor Dim K)}

omit [LinearOrder K] in
theorem Clears.liveSlots_perm (h : Clears points hit points' n) {points'' : PointStore Dim K}
    (h' : Clears points hit' points'' n')
    (heq : ∀ i, points.isLive i = true → (hit (points.point i) ↔ hit' (points.point i))) :
    points'.liveSlots.Perm points''.liveSlots := by
  refine (List.perm_ext_iff_of_nodup (liveSlots_nodup _) (liveSlots_nodup _)).mpr (fun i => ?_)
  rw [mem_liveSlots, mem_liveSlots, h.isLive_iff, h'.isLive_iff]
  exact and_congr_right (fun hi => not_congr (heq i hi))

theorem Nearest.first {k : ℕ} (h : Nearest points query k bound result) :
    ∃ slots : List ℕ, slots.Nodup ∧
      result = slots.map (fun i => ⟨points.point i, (points.point i).sqDist query⟩) ∧
      (∀ i ∈ slots, i ∈ within points query bound points.liveSlots) ∧
      ∀ i ∈ slots, ∀ j ∈ within points query bound points.liveSlots, j ∉ slots →
        (points.point i).sqDist query ≤ (points.point j).sqDist query := by
  obtain ⟨slots, hd, hlive, rfl⟩ := h.slots
  have hmap : (slots.map (fun i => (points.point i).sqDist query)) =
      (liveDistances points query bound).take slots.length := by
    have htake := h.distances
    rw [List.map_map, List.length_map] at htake
    exact htake
  have hperm : (liveDistances points query bound).Perm
      ((within points query bound points.liveSlots).map
        (fun i => (points.point i).sqDist query)) := List.perm_insertionSort _ _
  have hwithin : ∀ i ∈ slots, i ∈ within points query bound points.liveSlots := by
    intro i hi
    have hdist : (points.point i).sqDist query ∈ liveDistances points query bound :=
      List.mem_of_mem_take (hmap ▸ List.mem_map_of_mem hi)
    obtain ⟨j, hj, heq⟩ := List.mem_map.mp (hperm.mem_iff.mp hdist)
    rw [mem_within, mem_liveSlots, ← heq]
    exact ⟨hlive i hi, (mem_within.mp hj).2⟩
  exact ⟨slots, hd, rfl, hwithin, le_of_keys_eq_take (points.liveSlots_nodup.filter _) hd hwithin
    hperm (List.pairwise_insertionSort _ _) hmap⟩

theorem Nearest.spared {k : ℕ} (h : Nearest points query k bound result)
    (hc : Clears points hit points' n) (hspared : ∀ x ∈ result, ¬ hit x.coord) :
    Nearest points' query k bound result := by
  obtain ⟨slots, hd, rfl, hwithin, hle⟩ := h.first
  have hsorted := h.sorted
  have hlen := h.length
  have hpoint := fun i => (hc.survivor i).1
  have hmem : ∀ i, i ∈ within points' query bound points'.liveSlots ↔
      i ∈ within points query bound points.liveSlots ∧ ¬ hit (points.point i) := by
    intro i
    rw [mem_within, mem_within, mem_liveSlots, mem_liveSlots, hc.isLive_iff, hpoint]
    tauto
  have hkept : ∀ i ∈ slots, i ∈ within points' query bound points'.liveSlots := fun i hi =>
    (hmem i).mpr ⟨hwithin i hi, hspared _ (List.mem_map_of_mem hi)⟩
  have hd' : (within points' query bound points'.liveSlots).Nodup :=
    points'.liveSlots_nodup.filter _
  have hge : slots.length ≤ (within points' query bound points'.liveSlots).length :=
    (hd.subperm hkept).length_le
  have hfew : (within points' query bound points'.liveSlots).length ≤
      (within points query bound points.liveSlots).length :=
    (hd'.subperm (fun i hi => ((hmem i).mp hi).1)).length_le
  rw [List.length_map, ← (Nat.mono_cast (α := ℕ∞)).map_min, Nat.cast_inj] at hlen
  have hcount : slots.length = min k (within points' query bound points'.liveSlots).length := by
    omega
  have hsel : Selects (fun i => (points.point i).sqDist query) k slots
      (within points' query bound points'.liveSlots) :=
    selects_of_distinct hd' hd hkept (fun i hi j hj => hle i hi j ((hmem j).mp hj).1) hcount
  rw [List.pairwise_map] at hsorted
  have hperm : (liveDistances points' query bound).Perm _ := List.perm_insertionSort _ _
  simp only [hpoint] at hperm
  have hkeys := hsel.keys_eq_take hsorted hperm (List.pairwise_insertionSort _ _)
  refine ⟨List.pairwise_map.mpr hsorted, ⟨slots, hd, fun i hi => ?_, ?_⟩, ?_, ?_⟩
  · exact mem_liveSlots.mp (mem_within.mp (hkept i hi)).1
  · simp only [hpoint]
  · rw [List.length_map, hcount]
    exact (Nat.mono_cast (α := ℕ∞)).map_min
  · rw [List.map_map, List.length_map]
    exact hkeys

omit [LinearOrder K] in
theorem Clears.coordinates_perm {points'' : PointStore Dim K} (h : Clears points hit points' n)
    (h' : Clears points hit' points'' n')
    (heq : ∀ i, points.isLive i = true → (hit (points.point i) ↔ hit' (points.point i))) :
    points'.coordinates.Perm points''.coordinates := by
  have hpoint : points'.point = points''.point :=
    funext (fun i => (h.survivor i).1.trans (h'.survivor i).1.symm)
  rw [coordinates, coordinates, hpoint]
  exact (h.liveSlots_perm h' heq).map _

end

end

section
variable [IsStrictOrderedRing K] {env : Env K} {cfg : Config K} {s : KDTreeImpl Dim K}
variable {ops ops' : List (Op Dim K)} {o : Option (Tree Dim K)}

theorem run_clears (hops : ∀ op ∈ ops, ∀ batch, op ≠ .insert batch) (hs : Sound s o)
    (hn : ∀ pre, pre <+: ops → (run env s pre).NoWrap) :
    Clears s.points (fun x => ∃ op ∈ ops, op.deletes s.sqResolution x = true)
        (run env s ops).points (counts env s ops).sum ∧ ∃ o', Sound (run env s ops) o' := by
  induction ops generalizing s o with
  | nil => exact ⟨(Clears.refl s.points).congr (by simp), o, hs⟩
  | cons op ops ih =>
    obtain ⟨hop, hrest⟩ := List.forall_mem_cons.mp hops
    have hn' : (s.apply env op).1.NoWrap := hn [op] (List.prefix_append [op] ops)
    obtain ⟨o', ho'⟩ := apply_sound hs hn'
    obtain ⟨hclears, hsound⟩ := ih hrest ho' (fun pre hpre =>
      hn (op :: pre) (List.cons_prefix_cons.mpr ⟨rfl, hpre⟩))
    have hconfig : (s.apply env op).1.cfg = s.cfg ∧
        (s.apply env op).1.points.capacity = s.points.capacity := apply_config op
    have hres : (s.apply env op).1.sqResolution = s.sqResolution := by
      rw [sqResolution, hconfig.1, sqResolution]
    rw [hres] at hclears
    refine ⟨((apply_clears op hop hs hn').trans hclears).congr (fun x => ?_), hsound⟩
    rw [List.exists_mem_cons_iff]

omit [NeZero Dim] [IsStrictOrderedRing K] in
theorem Sound.length_coordinates (h : Sound s o) : s.points.coordinates.length = s.size := by
  obtain ⟨window, free, hring⟩ := h.ring
  have hperm := liveSlots_perm hring.window_nodup hring.isLive_iff
  rw [coordinates, List.length_map, ← hperm.length_eq, ← hring.live]
  rfl

/-- Two sequences of deletions that are about the same live points let go the same number of
points in all and leave the same slots: no size, no dedup test and no distance a search finds tells
the two states apart. -/
theorem deletions_confluent (hB : 2 * cfg.leafBucketSize ≤ 65535) (h : Reachable env cfg s)
    (hops : ∀ op ∈ ops, ∀ batch, op ≠ .insert batch)
    (hops' : ∀ op ∈ ops', ∀ batch, op ≠ .insert batch)
    (hn : ∀ pre, pre <+: ops → (run env s pre).NoWrap)
    (hn' : ∀ pre, pre <+: ops' → (run env s pre).NoWrap)
    (heq : ∀ i, s.points.isLive i = true →
      ((∃ op ∈ ops, op.deletes (cfg.resolution * cfg.resolution) (s.points.point i) = true) ↔
        ∃ op ∈ ops', op.deletes (cfg.resolution * cfg.resolution) (s.points.point i) = true)) :
    (counts env s ops).sum = (counts env s ops').sum ∧
      (∀ i, (run env s ops).points.isLive i = (run env s ops').points.isLive i ∧
        (run env s ops).points.point i = (run env s ops').points.point i ∧
        (run env s ops).points.generation i = (run env s ops').points.generation i) ∧
      (run env s ops).size = (run env s ops').size ∧
      (∀ x, (run env s ops).accepts x = (run env s ops').accepts x) ∧
      SameView env (run env s ops) (run env s ops') := by
  obtain ⟨o, hs⟩ := h.sound hB
  have hres : s.sqResolution = cfg.resolution * cfg.resolution := by rw [sqResolution, h.config.1]
  obtain ⟨hclears, o₁, hs₁⟩ := run_clears hops hs hn
  obtain ⟨hclears', o₂, hs₂⟩ := run_clears hops' hs hn'
  rw [hres] at hclears hclears'
  have hlive : ∀ i, (run env s ops).points.isLive i = (run env s ops').points.isLive i := by
    intro i
    rw [Bool.eq_iff_iff, hclears.isLive_iff, hclears'.isLive_iff]
    exact and_congr_right (fun hi => not_congr (heq i hi))
  have hsurvivor := fun i => hclears.survivor i
  have hsurvivor' := fun i => hclears'.survivor i
  have hperm := hclears.coordinates_perm hclears' heq
  refine ⟨?_, fun i => ⟨hlive i, (hsurvivor i).1.trans (hsurvivor' i).1.symm,
    (hsurvivor i).2.trans (hsurvivor' i).2.symm⟩, ?_, fun x => ?_, hs₁.sameView hs₂ hperm⟩
  · rw [hclears.count, hclears'.count]
    simp only [hlive]
  · rw [← hs₁.length_coordinates, ← hs₂.length_coordinates, hperm.length_eq]
  · have hpoint := fun i => (hsurvivor i).1.trans (hsurvivor' i).1.symm
    have hsame : (run env s ops).sqResolution = (run env s ops').sqResolution := by
      rw [sqResolution, sqResolution, run_cfg, run_cfg]
    rw [Bool.eq_iff_iff, accepts_iff x hs₁, accepts_iff x hs₂]
    simp only [hlive, hpoint, hsame]

def lineRun : KDTreeImpl 2 ℚ :=
  run exactEnv (start (plane 4 (1 / 4))) [.insert [![0, 0], ![1, 0], ![2, 0], ![3, 0]]]

theorem lineRun_reachable : Reachable exactEnv (plane 4 (1 / 4)) lineRun :=
  reachable_run (plane_accepted (by decide) (by norm_num)) (by decide +kernel)

def boxedCalls : List (Op 2 ℚ) := [.boxDelete [⟨fun _ => val 0, ![val 1, val 0]⟩]]

def scatteredCalls : List (Op 2 ℚ) := [.remove [![1, 0]], .rebuildAll, .radiusCrop ![5 / 2, 0] 1]

theorem deletions_confluent_plane :
    (counts exactEnv lineRun boxedCalls).sum = (counts exactEnv lineRun scatteredCalls).sum ∧
      SameView exactEnv (run exactEnv lineRun boxedCalls) (run exactEnv lineRun scatteredCalls) := by
  have hsame : ∀ i < 4,
      ((∃ op ∈ boxedCalls, op.deletes (1 / 10 * (1 / 10)) (lineRun.points.point i) = true) ↔
        ∃ op ∈ scatteredCalls,
          op.deletes (1 / 10 * (1 / 10)) (lineRun.points.point i) = true) := by
    decide +kernel
  have hcapacity : lineRun.points.capacity = 4 := by decide +kernel
  have hboth := deletions_confluent (by decide) lineRun_reachable (by simp [boxedCalls])
    (by simp [scatteredCalls]) (runMeets_noWrap (by decide +kernel))
    (runMeets_noWrap (by decide +kernel))
    (fun i hi => hsame i (hcapacity ▸ lt_of_isLive hi))
  exact ⟨hboth.1, hboth.2.2.2.2⟩

/-- What a search reports stays a correct answer after any deletions that spare the points it
names, and searching again gives the same distances. -/
theorem search_spared (hB : 2 * cfg.leafBucketSize ≤ 65535) (h : Reachable env cfg s)
    (hops : ∀ op ∈ ops, ∀ batch, op ≠ .insert batch)
    (hn : ∀ pre, pre <+: ops → (run env s pre).NoWrap) (query : Point Dim K) (k : ℕ)
    (bound : WithTop K)
    (hspared : ∀ x ∈ search env.std s.pools s.points s.root query k bound, ∀ op ∈ ops,
      op.deletes (cfg.resolution * cfg.resolution) x.coord = false) :
    Nearest (run env s ops).points query k bound
        (search env.std s.pools s.points s.root query k bound) ∧
      (search env.std (run env s ops).pools (run env s ops).points (run env s ops).root query k
        bound).map Neighbor.sqDist =
        (search env.std s.pools s.points s.root query k bound).map Neighbor.sqDist := by
  obtain ⟨o, hs⟩ := h.sound hB
  have hres : s.sqResolution = cfg.resolution * cfg.resolution := by rw [sqResolution, h.config.1]
  obtain ⟨hclears, o₁, hs₁⟩ := run_clears hops hs hn
  rw [hres] at hclears
  have hstays := (hs.search_nearest env.std query k bound).spared hclears (fun x hx => by
    rintro ⟨op, hop, hdeletes⟩
    rw [hspared x hx op hop] at hdeletes
    cases hdeletes)
  exact ⟨hstays, (hs₁.search_nearest env.std query k bound).distances_eq hstays (List.Perm.refl _)⟩

theorem search_spared_plane :
    Nearest (run exactEnv lineRun scatteredCalls).points ![3, 0] (2 : ℕ) ⊤
      (search exactEnv.std lineRun.pools lineRun.points lineRun.root ![3, 0] 2 ⊤) :=
  (search_spared (by decide) lineRun_reachable (by simp [scatteredCalls])
    (runMeets_noWrap (by decide +kernel)) ![3, 0] 2 ⊤ (by decide +kernel)).1

end
end KDTreeImpl
end Copse

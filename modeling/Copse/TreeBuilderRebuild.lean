import Copse.TreeBuilderBuild
import Copse.TreeContents

set_option autoImplicit false

namespace Copse.TreeBuilder
open FramedStore PointStore

variable {Dim : ℕ} [NeZero Dim] {K : Type*} [Field K] [LinearOrder K]
variable {points : PointStore Dim K} {c : Counter} {B : ℕ} {indices : List ℕ} {t : Tree Dim K}

section
omit [NeZero Dim]

theorem foldl_expand_mem (points : PointStore Dim K) (indices : List ℕ) (b : BBox Dim K)
    (x : Point Dim K) (h : b.Mem x ∨ ∃ i ∈ indices, points.point i = x) :
    (indices.foldl (fun b i => b.expand (points.point i)) b).Mem x := by
  induction indices generalizing b with
  | nil => simpa using h
  | cons j js ih =>
    refine ih _ ?_
    rcases h with h | ⟨i, hi, rfl⟩
    · exact Or.inl (h.expand _)
    · rcases List.mem_cons.mp hi with rfl | hi
      · exact Or.inl (b.mem_expand_self _)
      · exact Or.inr ⟨i, hi, rfl⟩

theorem mem_bboxOf {i : ℕ} (hi : i ∈ indices) : (bboxOf points indices).Mem (points.point i) :=
  foldl_expand_mem points indices _ _ (Or.inr ⟨i, hi, rfl⟩)

omit [LinearOrder K] in
theorem stamp_valid (points : PointStore Dim K) (i : ℕ) :
    points.valid (stamp points i) = points.isLive i := by
  rw [Bool.eq_iff_iff, valid_iff]
  simp [stamp]

theorem Built.entries_perm (h : Built c points B indices t) :
    t.entries.Perm (indices.map (stamp points)) := by
  induction h with
  | leaf id offset bboxIdx indices small => exact List.Perm.refl _
  | node id dim split indices lo hi left right large perm half below above pivot _ _ ihl ihr =>
    have hboth := ihl.append ihr
    rw [← List.map_append] at hboth
    exact hboth.trans (perm.map _)

theorem Built.validIn_perm (h : Built c points B indices t)
    (hlive : ∀ i ∈ indices, points.isLive i = true) : (t.validIn points).Perm indices := by
  have hfilter : (indices.map (stamp points)).filter points.valid =
      indices.map (stamp points) := by
    rw [List.filter_eq_self]
    intro e he
    obtain ⟨i, hi, rfl⟩ := List.mem_map.mp he
    rw [stamp_valid]
    exact hlive i hi
  have hperm := (h.entries_perm.filter points.valid).map BucketEntry.index
  rw [hfilter, List.map_map] at hperm
  exact hperm.trans (by simp [Function.comp_def, stamp])

theorem Built.mem_validIn_iff (h : Built c points B indices t)
    (hlive : ∀ i ∈ indices, points.isLive i = true) (i : ℕ) :
    i ∈ t.validIn points ↔ i ∈ indices := (h.validIn_perm hlive).mem_iff

theorem Built.placed (h : Built c points B indices t)
    (hlive : ∀ i ∈ indices, points.isLive i = true) : t.Placed points := by
  induction h with
  | leaf id offset bboxIdx indices small =>
    intro i hi
    refine mem_bboxOf ?_
    exact (Built.leaf id offset bboxIdx indices small : Built c points B indices _).mem_validIn_iff
      hlive i |>.mp hi
  | node id dim split indices lo hi left right large perm half below above pivot hl hr ihl ihr =>
    have hlo : ∀ i ∈ lo, points.isLive i = true :=
      fun i hi => hlive i (perm.mem_iff.mp (List.mem_append_left _ hi))
    have hhi : ∀ i ∈ hi, points.isLive i = true :=
      fun i hi => hlive i (perm.mem_iff.mp (List.mem_append_right _ hi))
    refine ⟨?_, ?_, ihl hlo, ihr hhi⟩
    · exact fun i hi => below i ((hl.mem_validIn_iff hlo i).mp hi)
    · exact fun i hi => above i ((hr.mem_validIn_iff hhi i).mp hi)

theorem Built.shape (h : Built c points B indices t) (hpos : 0 < B) : t.Shape B := by
  induction h with
  | leaf id offset bboxIdx indices small =>
    refine ⟨rfl, ?_⟩
    rw [List.length_map]
    omega
  | node id dim split indices lo hi left right large perm half below above pivot _ _ ihl ihr =>
    exact ⟨ihl, ihr⟩

theorem Built.stamped (h : Built c points B indices t) (fit : points.StampsFit)
    (hlt : ∀ i ∈ indices, i < points.capacity) : t.Stamped points := by
  intro e he
  obtain ⟨i, hi, rfl⟩ := List.mem_map.mp (h.entries_perm.mem_iff.mp he)
  exact ⟨hlt i hi, (generation_eq fit i).le⟩

theorem Built.counts (h : Built c points B indices t) :
    t.live = c.wrap indices.length ∧ t.total = c.wrap indices.length := by
  induction h with
  | leaf id offset bboxIdx indices small => exact ⟨rfl, rfl⟩
  | node id dim split indices lo hi left right large perm half below above pivot _ _ ihl ihr =>
    have hlen := perm.length_eq
    rw [List.length_append] at hlen
    have hsum : c.wrap (c.wrap lo.length + c.wrap hi.length) = c.wrap indices.length := by
      rw [Counter.wrap_wrap_add, add_comm, Counter.wrap_wrap_add, add_comm, ← hlen]
      push_cast
      rfl
    refine ⟨?_, ?_⟩
    · change c.wrap (left.live + right.live) = _
      rw [ihl.1, ihr.1, hsum]
    · change c.wrap (left.total + right.total) = _
      rw [ihl.2, ihr.2, hsum]

omit [LinearOrder K]

theorem collect_eq {p : Pools Dim K} (points : PointStore Dim K) (h : t.Rep p) (fuel : ℕ)
    (hfuel : t.height < fuel) :
    collectLiveIndicesInSubtree points fuel p t.id = t.validIn points := by
  induction t generalizing fuel with
  | leaf id live total offset cap bboxIdx es bbox =>
    cases fuel with
    | zero => omega
    | succ fuel =>
      rw [collectLiveIndicesInSubtree, h.node_eq]
      simp only [Tree.header]
      rw [h.view_eq]
      rfl
  | node id live total dim split left right ihl ihr =>
    cases fuel with
    | zero => omega
    | succ fuel =>
      rw [collectLiveIndicesInSubtree, h.node_eq]
      obtain ⟨-, -, -, -, hl, hr⟩ := h
      simp only [Tree.height] at hfuel
      simp only [Tree.header]
      rw [ihl hl fuel (by omega), ihr hr fuel (by omega), Tree.validIn_node]

/-- `t'` is a build over the valid slots of `t`, at the index of `t`. -/
structure Rebuilt (c : Counter) (points : PointStore Dim K) (B : ℕ) (t t' : Tree Dim K) :
    Prop where
  id_eq : t'.id = t.id
  built : Built c points B (t.validIn points) t'

theorem copy_update {p p' : Pools Dim K} {u : Tree Dim K} (h : t.Rep p) (hu : Appended p p' u) :
    t.Update p (p'.setNode t.id (p'.node u.id)) (u.withId t.id) := by
  have hid : t.id < u.id := by
    rw [hu.id_eq]
    exact h.id_lt
  have hlt : t.id < p'.nodes.length := hid.trans hu.rep.id_lt
  have hset : (p'.setNode t.id (p'.node u.id)).nodes[t.id]? = some (u.withId t.id).header := by
    rw [hu.rep.node_eq]
    simp [Pools.setNode, hlt]
  have hsub : ∀ a ∈ (u.withId t.id).addrs, a = .node t.id ∨ a ∈ u.addrs := by
    cases u with
    | leaf id live total offset cap bboxIdx es bbox => exact fun a ha => ha.imp_right Or.inr
    | node id live total dim split left right => exact fun a ha => ha.imp_right Or.inr
  refine ⟨?_, by simp, ?_⟩
  · cases u with
    | leaf id live total offset cap bboxIdx es bbox =>
      obtain ⟨-, hrest⟩ := hu.rep
      exact ⟨hset, hrest⟩
    | node id live total dim split left right =>
      obtain ⟨-, hlt', hrt', hd, hl, hr⟩ := hu.rep
      have hlid : t.id < left.id := hid.trans hlt'
      have hrid : t.id < right.id := hid.trans hrt'
      refine ⟨hset, hlid, hrid, hd, hl.frame ?_, hr.frame ?_⟩
      · intro a ha
        rw [Tree.read_setNode hlt, if_neg]
        rintro rfl
        exact hl.not_mem_of_lt hlid ha
      · intro a ha
        rw [Tree.read_setNode hlt, if_neg]
        rintro rfl
        exact hr.not_mem_of_lt hrid ha
  · refine ⟨?_, ?_, ?_⟩
    · intro a ha hp
      rw [Tree.read_setNode hlt, if_neg]
      · exact hu.framed.keep a (Set.notMem_empty a) hp
      · rintro rfl
        exact ha t.id_mem_addrs
    · intro a ha
      rw [Tree.read_setNode hlt]
      split_ifs
      · simp
      · exact hu.framed.grow a ha
    · intro a ha
      rcases hsub a ha with rfl | ha
      · exact Or.inl t.id_mem_addrs
      · exact Or.inr ((hu.framed.fresh a ha).resolve_left (Set.notMem_empty a))

end

theorem rebuildSubtreeInPlace_grown (env : Env K) (p : Pools Dim K) (i : ℕ) :
    Pools.Grown p (rebuildSubtreeInPlace env points B p i) :=
  (buildRecursive_grown _ _ _).trans (Pools.setNode_grown _ _ _)

theorem rebuildSubtreeInPlace_spec (env : Env K) {p : Pools Dim K} (hpos : 0 < B)
    (hB : 2 * B < 2 ^ 16) (h : t.Rep p)
    (fit : (rebuildSubtreeInPlace env points B p t.id).Fit) :
    ∃ t', Rebuilt env.counter points B t t' ∧
      t.Update p (rebuildSubtreeInPlace env points B p t.id) t' := by
  have hcollect := collect_eq points h p.nodes.length (by have := h.height_lt; omega)
  rw [rebuildSubtreeInPlace, hcollect] at fit ⊢
  have fit' := fit.of_grown (Pools.setNode_grown _ _ _)
  obtain ⟨u, hu, built, app⟩ := buildRecursive_spec hpos hB _ p (t.validIn points) le_rfl fit'
  dsimp only
  rw [hu]
  exact ⟨u.withId t.id, ⟨by simp, built.withId t.id⟩, copy_update h app⟩

end Copse.TreeBuilder

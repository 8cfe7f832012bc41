import Copse.PoolPaths

set_option autoImplicit false

namespace Copse
open FramedStore PointStore TreeBuilder TransitionRuns

namespace TreeBuilder
variable {Dim : ℕ} [NeZero Dim] {K : Type*} [Field K] [LinearOrder K]
variable {p : Pools Dim K} {t : Tree Dim K}

/-- A delete leaves the tree with other live counts, whatever it releases. -/
def Recounted (p : Pools Dim K) (t : Tree Dim K) (p' : Pools Dim K) : Prop :=
  ∃ t', t'.dropLive = t.dropLive ∧ t.Update p p' t'

section
omit [NeZero Dim] [LinearOrder K]

omit [Field K] in
theorem Recounted.refl (h : t.Rep p) : Recounted p t p := ⟨t, rfl, Tree.Update.refl h⟩

theorem Recounted.leaf (h : t.Rep p) (c : Counter) (k : ℤ) :
    Recounted p t (p.modifyNode t.id (TreeNode.addLive c k)) :=
  ⟨_, t.dropLive_addLive c k, h.update_addLive c k⟩

theorem Recounted.node {id : ℕ} {live total : ℤ} {dim : Fin Dim} {split : K}
    {left right : Tree Dim K} {p₁ p₂ : Pools Dim K}
    (h : (Tree.node id live total dim split left right).Rep p) (hl : Recounted p left p₁)
    (hr : right.Rep p₁ → Recounted p₁ right p₂) (c : Counter) (k : ℤ) :
    Recounted p (.node id live total dim split left right)
      (p₂.modifyNode id (TreeNode.addLive c k)) := by
  obtain ⟨left', hdl, hul⟩ := hl
  have hup := h.update_left hul
  obtain ⟨right', hdr, hur⟩ := hr hup.rep.right
  have hup' := (hup.trans (hup.rep.update_right hur)).addLive_root c k
  refine ⟨_, ?_, hup'⟩
  rw [Tree.dropLive_addLive, Tree.dropLive, Tree.dropLive, hdl, hdr]

theorem releaseSubtree_recounted (c : Counter) (points : PointStore Dim K) (h : t.Rep p) (fuel : ℕ)
    (hfuel : t.height < fuel) : Recounted p t (releaseSubtree c fuel p points t.id).pools := by
  induction t generalizing p points fuel with
  | leaf id live total offset cap bboxIdx es bbox =>
    obtain ⟨fuel, rfl⟩ : ∃ n, fuel = n + 1 := ⟨fuel - 1, by omega⟩
    simp only [releaseSubtree, Tree.id_leaf, h.leaf_body]
    exact .leaf h c _
  | node id live total dim split left right ihl ihr =>
    obtain ⟨fuel, rfl⟩ : ∃ n, fuel = n + 1 := ⟨fuel - 1, by omega⟩
    simp only [Tree.height] at hfuel
    simp only [releaseSubtree, Tree.id_node, h.node_body]
    exact .node h (ihl points h.left fuel (by omega)) (fun hr => ihr _ hr fuel (by omega)) c _

end

omit [NeZero Dim] in
theorem deleteRecurse_recounted (c : Counter) (rg : Region Dim K) (points : PointStore Dim K)
    (h : t.Rep p) (fuel : ℕ) (hfuel : t.height < fuel) (partition : BBox Dim K)
    (modified : List ℕ) :
    Recounted p t (deleteRecurse c rg fuel p points t.id partition modified).pools := by
  have release : ∀ {p : Pools Dim K} {t : Tree Dim K}, t.Rep p → ∀ points : PointStore Dim K,
      Recounted p t (releaseSubtree c p.nodes.length p points t.id).pools := by
    intro p t h points
    have hheight := h.height_lt
    exact releaseSubtree_recounted c points h _ (by omega)
  induction fuel generalizing p points t partition modified with
  | zero => omega
  | succ fuel ih =>
    rw [deleteRecurse]
    split_ifs
    · exact .refl h
    · exact release h points
    cases t with
    | leaf id live total offset cap bboxIdx es bbox =>
      simp only [Tree.id_leaf, h.leaf_body]
      split_ifs
      · exact .refl h
      · exact release h points
      · exact .leaf h c _
    | node id live total dim split left right =>
      simp only [Tree.height] at hfuel
      simp only [Tree.id_node, h.node_body]
      exact .node h (ih points h.left (by omega) _ _) (fun hr => ih _ hr (by omega) _ _) c _

variable {b : TreeBuilder K} {points : PointStore Dim K} {visit : ℕ → Bool}

theorem sweepChild_spec (hpos : 0 < b.leafBucketSize) (hB : 2 * b.leafBucketSize < 2 ^ 16)
    (h : t.Rep p) (hs : t.Shape b.leafBucketSize) (fuel : ℕ) (hfuel : t.height < fuel)
    (fit : (b.sweepChild points visit fuel p t.id).Fit) :
    ∃ t', Swept b points visit (visit t.id) t t' ∧
      t.Update p (b.sweepChild points visit fuel p t.id) t' := by
  cases hv : visit t.id with
  | true =>
    simp only [sweepChild, hv, ↓reduceIte] at fit ⊢
    exact sweep_spec hpos hB h hs fuel hfuel fit
  | false =>
    simp only [sweepChild, hv, Bool.false_eq_true, ↓reduceIte]
    exact ⟨t, .skip t, Tree.Update.refl h⟩

/-- The calls of a sweep, each with the pools it is made on and its node. -/
def sweepCalls (b : TreeBuilder K) (points : PointStore Dim K) (visit : ℕ → Bool) :
    ℕ → Pools Dim K → ℕ → List (Pools Dim K × ℕ)
  | 0, p, nodeIdx => [(p, nodeIdx)]
  | fuel + 1, p, nodeIdx =>
    (p, nodeIdx) ::
      if nodeIdx = invalid then []
      else
        match (p.node nodeIdx).body with
        | .leaf .. => []
        | .internal _ _ left right =>
          if b.isViolator p nodeIdx then []
          else
            let q := b.sweepChild points visit fuel p left
            (if visit left then sweepCalls b points visit fuel p left else []) ++
              if visit right then sweepCalls b points visit fuel q right else []

/-- A sweep does the same with more fuel, and each of its calls is on a represented tree. -/
theorem sweep_fuel (hpos : 0 < b.leafBucketSize) (hB : 2 * b.leafBucketSize < 2 ^ 16)
    (h : t.Rep p) (hs : t.Shape b.leafBucketSize) {n fuel : ℕ} (hn : t.height < n)
    (hfuel : n ≤ fuel) (fit : (b.sweep points visit n p t.id).Fit) :
    b.sweep points visit fuel p t.id = b.sweep points visit n p t.id ∧
      ∀ m ∈ b.sweepCalls points visit n p t.id, ∃ u : Tree Dim K, u.Rep m.1 ∧ u.id = m.2 := by
  induction n generalizing fuel p t with
  | zero => omega
  | succ n ih =>
    obtain ⟨fuel, rfl⟩ : ∃ m, fuel = m + 1 := ⟨fuel - 1, by omega⟩
    have hvalid := h.id_valid (fit.of_grown (sweep_grown _ _ _))
    have child : ∀ {q : Pools Dim K} {u : Tree Dim K}, u.Rep q → u.Shape b.leafBucketSize →
        u.height < n → (b.sweepChild points visit n q u.id).Fit →
        b.sweepChild points visit fuel q u.id = b.sweepChild points visit n q u.id ∧
          ∀ m ∈ if visit u.id then b.sweepCalls points visit n q u.id else [],
            ∃ v : Tree Dim K, v.Rep m.1 ∧ v.id = m.2 := by
      intro q u hu hsu hheight hfit
      unfold sweepChild at hfit ⊢
      split_ifs at hfit ⊢
      · exact ih hu hsu hheight (by omega) hfit
      · exact ⟨rfl, by simp⟩
    cases t with
    | leaf id live total offset cap bboxIdx es bbox =>
      refine ⟨?_, ?_⟩
      · rw [sweep_leaf fuel hvalid h.leaf_body, sweep_leaf n hvalid h.leaf_body]
      · rw [sweepCalls, if_neg hvalid, Tree.id_leaf, h.leaf_body]
        exact List.forall_mem_singleton.mpr ⟨_, h, rfl⟩
    | node id live total dim split left right =>
      simp only [Tree.height] at hn
      have hbody := h.node_body
      simp only [Tree.id_node] at hvalid fit ⊢
      rw [sweep_internal fuel hvalid hbody, sweep_internal n hvalid hbody]
      rw [sweep_internal n hvalid hbody] at fit
      rw [sweepCalls, if_neg hvalid, hbody]
      dsimp only
      by_cases hvio : b.isViolator p id = true
      · rw [if_pos hvio, if_pos hvio, if_pos hvio]
        exact ⟨rfl, List.forall_mem_singleton.mpr ⟨_, h, rfl⟩⟩
      · rw [if_neg hvio] at fit
        have fit₂ := fit.of_grown (sweepAgain_grown _ _)
        have fit₁ := fit₂.of_grown (sweepChild_grown _ _ _)
        obtain ⟨left', -, hul⟩ := sweepChild_spec hpos hB h.left hs.1 n (by omega) fit₁
        have hright := (h.update_left hul).rep.right
        obtain ⟨hl, hcalls⟩ := child h.left hs.1 (by omega) fit₁
        obtain ⟨hr, hcalls'⟩ := child hright hs.2 (by omega) fit₂
        rw [if_neg hvio, if_neg hvio, if_neg hvio, hl, hr]
        refine ⟨rfl, List.forall_mem_cons.mpr ⟨⟨_, h, rfl⟩, ?_⟩⟩
        exact List.forall_mem_append.mpr ⟨hcalls, hcalls'⟩

end TreeBuilder

namespace Pools
variable {Dim : ℕ} {K : Type*} [Field K]

/-- Whatever is read on the way down from a node lies in the pools. -/
def InRange (p : Pools Dim K) (root : ℕ) : Prop :=
  ∀ d i, p.Below root d i → i < p.nodes.length ∧
    ∀ offset size cap bboxIdx, (p.node i).body = .leaf offset size cap bboxIdx →
      size ≤ cap ∧ (∀ j < cap, offset + j < p.leafBuckets.data.length) ∧
        bboxIdx < p.leafBBoxes.length

/-- Node `j` is a child of node `i`, which is reached from the root. -/
def ChildBelow (p : Pools Dim K) (root j i : ℕ) : Prop :=
  ∃ d dim split left right, p.Below root d i ∧ (p.node i).body = .internal dim split left right ∧
    (j = left ∨ j = right)

end Pools

namespace Tree
variable {Dim : ℕ} {K : Type*} [Field K] {p : Pools Dim K} {t u : Tree Dim K} {d i : ℕ}

theorem Rep.below_leaf (h : t.Rep p) {offset size cap bboxIdx : ℕ} (hb : p.Below t.id d i)
    (hbody : (p.node i).body = .leaf offset size cap bboxIdx) :
    ∃ live total es bbox, es.length = size ∧
      t.Sub d (.leaf i live total offset cap bboxIdx es bbox) := by
  obtain ⟨u, hs, rfl⟩ := h.below_iff.mp hb
  cases u with
  | leaf id live total offset' cap' bboxIdx' es bbox =>
    rw [id_leaf, (hs.rep h).leaf_body] at hbody
    injection hbody with h₁ h₂ h₃ h₄
    subst h₁ h₃ h₄
    exact ⟨live, total, es, bbox, h₂, hs⟩
  | node id live total dim split left right =>
    rw [id_node, (hs.rep h).node_body] at hbody
    cases hbody

theorem Rep.below_node (h : t.Rep p) {l r : ℕ} {dim : Fin Dim} {split : K}
    (hb : p.Below t.id d i) (hbody : (p.node i).body = .internal dim split l r) :
    ∃ live total left right, left.id = l ∧ right.id = r ∧
      t.Sub d (.node i live total dim split left right) := by
  obtain ⟨u, hs, rfl⟩ := h.below_iff.mp hb
  cases u with
  | leaf id live total offset cap bboxIdx es bbox =>
    rw [id_leaf, (hs.rep h).leaf_body] at hbody
    cases hbody
  | node id live total dim' split' left right =>
    rw [id_node, (hs.rep h).node_body] at hbody
    injection hbody with hdim hsplit hleft hright
    subst hdim hsplit
    exact ⟨live, total, left, right, hleft, hright, hs⟩

theorem Rep.inRange (h : t.Rep p) : p.InRange t.id := by
  intro d i hb
  obtain ⟨u, hs, rfl⟩ := h.below_iff.mp hb
  refine ⟨(hs.rep h).id_lt, fun offset size cap bboxIdx hbody => ?_⟩
  obtain ⟨live, total, es, bbox, rfl, hs'⟩ := h.below_leaf hb hbody
  obtain ⟨-, hle, hlen, -, hbox⟩ := hs'.rep h
  exact ⟨hle, hlen, (List.getElem?_eq_some_iff.mp hbox).choose⟩

omit [Field K] in
theorem Sub.shape [LinearOrder K] {B : ℕ} (h : t.Sub d u) (hs : t.Shape B) : u.Shape B := by
  induction h with
  | refl t => exact hs
  | left _ _ _ _ _ _ ih => exact ih hs.1
  | right _ _ _ _ _ _ ih => exact ih hs.2

end Tree

namespace KDTreeImpl
variable {Dim : ℕ} [NeZero Dim] {K : Type*} [Field K] [LinearOrder K]

/-- The pools hold `t` below the root, with buckets that are not full. -/
structure Planted (s : KDTreeImpl Dim K) (t : Tree Dim K) : Prop where
  rep : t.Rep s.pools
  root : t.id = s.root
  shape : t.Shape s.cfg.leafBucketSize

/-- Below a proper root, children come later in the pool, every node is reached on one path,
and leaves that are not full own separate slices and boxes of the pools. -/
structure WellFormed (s : KDTreeImpl Dim K) : Prop where
  inRange : s.pools.InRange s.root
  children : ∀ {d i left right : ℕ} {dim : Fin Dim} {split : K}, s.pools.Below s.root d i →
    (s.pools.node i).body = .internal dim split left right →
    (i < left ∧ left < s.pools.nodes.length) ∧ i < right ∧ right < s.pools.nodes.length
  onePath : ∀ {path path' : List Bool} {i : ℕ}, s.pools.follow s.root path = some i →
    s.pools.follow s.root path' = some i → path = path'
  leaf : ∀ {d i offset size cap bboxIdx : ℕ}, s.pools.Below s.root d i →
    (s.pools.node i).body = .leaf offset size cap bboxIdx →
    size < cap ∧ cap = 2 * s.cfg.leafBucketSize ∧ offset + cap ≤ s.pools.leafBuckets.data.length ∧
      bboxIdx < s.pools.leafBBoxes.length
  apart : ∀ {d e i j offset size cap bboxIdx offset' size' cap' bboxIdx' : ℕ},
    s.pools.Below s.root d i → (s.pools.node i).body = .leaf offset size cap bboxIdx →
    s.pools.Below s.root e j → (s.pools.node j).body = .leaf offset' size' cap' bboxIdx' → i ≠ j →
    Disjoint (Finset.Ico offset (offset + cap)) (Finset.Ico offset' (offset' + cap')) ∧
      bboxIdx ≠ bboxIdx'
  pushed : ∀ {d e i j offset size cap bboxIdx offset' size' cap' bboxIdx' : ℕ},
    s.pools.Below s.root d i → (s.pools.node i).body = .leaf offset size cap bboxIdx →
    s.pools.Below s.root e j → (s.pools.node j).body = .leaf offset' size' cap' bboxIdx' → i ≠ j →
    ∀ entry, (s.pools.leafBuckets.push offset size cap entry).1.view offset' size' =
      s.pools.leafBuckets.view offset' size'

/-- Below a proper root no descent goes on for ever: the pool size is fuel enough for every loop and
recursion, and a sweep stays in range while it replaces subtrees. -/
structure Terminating (env : Env K) (s : KDTreeImpl Dim K) : Prop where
  wellFounded : WellFounded (s.pools.ChildBelow s.root)
  collect : ∀ {d i fuel : ℕ} (points : PointStore Dim K), s.pools.Below s.root d i →
    s.pools.nodes.length ≤ fuel →
    collectLiveIndicesInSubtree points fuel s.pools i =
      collectLiveIndicesInSubtree points s.pools.nodes.length s.pools i
  insertIndex : ∀ {d i fuel : ℕ} (points : PointStore Dim K) (index : ℕ),
    s.pools.Below s.root d i → s.pools.nodes.length ≤ fuel →
    (s.builder env).insertIndex points index fuel s.pools i =
      (s.builder env).insertIndex points index s.pools.nodes.length s.pools i
  tombstoneIndex : ∀ {d i fuel : ℕ} (x : Point Dim K) (modified : List ℕ),
    s.pools.Below s.root d i → s.pools.nodes.length ≤ fuel →
    TreeBuilder.tombstoneIndex env.counter x fuel s.pools i modified =
      TreeBuilder.tombstoneIndex env.counter x s.pools.nodes.length s.pools i modified
  releaseSubtree : ∀ {d i fuel : ℕ} (points : PointStore Dim K), s.pools.Below s.root d i →
    s.pools.nodes.length ≤ fuel →
    TreeBuilder.releaseSubtree env.counter fuel s.pools points i =
      TreeBuilder.releaseSubtree env.counter s.pools.nodes.length s.pools points i
  deleteRecurse : ∀ {d i fuel : ℕ} (rg : Region Dim K) (points : PointStore Dim K)
    (partition : BBox Dim K) (modified : List ℕ), s.pools.Below s.root d i →
    s.pools.nodes.length ≤ fuel →
    TreeBuilder.deleteRecurse env.counter rg fuel s.pools points i partition modified =
      TreeBuilder.deleteRecurse env.counter rg s.pools.nodes.length s.pools points i partition
        modified
  sweep : ∀ {d i fuel : ℕ} (points : PointStore Dim K) (visit : ℕ → Bool),
    s.pools.Below s.root d i → s.pools.nodes.length ≤ fuel →
    ((s.builder env).sweep points visit s.pools.nodes.length s.pools i).Fit →
    (s.builder env).sweep points visit fuel s.pools i =
        (s.builder env).sweep points visit s.pools.nodes.length s.pools i ∧
      ∀ m ∈ (s.builder env).sweepCalls points visit s.pools.nodes.length s.pools i,
        m.1.InRange m.2
  descend : ∀ {d i fuel : ℕ} (points : PointStore Dim K) (query : Point Dim K) (kMax : ℕ)
    (minSqDist : K) (best : SearchKernel.Best Dim K), s.pools.Below s.root d i →
    s.pools.nodes.length ≤ fuel →
    SearchKernel.descend env.std s.pools points query kMax fuel i minSqDist best =
      SearchKernel.descend env.std s.pools points query kMax s.pools.nodes.length i minSqDist best
  collectDescend : ∀ {d i fuel : ℕ} (points : PointStore Dim K) (query : Point Dim K)
    (sqRadius : K), s.pools.Below s.root d i → s.pools.nodes.length ≤ fuel →
    SearchKernel.collectDescend s.pools points query sqRadius fuel i =
      SearchKernel.collectDescend s.pools points query sqRadius s.pools.nodes.length i
  anyWithinDescend : ∀ {d i fuel : ℕ} (points : PointStore Dim K) (query : Point Dim K)
    (sqRadius : K), s.pools.Below s.root d i → s.pools.nodes.length ≤ fuel →
    SearchKernel.anyWithinDescend s.pools points query sqRadius fuel i =
      SearchKernel.anyWithinDescend s.pools points query sqRadius s.pools.nodes.length i

def Shaped (s : KDTreeImpl Dim K) : Prop := s.root = invalid ∨ ∃ t, Planted s t

section
variable {env : Env K} {cfg : Config K} {s : KDTreeImpl Dim K}

omit [NeZero Dim] [LinearOrder K] in
theorem Planted.height_lt {t : Tree Dim K} (h : Planted s t) :
    t.height < s.pools.nodes.length := by
  have hlt := h.rep.height_lt
  omega

omit [NeZero Dim] [LinearOrder K] in
theorem Planted.recounted {t : Tree Dim K} {p : Pools Dim K} (h : Planted s t)
    (hr : Recounted s.pools t p) (points : PointStore Dim K) (modified : List ℕ) :
    Shaped { s with pools := p, points := points, modifiedNodes := modified } := by
  obtain ⟨t', hdrop, hup⟩ := hr
  exact Or.inr ⟨t', hup.rep, hup.id_eq.trans h.root, Tree.shape_of_dropLive hdrop h.shape⟩

theorem rebuild_shaped (env : Env K) (hpos : 0 < s.cfg.leafBucketSize)
    (hB : 2 * s.cfg.leafBucketSize < 2 ^ 16) (indices : List ℕ)
    (fit : (s.rebuild env indices).pools.Fit) : Shaped (s.rebuild env indices) := by
  by_cases hne : indices = []
  · left
    simp only [rebuild, hne, ↓reduceIte]
  · rw [rebuild_eq env hne] at fit ⊢
    obtain ⟨t, hroot, built, app⟩ := buildRecursive_spec hpos hB _ s.pools indices le_rfl fit
    exact Or.inr ⟨t, app.rep, hroot.symm, built.shape hpos⟩

theorem sweep_shaped (env : Env K) (hpos : 0 < s.cfg.leafBucketSize)
    (hB : 2 * s.cfg.leafBucketSize < 2 ^ 16) (h : Shaped s) (visit : ℕ → Bool)
    (fit : ((s.builder env).sweep s.points visit s.pools.nodes.length s.pools s.root).Fit) :
    Shaped
      { s with
        pools := (s.builder env).sweep s.points visit s.pools.nodes.length s.pools s.root
        modifiedNodes := [] } := by
  rcases h with hroot | ⟨t, ht⟩
  · exact Or.inl hroot
  · rw [← ht.root] at fit
    obtain ⟨t', swept, hup⟩ := sweep_spec (b := s.builder env) hpos hB ht.rep ht.shape _ ht.height_lt
      fit
    rw [ht.root] at hup
    exact Or.inr ⟨t', hup.rep, hup.id_eq.trans ht.root, swept.renewed.shape hpos ht.shape⟩

theorem act_shaped (env : Env K) (a : Action Dim K) (hpos : 0 < s.cfg.leafBucketSize)
    (hB : 2 * s.cfg.leafBucketSize < 2 ^ 16) (h : Shaped s) (fit : (s.act env a).pools.Fit) :
    Shaped (s.act env a) := by
  cases a with
  | insertPoint x =>
    cases hx : s.accepts x with
    | false =>
      rw [act_rejected env hx]
      exact h
    | true =>
      rw [act_inserts env hx] at fit ⊢
      simp only [acceptPoint] at fit ⊢
      split_ifs at fit ⊢ with hroot
      · exact rebuild_shaped (s := { s with points := (s.points.acquire x).1 }) env hpos hB _ fit
      · obtain ⟨t, ht⟩ := h.resolve_left hroot
        simp only [insertIndex, ← ht.root] at fit ⊢
        obtain ⟨t', ins, hup⟩ := insertIndex_spec (b := s.builder env) hpos hB ht.rep ht.shape _
          ht.height_lt fit
        exact Or.inr ⟨t', hup.rep, hup.id_eq, ins.shape hpos ht.shape⟩
  | removeIndex i =>
    rcases h with hroot | ⟨t, ht⟩
    · exact Or.inl hroot
    · have hup := tombstoneIndex_spec env.counter (s.points.point i) ht.rep _ ht.height_lt
        s.modifiedNodes
      rw [ht.root] at hup
      exact ht.recounted ⟨_, t.dropLive_tombstone _ _, hup⟩ _ _
  | deleteRegion rg =>
    simp only [act, deleteRegion]
    split_ifs with hroot
    · exact h
    · obtain ⟨t, ht⟩ := h.resolve_left hroot
      have hre := deleteRecurse_recounted env.counter rg s.points ht.rep _ ht.height_lt s.rootBBox
        s.modifiedNodes
      rw [ht.root] at hre
      exact ht.recounted hre _ _
  | sweepFull =>
    simp only [act, maybePartialRebuildFull] at fit ⊢
    split_ifs at fit ⊢ with hroot
    · exact Or.inl hroot
    · exact sweep_shaped env hpos hB h _ fit
  | sweep =>
    simp only [act, maybePartialRebuild] at fit ⊢
    split_ifs at fit ⊢
    · rcases h with hroot | ⟨t, ht⟩
      · exact Or.inl hroot
      · exact Or.inr ⟨t, ht.rep, ht.root, ht.shape⟩
    · exact sweep_shaped env hpos hB h _ fit
    · exact sweep_shaped env hpos hB h _ fit
  | rebuildAll =>
    simp only [act, rebuildAll] at fit ⊢
    split_ifs at fit ⊢
    · exact Or.inl rfl
    · exact rebuild_shaped (s := { s with pools := Pools.clear }) env hpos hB _ fit

variable [IsStrictOrderedRing K]

/-- States reached by any calls as long as the pool indices fit. -/
def PoolsReachable (env : Env K) (cfg : Config K) : KDTreeImpl Dim K → Prop :=
  Reach (fun s => create cfg = .ok s)
    (fun s (op : Op Dim K) s' => s' = (s.apply env op).1 ∧ s'.pools.Fit)

theorem steps_fit {op : Op Dim K} (h : (s.apply env op).1.pools.Fit) :
    ∀ m ∈ s.steps env op, (m.1.act env m.2).pools.Fit := by
  by_cases hop : op = .rebuildAll
  · subst hop
    exact List.forall_mem_singleton.mpr h
  · exact fun m hm => h.of_grown (steps_later hop m hm).pools

theorem steps_fit_before {op : Op Dim K} (fit : s.pools.Fit) (h : (s.apply env op).1.pools.Fit) :
    ∀ m ∈ s.steps env op, m.1.pools.Fit :=
  ((steps_chain env s op).invariant (P := fun s => s.pools.Fit)
    (fun m hm _ => steps_fit h m hm) fit).1

theorem steps_shaped {op : Op Dim K} (hB : 2 * cfg.leafBucketSize ≤ 65535)
    (hcfg : s.cfg = cfg ∧ Accepted cfg) (h : Shaped s) (fit : (s.apply env op).1.pools.Fit) :
    (∀ m ∈ s.steps env op, m.1.cfg = cfg ∧ Shaped m.1) ∧
      (s.apply env op).1.cfg = cfg ∧ Shaped (s.apply env op).1 := by
  refine (steps_chain env s op).invariant (P := fun s => s.cfg = cfg ∧ Shaped s) ?_ ⟨hcfg.1, h⟩
  rintro m hm ⟨hc, hs⟩
  have hpos := hcfg.2.leafBucketSize
  exact ⟨(act_cfg env m.2).1.trans hc, act_shaped env m.2 (by rw [hc]; exact hpos)
    (by rw [hc]; omega) hs (steps_fit fit m hm)⟩

omit [NeZero Dim] [Field K] [LinearOrder K] [IsStrictOrderedRing K] in
theorem clear_fit : (Pools.clear : Pools Dim K).Fit := by
  have small : 0 < 2 ^ 32 := by decide
  exact ⟨small, small, small⟩

theorem Reachable.poolsReachable (h : Reachable env cfg s) : PoolsReachable env cfg s :=
  h.map id (fun _ hs => hs.1) (fun _ _ _ hs => ⟨hs.1, hs.2.pools⟩)

theorem PoolsReachable.shaped (hB : 2 * cfg.leafBucketSize ≤ 65535) (h : PoolsReachable env cfg s) :
    (s.cfg = cfg ∧ Accepted cfg) ∧ s.pools.Fit ∧ Shaped s := by
  refine Reach.invariant
    (P := fun s => (s.cfg = cfg ∧ Accepted cfg) ∧ s.pools.Fit ∧ Shaped s) ?_ ?_ h
  · intro s hs
    have hf := create_fresh hs
    exact ⟨⟨hf.config, hf.accepted⟩, hf.pools ▸ clear_fit, Or.inl hf.root⟩
  · rintro s op s' - ⟨hcfg, -, hs⟩ ⟨rfl, fit⟩
    obtain ⟨-, hcfg', hs'⟩ := steps_shaped hB hcfg hs fit
    exact ⟨⟨hcfg', hcfg.2⟩, fit, hs'⟩

omit [NeZero Dim] [LinearOrder K] [IsStrictOrderedRing K] in
theorem Planted.children {t : Tree Dim K} (h : Planted s t) {d i left right : ℕ} {dim : Fin Dim}
    {split : K} (hb : s.pools.Below s.root d i)
    (hbody : (s.pools.node i).body = .internal dim split left right) :
    (i < left ∧ left < s.pools.nodes.length) ∧ i < right ∧ right < s.pools.nodes.length := by
  obtain ⟨live, total, l, r, rfl, rfl, hs⟩ := h.rep.below_node (h.root ▸ hb) hbody
  have hrep := hs.rep h.rep
  exact ⟨⟨hrep.2.1, hrep.left.id_lt⟩, hrep.2.2.1, hrep.right.id_lt⟩

omit [IsStrictOrderedRing K] in
theorem Planted.terminating (env : Env K) {t : Tree Dim K} (h : Planted s t)
    (hpos : 0 < s.cfg.leafBucketSize) (hB : 2 * s.cfg.leafBucketSize < 2 ^ 16) :
    Terminating env s := by
  have sub : ∀ {d i}, s.pools.Below s.root d i → ∃ u : Tree Dim K, u.Rep s.pools ∧ u.id = i ∧
      u.Shape s.cfg.leafBucketSize ∧ u.height < s.pools.nodes.length := by
    intro d i hb
    obtain ⟨u, hs, rfl⟩ := h.rep.below_iff.mp (h.root ▸ hb)
    have hu := hs.rep h.rep
    have hheight := hu.height_lt
    exact ⟨u, hu, rfl, hs.shape h.shape, by omega⟩
  have shallow : ∀ {d i}, s.pools.Below s.root d i →
      s.pools.Shallow s.pools.nodes.length i := by
    intro d i hb
    obtain ⟨u, hu, rfl, -, hheight⟩ := sub hb
    exact hu.shallow hheight
  have later : ∀ {j i}, s.pools.ChildBelow s.root j i →
      s.pools.nodes.length - j < s.pools.nodes.length - i := by
    rintro j i ⟨d, dim, split, left, right, hb, hbody, hj⟩
    obtain ⟨⟨hl, hl'⟩, hr, hr'⟩ := h.children hb hbody
    rcases hj with rfl | rfl <;> omega
  exact
    { wellFounded := Subrelation.wf later (measure (fun i => s.pools.nodes.length - i)).wf
      collect := fun points hb hfuel => collect_fuel points (shallow hb) hfuel
      insertIndex := fun points index hb hfuel =>
        insertIndex_fuel (s.builder env) points index (shallow hb) hfuel
      tombstoneIndex := fun x modified hb hfuel =>
        tombstoneIndex_fuel env.counter x modified (shallow hb) hfuel
      releaseSubtree := fun points hb hfuel =>
        releaseSubtree_fuel env.counter points (shallow hb) hfuel
      deleteRecurse := fun rg points partition modified hb hfuel =>
        deleteRecurse_fuel env.counter rg points partition modified (shallow hb) hfuel
      sweep := by
        intro d i fuel points visit hb hfuel fit
        obtain ⟨u, hu, rfl, hshape, hheight⟩ := sub hb
        obtain ⟨heq, hcalls⟩ := sweep_fuel (b := s.builder env) hpos hB hu hshape hheight hfuel fit
        refine ⟨heq, fun m hm => ?_⟩
        obtain ⟨v, hv, hid⟩ := hcalls m hm
        exact hid ▸ hv.inRange
      descend := fun points query kMax minSqDist best hb hfuel =>
        SearchKernel.descend_fuel env.std points query kMax minSqDist best (shallow hb) hfuel
      collectDescend := fun points query sqRadius hb hfuel =>
        SearchKernel.collectDescend_fuel points query sqRadius (shallow hb) hfuel
      anyWithinDescend := fun points query sqRadius hb hfuel =>
        SearchKernel.anyWithinDescend_fuel points query sqRadius (shallow hb) hfuel }

theorem leafAddrs_disjoint {offset cap bboxIdx offset' cap' bboxIdx' : ℕ}
    (h : Disjoint (Tree.leafAddrs offset cap bboxIdx) (Tree.leafAddrs offset' cap' bboxIdx')) :
    Disjoint (Finset.Ico offset (offset + cap)) (Finset.Ico offset' (offset' + cap')) ∧
      bboxIdx ≠ bboxIdx' := by
  constructor
  · rw [Finset.disjoint_left]
    intro a ha ha'
    rw [Finset.mem_Ico] at ha ha'
    exact Set.disjoint_left.mp h (Tree.mem_leafAddrs_slot.mpr ha) (Tree.mem_leafAddrs_slot.mpr ha')
  · rintro rfl
    exact Set.disjoint_left.mp h (Or.inr rfl) (Or.inr rfl)

theorem push_view {b : LeafBucket} {offset size cap offset' size' cap' : ℕ}
    (hlen : b.data.length < 2 ^ 32) (hsize : size < cap) (hfit : offset + cap ≤ b.data.length)
    (hsize' : size' ≤ cap')
    (hd : Disjoint (Finset.Ico offset (offset + cap)) (Finset.Ico offset' (offset' + cap')))
    (entry : BucketEntry) : (b.push offset size cap entry).1.view offset' size' =
      b.view offset' size' := by
  rw [LeafBucket.push, if_neg hsize.ne, u32_of_lt (by omega)]
  apply List.ext_getElem?
  intro j
  simp only [LeafBucket.view, List.getElem?_take, List.getElem?_drop]
  split_ifs with hj
  · refine List.getElem?_set_ne (fun heq => ?_)
    have hmine : offset + size ∈ Finset.Ico offset (offset + cap) := Finset.mem_Ico.mpr (by omega)
    exact Finset.disjoint_left.mp hd hmine (Finset.mem_Ico.mpr (by omega))
  · rfl

omit [NeZero Dim] [IsStrictOrderedRing K] in
theorem Planted.wellFormed {t : Tree Dim K} (h : Planted s t) (fit : s.pools.Fit)
    (hpos : 0 < s.cfg.leafBucketSize) : WellFormed s := by
  have leaf : ∀ {d i offset size cap bboxIdx}, s.pools.Below s.root d i →
      (s.pools.node i).body = .leaf offset size cap bboxIdx →
      size < cap ∧ cap = 2 * s.cfg.leafBucketSize ∧
        offset + cap ≤ s.pools.leafBuckets.data.length ∧ bboxIdx < s.pools.leafBBoxes.length := by
    intro d i offset size cap bboxIdx hb hbody
    obtain ⟨live, total, es, bbox, rfl, hs⟩ := h.rep.below_leaf (h.root ▸ hb) hbody
    obtain ⟨hcap, hsize⟩ := hs.shape h.shape
    obtain ⟨-, -, hlen, -, hbox⟩ := hs.rep h.rep
    have hlast := hlen (cap - 1) (by omega)
    exact ⟨by omega, hcap, by omega, (List.getElem?_eq_some_iff.mp hbox).choose⟩
  have apart : ∀ {d e i j offset size cap bboxIdx offset' size' cap' bboxIdx'},
      s.pools.Below s.root d i → (s.pools.node i).body = .leaf offset size cap bboxIdx →
      s.pools.Below s.root e j → (s.pools.node j).body = .leaf offset' size' cap' bboxIdx' →
      i ≠ j → Disjoint (Finset.Ico offset (offset + cap)) (Finset.Ico offset' (offset' + cap')) ∧
        bboxIdx ≠ bboxIdx' := by
    intro d e i j offset size cap bboxIdx offset' size' cap' bboxIdx' hb hbody hb' hbody' hne
    obtain ⟨live, total, es, bbox, -, hs⟩ := h.rep.below_leaf (h.root ▸ hb) hbody
    obtain ⟨live', total', es', bbox', -, hs'⟩ := h.rep.below_leaf (h.root ▸ hb') hbody'
    have hd := Tree.Sub.addrs_disjoint h.rep hs hs' hne rfl rfl
    exact leafAddrs_disjoint (hd.mono Set.subset_union_right Set.subset_union_right)
  refine ⟨h.root ▸ h.rep.inRange, h.children, ?_, leaf, apart, ?_⟩
  · intro path path' i hp hp'
    rw [← h.root] at hp hp'
    exact h.rep.follow_unique hp hp'
  · intro d e i j offset size cap bboxIdx offset' size' cap' bboxIdx' hb hbody hb' hbody' hne entry
    obtain ⟨hsize, -, hfit, -⟩ := leaf hb hbody
    exact push_view fit.slots hsize hfit (leaf hb' hbody').1.le (apart hb hbody hb' hbody' hne).1 entry

/-- In every run whose pool indices fit, the pools are well formed and everything that goes down
the tree ends, in the states reached and before every action of a call. -/
theorem pools_wellFormed (hB : 2 * cfg.leafBucketSize ≤ 65535) (h : PoolsReachable env cfg s) :
    (s.root ≠ invalid → WellFormed s ∧ Terminating env s) ∧
      ∀ op : Op Dim K, (s.apply env op).1.pools.Fit → ∀ m ∈ s.steps env op, m.1.root ≠ invalid →
        WellFormed m.1 ∧ Terminating env m.1 := by
  obtain ⟨⟨hcfg, haccepted⟩, fit, hs⟩ := h.shaped hB
  have hpos := haccepted.leafBucketSize
  have good : ∀ u : KDTreeImpl Dim K, u.cfg = cfg → u.pools.Fit → Shaped u → u.root ≠ invalid →
      WellFormed u ∧ Terminating env u := by
    intro u hu hfit hshaped hroot
    obtain ⟨t, ht⟩ := hshaped.resolve_left hroot
    exact ⟨ht.wellFormed hfit (by rw [hu]; exact hpos),
      ht.terminating env (by rw [hu]; exact hpos) (by rw [hu]; omega)⟩
  refine ⟨good s hcfg fit hs, fun op hop m hm hroot => ?_⟩
  obtain ⟨hsteps, -⟩ := steps_shaped hB ⟨hcfg, haccepted⟩ hs hop
  exact good m.1 (hsteps m hm).1 (steps_fit_before fit hop m hm) (hsteps m hm).2 hroot

theorem pools_wellFormed_plane :
    WellFormed (run wordEnv (start (plane 3 (1 / 4)))
        [.insert [![0, 0], ![2, 0], ![1, 0], ![1, 1]], .remove [![2, 0]]] : KDTreeImpl 2 ℚ) ∧
      Terminating wordEnv (run wordEnv (start (plane 3 (1 / 4)))
        [.insert [![0, 0], ![2, 0], ![1, 0], ![1, 1]], .remove [![2, 0]]] : KDTreeImpl 2 ℚ) :=
  (pools_wellFormed (by decide)
    (reachable_run (plane_accepted (by decide) (by norm_num))
      (by decide +kernel)).poolsReachable).1 (by decide +kernel)

end
end KDTreeImpl
end Copse

import Copse.TreePartition
import Copse.KDTreeEntries

set_option autoImplicit false

namespace Copse
open PointStore TreeBuilder TransitionRuns

namespace Pools
variable {Dim : ℕ} {K : Type*} [LinearOrder K]

/-- A recursive delete that starts at node `i` with box `b` derives box `b'` for node `j`. -/
inductive Partition (p : Pools Dim K) : ℕ → BBox Dim K → ℕ → BBox Dim K → Prop where
  | refl (i : ℕ) (b : BBox Dim K) : Partition p i b i b
  | left {i j left right : ℕ} {dim : Fin Dim} {split : K} {b b' : BBox Dim K}
      (h : (p.node i).body = .internal dim split left right)
      (rest : Partition p left (b.left dim split) j b') : Partition p i b j b'
  | right {i j left right : ℕ} {dim : Fin Dim} {split : K} {b b' : BBox Dim K}
      (h : (p.node i).body = .internal dim split left right)
      (rest : Partition p right (b.right dim split) j b') : Partition p i b j b'

theorem Partition.congr {p p' : Pools Dim K} (h : ∀ i, (p'.node i).body = (p.node i).body)
    {i j : ℕ} {b b' : BBox Dim K} (hp : p'.Partition i b j b') : p.Partition i b j b' := by
  induction hp with
  | refl i b => exact .refl i b
  | left hi _ ih => exact .left ((h _).symm.trans hi) ih
  | right hi _ ih => exact .right ((h _).symm.trans hi) ih

omit [LinearOrder K] in
theorem body_modifyNode (p : Pools Dim K) (c : Counter) (k : ℤ) (i j : ℕ) :
    ((p.modifyNode i (TreeNode.addLive c k)).node j).body = (p.node j).body := by
  simp only [modifyNode, setNode, node, List.getD_eq_getElem?_getD, List.getElem?_set]
  split_ifs with hij hlen
  · subst hij
    rw [List.getElem?_eq_getElem hlen]
    rfl
  · subst hij
    rw [List.getElem?_eq_none (not_lt.mp hlen)]
  · rfl

end Pools

namespace TreeBuilder
variable {Dim : ℕ} {K : Type*} [Field K] [LinearOrder K]

omit [LinearOrder K] in
theorem releaseSubtree_body (c : Counter) (fuel : ℕ) (p : Pools Dim K) (points : PointStore Dim K)
    (i j : ℕ) : ((releaseSubtree c fuel p points i).pools.node j).body = (p.node j).body := by
  induction fuel generalizing p points i with
  | zero => rfl
  | succ fuel ih =>
    simp only [releaseSubtree]
    split
    · exact p.body_modifyNode c _ i j
    · simp only [Released.discount]
      rw [Pools.body_modifyNode, ih, ih]

theorem deleteRecurse_body (c : Counter) (rg : Region Dim K) (fuel : ℕ) (p : Pools Dim K)
    (points : PointStore Dim K) (i : ℕ) (partition : BBox Dim K) (modified : List ℕ) (j : ℕ) :
    ((deleteRecurse c rg fuel p points i partition modified).pools.node j).body =
      (p.node j).body := by
  induction fuel generalizing p points i partition modified with
  | zero => rfl
  | succ fuel ih =>
    simp only [deleteRecurse]
    by_cases hk : rg.keeps partition = true
    · simp only [hk, ↓reduceIte]
    by_cases hc : rg.clears partition = true
    · simp only [hk, hc, Bool.false_eq_true, ↓reduceIte]
      exact releaseSubtree_body c _ p points i j
    simp only [hk, hc, Bool.false_eq_true, ↓reduceIte]
    split
    · split_ifs
      · rfl
      · exact releaseSubtree_body c _ p points i j
      · exact p.body_modifyNode c _ i j
    · simp only [Released.discount]
      rw [Pools.body_modifyNode, ih, ih]

def deleteCalls (c : Counter) (rg : Region Dim K) :
    ℕ → Pools Dim K → PointStore Dim K → ℕ → BBox Dim K → List (ℕ × BBox Dim K)
  | 0, _, _, nodeIdx, partition => [(nodeIdx, partition)]
  | fuel + 1, p, points, nodeIdx, partition =>
    (nodeIdx, partition) ::
      if rg.keeps partition || rg.clears partition then []
      else
        match (p.node nodeIdx).body with
        | .leaf .. => []
        | .internal dim split left right =>
          let l := deleteRecurse c rg fuel p points left (partition.left dim split) []
          deleteCalls c rg fuel p points left (partition.left dim split) ++
            deleteCalls c rg fuel l.pools l.points right (partition.right dim split)

theorem deleteCalls_partition (c : Counter) (rg : Region Dim K) (fuel : ℕ) (p : Pools Dim K)
    (points : PointStore Dim K) (i : ℕ) (partition : BBox Dim K) :
    ∀ m ∈ deleteCalls c rg fuel p points i partition, p.Partition i partition m.1 m.2 := by
  induction fuel generalizing p points i partition with
  | zero => exact List.forall_mem_singleton.mpr (.refl i partition)
  | succ fuel ih =>
    refine List.forall_mem_cons.mpr ⟨.refl i partition, ?_⟩
    split_ifs
    · simp
    cases hn : (p.node i).body with
    | leaf => simp
    | internal dim split left right =>
      intro m hm
      rcases List.mem_append.mp hm with hm | hm
      · exact .left hn (ih p points left _ m hm)
      · exact .right hn ((ih _ _ right _ m hm).congr
          (deleteRecurse_body c rg fuel p points left _ []))

end TreeBuilder

namespace Tree
variable {Dim : ℕ} {K : Type*} [Field K] [LinearOrder K]
variable {p : Pools Dim K} {points : PointStore Dim K} {t u : Tree Dim K} {d : ℕ}

theorem Sub.placed (h : t.Sub d u) (hp : t.Placed points) : u.Placed points := by
  induction h with
  | refl t => exact hp
  | left _ _ _ _ _ _ ih => exact ih hp.2.2.1
  | right _ _ _ _ _ _ ih => exact ih hp.2.2.2

omit [LinearOrder K] in
theorem At.mem_validIn {pos : ℕ × ℕ} {e : BucketEntry} (h : t.At pos e)
    (hv : points.valid e = true) : e.index ∈ t.validIn points :=
  Tree.mem_validIn.mpr ⟨e, h.mem, hv, rfl⟩

omit [LinearOrder K] in
theorem At.of_below {pos : ℕ × ℕ} {e : BucketEntry} {n : ℕ} (h : t.At pos e) (ht : t.Rep p)
    (hu : u.Rep p) (hb : p.Below u.id n pos.1) : u.At pos e :=
  hu.at_iff.mpr ⟨⟨n, hb⟩, (ht.at_iff.mp h).2⟩

theorem Rep.partition {i : ℕ} {b b' : BBox Dim K} (h : t.Rep p) (points : PointStore Dim K)
    (hp : p.Partition t.id b i b') :
    ∃ d u, t.Sub d u ∧ u.id = i ∧ (t.Regular b → u.Regular b') ∧
      (t.Placed points → (∀ j ∈ t.validIn points, b.Mem (points.point j)) →
        ∀ j ∈ u.validIn points, b'.Mem (points.point j)) := by
  induction t generalizing b with
  | leaf id live total offset cap bboxIdx es bbox =>
    have hbody := h.leaf_body
    cases hp with
    | refl => exact ⟨0, _, .refl _, rfl, fun hr => hr, fun _ hin => hin⟩
    | left hi _ =>
      rw [id_leaf, hbody] at hi
      cases hi
    | right hi _ =>
      rw [id_leaf, hbody] at hi
      cases hi
  | node id live total dim split left right ihl ihr =>
    have hbody := h.node_body
    cases hp with
    | refl => exact ⟨0, _, .refl _, rfl, fun hr => hr, fun _ hin => hin⟩
    | left hi rest =>
      rw [id_node, hbody] at hi
      injection hi with hdim hsplit hleft hright
      subst hdim hsplit hleft hright
      obtain ⟨d, u, hs, hu, hreg, hmem⟩ := ihl h.left rest
      refine ⟨d + 1, u, .left id live total dim split hs, hu, fun hr => hreg hr.2.1, ?_⟩
      exact fun hpl hin => hmem hpl.2.2.1 (hpl.mem_left hin)
    | right hi rest =>
      rw [id_node, hbody] at hi
      injection hi with hdim hsplit hleft hright
      subst hdim hsplit hleft hright
      obtain ⟨d, u, hs, hu, hreg, hmem⟩ := ihr h.right rest
      refine ⟨d + 1, u, .right id live total dim split hs, hu, fun hr => hreg hr.2.2, ?_⟩
      exact fun hpl hin => hmem hpl.2.2.2 (hpl.mem_right hin)

end Tree

namespace KDTreeImpl
variable {Dim : ℕ} [NeZero Dim] {K : Type*} [Field K] [LinearOrder K]

/-- Valid entries lie on their side of every split above them and inside the box of their leaf,
the root box and every partition box above them, and no partition box is inverted. -/
structure Partitioned (s : KDTreeImpl Dim K) : Prop where
  left : ∀ {i d n l r : ℕ} {dim : Fin Dim} {split : K} {pos : ℕ × ℕ} {e : BucketEntry},
    s.pools.Below s.root d i → (s.pools.node i).body = .internal dim split l r →
    s.pools.Below l n pos.1 → s.EntryAt pos e → s.points.valid e = true →
    s.points.point e.index dim ≤ split
  right : ∀ {i d n l r : ℕ} {dim : Fin Dim} {split : K} {pos : ℕ × ℕ} {e : BucketEntry},
    s.pools.Below s.root d i → (s.pools.node i).body = .internal dim split l r →
    s.pools.Below r n pos.1 → s.EntryAt pos e → s.points.valid e = true →
    split ≤ s.points.point e.index dim
  inLeaf : ∀ {pos : ℕ × ℕ} {e : BucketEntry} {offset size cap bboxIdx : ℕ},
    s.EntryAt pos e → s.points.valid e = true →
    (s.pools.node pos.1).body = .leaf offset size cap bboxIdx →
    (s.pools.bbox bboxIdx).Mem (s.points.point e.index)
  inRoot : ∀ {pos : ℕ × ℕ} {e : BucketEntry}, s.EntryAt pos e → s.points.valid e = true →
    s.rootBBox.Mem (s.points.point e.index)
  inPartition : ∀ {i n : ℕ} {b : BBox Dim K} {pos : ℕ × ℕ} {e : BucketEntry},
    s.pools.Partition s.root s.rootBBox i b → s.pools.Below i n pos.1 → s.EntryAt pos e →
    s.points.valid e = true → b.Mem (s.points.point e.index)
  nonInverted : ∀ {i : ℕ} {b : BBox Dim K}, s.root ≠ invalid →
    s.pools.Partition s.root s.rootBBox i b → b.NonInverted

omit [NeZero Dim] in
/-- Every call of a recursive delete comes with a proper box around the valid entries below. -/
theorem Partitioned.calls {s : KDTreeImpl Dim K} (h : Partitioned s) (hroot : s.root ≠ invalid)
    (c : Counter) (rg : Region Dim K) :
    ∀ m ∈ deleteCalls c rg s.pools.nodes.length s.pools s.points s.root s.rootBBox,
      m.2.NonInverted ∧ ∀ n pos e, s.pools.Below m.1 n pos.1 → s.EntryAt pos e →
        s.points.valid e = true → m.2.Mem (s.points.point e.index) := by
  intro m hm
  have hp := deleteCalls_partition c rg _ _ _ _ _ m hm
  exact ⟨h.nonInverted hroot hp, fun _ _ _ hb he hv => h.inPartition hp hb he hv⟩

/-- The partition boxes below the root box are regular. -/
def Parted (s : KDTreeImpl Dim K) : Option (Tree Dim K) → Prop
  | none => True
  | some t => t.Regular s.rootBBox

section
variable {env : Env K} {cfg : Config K} {s : KDTreeImpl Dim K} {o : Option (Tree Dim K)}

section
omit [NeZero Dim]

theorem Holds.sub_of_internal {t : Tree Dim K} (h : Holds s t) {i d l r : ℕ} {dim : Fin Dim}
    {split : K} (hb : s.pools.Below s.root d i)
    (hbody : (s.pools.node i).body = .internal dim split l r) :
    ∃ live total left right, left.id = l ∧ right.id = r ∧
      t.Sub d (.node i live total dim split left right) := by
  obtain ⟨u, hs, rfl⟩ := h.rep.below_iff.mp (h.root ▸ hb)
  cases u with
  | leaf id live total offset cap bboxIdx es bbox =>
    rw [Tree.id_leaf, (hs.rep h.rep).leaf_body] at hbody
    cases hbody
  | node id live total dim' split' left right =>
    rw [Tree.id_node, (hs.rep h.rep).node_body] at hbody
    injection hbody with hdim hsplit hleft hright
    subst hdim hsplit
    exact ⟨live, total, left, right, hleft, hright, hs⟩

theorem Sound.le_split {t : Tree Dim K} (h : Sound s (some t)) {i d n l r : ℕ} {dim : Fin Dim}
    {split : K} {pos : ℕ × ℕ} {e : BucketEntry} (hb : s.pools.Below s.root d i)
    (hbody : (s.pools.node i).body = .internal dim split l r) (hl : s.pools.Below l n pos.1)
    (he : s.EntryAt pos e) (hv : s.points.valid e = true) :
    s.points.point e.index dim ≤ split := by
  have holds : Holds s t := h.reads
  obtain ⟨live, total, left, right, rfl, rfl, hs⟩ := holds.sub_of_internal hb hbody
  have hat := (h.entryAt_iff.mp he).of_below holds.rep (hs.rep holds.rep).left hl
  exact (hs.placed holds.placed).1 _ (hat.mem_validIn hv)

theorem Sound.split_le {t : Tree Dim K} (h : Sound s (some t)) {i d n l r : ℕ} {dim : Fin Dim}
    {split : K} {pos : ℕ × ℕ} {e : BucketEntry} (hb : s.pools.Below s.root d i)
    (hbody : (s.pools.node i).body = .internal dim split l r) (hr : s.pools.Below r n pos.1)
    (he : s.EntryAt pos e) (hv : s.points.valid e = true) :
    split ≤ s.points.point e.index dim := by
  have holds : Holds s t := h.reads
  obtain ⟨live, total, left, right, rfl, rfl, hs⟩ := holds.sub_of_internal hb hbody
  have hat := (h.entryAt_iff.mp he).of_below holds.rep (hs.rep holds.rep).right hr
  exact (hs.placed holds.placed).2.1 _ (hat.mem_validIn hv)

theorem Sound.partitioned {t : Tree Dim K} (h : Sound s (some t)) (hr : t.Regular s.rootBBox) :
    Partitioned s := by
  have holds : Holds s t := h.reads
  refine ⟨h.le_split, h.split_le, ?_, ?_, ?_, ?_⟩
  · intro pos e offset size cap bboxIdx he hv hbody
    have hat := h.entryAt_iff.mp he
    obtain ⟨-, ⟨d, hb⟩, -⟩ := he
    obtain ⟨u, hs, hu⟩ := holds.rep.below_iff.mp (holds.root ▸ hb)
    have hur := hs.rep holds.rep
    have hself : s.pools.Below u.id 0 pos.1 := by
      rw [hu]
      exact .refl _
    have hatu := hat.of_below holds.rep hur hself
    rw [← hu] at hbody
    cases u with
    | leaf id live total offset' cap' bboxIdx' es bbox =>
      rw [Tree.id_leaf, hur.leaf_body] at hbody
      injection hbody with _ _ _ hbox
      subst hbox
      rw [hur.leaf_bbox]
      exact hs.placed holds.placed _ (hatu.mem_validIn hv)
    | node id live total dim split left right =>
      rw [Tree.id_node, hur.node_body] at hbody
      cases hbody
  · intro pos e he hv
    exact holds.inBox _ ((h.entryAt_iff.mp he).mem_validIn hv)
  · intro i n b pos e hp hb he hv
    obtain ⟨d, u, hs, rfl, -, hmem⟩ := holds.rep.partition s.points (holds.root ▸ hp)
    have hat := (h.entryAt_iff.mp he).of_below holds.rep (hs.rep holds.rep) hb
    exact hmem holds.placed holds.inBox _ (hat.mem_validIn hv)
  · intro i b _ hp
    obtain ⟨d, u, -, -, hreg, -⟩ := holds.rep.partition s.points (holds.root ▸ hp)
    exact (hreg hr).nonInverted

theorem Sound.partitioned_of_parted (h : Sound s o) (hp : s.Parted o) : Partitioned s := by
  cases o with
  | some t => exact h.partitioned hp
  | none =>
    have hroot : s.root = invalid := h.reads.root
    exact
      { left := fun _ _ _ he _ => absurd hroot he.1
        right := fun _ _ _ he _ => absurd hroot he.1
        inLeaf := fun he _ _ => absurd hroot he.1
        inRoot := fun he _ => absurd hroot he.1
        inPartition := fun _ _ he _ => absurd hroot he.1
        nonInverted := fun hne _ => absurd hroot hne }

theorem Sound.regular_of_built {t : Tree Dim K} {indices : List ℕ} {B : ℕ} (h : Sound s (some t))
    (built : Built env.counter s.points B indices t) (hne : indices ≠ [])
    (hlive : ∀ i ∈ indices, s.points.isLive i = true) : t.Regular s.rootBBox := by
  have holds : Holds s t := h.reads
  have hin : ∀ i ∈ indices, s.rootBBox.Mem (s.points.point i) :=
    fun i hi => holds.inBox i ((built.mem_validIn_iff hlive i).mpr hi)
  obtain ⟨i, hi⟩ := List.exists_mem_of_ne_nil indices hne
  exact built.regular (hin i hi).nonInverted hin

end

theorem acceptPoint_covers (env : Env K) (x : Point Dim K) (h : s.root ≠ invalid) :
    (s.acceptPoint env x).rootBBox.Covers s.rootBBox := by
  simp only [acceptPoint, h, ↓reduceIte]
  exact BBox.covers_expand _ _

omit [NeZero Dim] in
theorem deleteRegion_box (c : Counter) (s : KDTreeImpl Dim K) (rg : Region Dim K) :
    (deleteRegion c s rg).1.rootBBox = s.rootBBox := by
  unfold deleteRegion
  split_ifs <;> rfl

theorem sweepFull_box (env : Env K) (s : KDTreeImpl Dim K) :
    (s.maybePartialRebuildFull env).rootBBox = s.rootBBox := by
  simp only [maybePartialRebuildFull]
  split_ifs <;> rfl

theorem sweep_box (env : Env K) (s : KDTreeImpl Dim K) :
    (s.maybePartialRebuild env).rootBBox = s.rootBBox := by
  unfold maybePartialRebuild
  split_ifs <;> rfl

theorem rebuildAll_live (env : Env K) (hs : Sound s o) (h : (s.rebuildAll env).root ≠ invalid) :
    ∃ i, s.points.isLive i = true := by
  obtain ⟨window, free, hring⟩ := hs.ring
  by_cases hne : window = []
  · refine absurd ?_ h
    simp only [rebuildAll, forEachLive_fst hring, hne, ↓reduceIte]
  · obtain ⟨i, hi⟩ := List.exists_mem_of_ne_nil window hne
    exact ⟨i, (hring.isLive_iff i).mpr hi⟩

theorem act_parted (env : Env K) {a : Action Dim K} {o' : Option (Tree Dim K)} (hs : Sound s o)
    (hev : Evolved env s a o o') (hs' : Sound (s.act env a) o') (hp : s.Parted o) :
    (s.act env a).Parted o' := by
  cases hev with
  | rejected x o rejects =>
    rw [act_rejected env rejects]
    exact hp
  | first x t' accepts built =>
    obtain ⟨window, free, hring⟩ := hs.ring
    have hpoints := act_accepted env accepts
    rw [← hpoints] at built
    refine hs'.regular_of_built built (List.cons_ne_nil _ _) (List.forall_mem_singleton.mpr ?_)
    rw [hpoints]
    exact acquire_self_live x hring
  | inserted x t t' accepts ins =>
    have holds : Holds s t := hs.reads
    have holds' : Holds (s.act env (.insertPoint x)) t' := hs'.reads
    have hcover := acceptPoint_covers env x (holds.root_valid hs.noWrap)
    rw [← act_inserts env accepts] at hcover
    have hplaced := holds'.placed
    have hin := holds'.inBox
    rw [act_accepted env accepts] at hplaced hin
    exact ins.regular (Tree.Regular.mono hp hcover) hplaced hin
  | tombstoned i t => exact Tree.Regular.of_dropLive hp (t.dropLive_tombstone _ _)
  | missing => trivial
  | discounted rg t t' disc =>
    refine Tree.Regular.of_dropLive ?_ disc.dropLive
    change t.Regular (deleteRegion env.counter s rg).1.rootBBox
    rw [deleteRegion_box]
    exact hp
  | idleFull => trivial
  | idle => trivial
  | sweptFull t t' swept =>
    have holds' : Holds (s.maybePartialRebuildFull env) t' := hs'.reads
    obtain ⟨hplaced, hin⟩ := And.intro holds'.placed holds'.inBox
    rw [sweepFull_points] at hplaced hin
    rw [sweepFull_box] at hin
    change t'.Regular (s.maybePartialRebuildFull env).rootBBox
    rw [sweepFull_box]
    exact swept.regular hp hplaced hin
  | swept called t t' swept =>
    have holds' : Holds (s.maybePartialRebuild env) t' := hs'.reads
    obtain ⟨hplaced, hin⟩ := And.intro holds'.placed holds'.inBox
    rw [sweep_points] at hplaced hin
    rw [sweep_box] at hin
    change t'.Regular (s.maybePartialRebuild env).rootBBox
    rw [sweep_box]
    exact swept.regular hp hplaced hin
  | emptied => trivial
  | rebuilt o window t' live built =>
    have holds' : Holds (s.rebuildAll env) t' := hs'.reads
    obtain ⟨i, hi⟩ := rebuildAll_live env hs (holds'.root_valid hs'.noWrap)
    have hpoints := rebuildAll_points env s
    rw [← hpoints] at built
    refine hs'.regular_of_built built (List.ne_nil_of_mem ((live i).mpr hi)) ?_
    intro j hj
    change (s.rebuildAll env).points.isLive j = true
    rw [hpoints]
    exact (live j).mp hj

variable [IsStrictOrderedRing K]

theorem Reachable.parted (h : Reachable env cfg s) (hB : 2 * cfg.leafBucketSize ≤ 65535) :
    ∃ o, Sound s o ∧ s.Parted o :=
  h.reachableWhen.invariant hB (fun _ _ _ => trivial)
    (fun _ _ _ _ hs _ hev hs' _ hp => act_parted env hs hev hs' hp)

/-- The spatial partition holds in every state reached and in the middle of every call. -/
theorem partition_holds (hB : 2 * cfg.leafBucketSize ≤ 65535) (h : Reachable env cfg s) :
    Partitioned s ∧ ∀ op : Op Dim K, (s.apply env op).1.NoWrap →
      ∀ m ∈ s.steps env op, Partitioned m.1 := by
  obtain ⟨o, hs, hp⟩ := h.parted hB
  refine ⟨hs.partitioned_of_parted hp, fun op hn m hm => ?_⟩
  obtain ⟨o', hs', hp'⟩ := (steps_invariant (Q := fun _ _ => True)
    (fun s a o o' hs _ hev hs' _ hp => act_parted env hs hev hs' hp) ⟨o, hs, hp⟩ hn
    (fun _ _ => trivial)).1 m hm
  exact hs'.partitioned_of_parted hp'

theorem partition_holds_plane :
    Partitioned (run wordEnv (start (plane 3 (1 / 4)))
      [.insert [![0, 0], ![2, 0], ![1, 0], ![1, 1]], .remove [![2, 0]], .insert [![3, 0]]] :
        KDTreeImpl 2 ℚ) :=
  (partition_holds (by decide)
    (reachable_run (plane_accepted (by decide) (by norm_num)) (by decide +kernel))).1

end
end KDTreeImpl
end Copse

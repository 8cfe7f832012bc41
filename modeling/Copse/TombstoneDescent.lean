import Copse.KDTreeScopedSweep
import Copse.KDTreeDecrements

set_option autoImplicit false

/-!
# Where the tombstone descent ends

The descent compares strictly, the median split keeps ties on both sides. It
ends in the leaf that holds the slot unless the slot is kept left of a node
that splits at its own coordinate, and then it counts down on a wrong path.
-/
namespace Copse
open PointStore TreeBuilder TransitionRuns

namespace TreeBuilder
variable {Dim : ℕ} {K : Type*} [Field K] [LinearOrder K]

/-- The nodes that the descent of `tombstone_index` passes. -/
def descentPath (point : Point Dim K) : ℕ → Pools Dim K → ℕ → List ℕ
  | 0, _, _ => []
  | fuel + 1, p, nodeIdx =>
    nodeIdx ::
      match (p.node nodeIdx).body with
      | .leaf .. => []
      | .internal dim split left right =>
        descentPath point fuel p (if point dim < split then left else right)

section
variable {c : Counter} {p q : Pools Dim K} {x : Point Dim K} {fuel i j holder : ℕ}

section
omit [Field K]

theorem descentPath_internal {left right : ℕ} {dim : Fin Dim} {split : K}
    (h : (p.node i).body = .internal dim split left right) :
    descentPath x (fuel + 1) p i =
      i :: descentPath x fuel p (if x dim < split then left else right) := by
  rw [descentPath, h]

theorem descentPath_leaf {offset size cap bboxIdx : ℕ}
    (h : (p.node i).body = .leaf offset size cap bboxIdx) :
    descentPath x (fuel + 1) p i = [i] := by
  rw [descentPath, h]

theorem descentPath_congr (h : p.SameShape q) : descentPath x fuel q i = descentPath x fuel p i := by
  induction fuel generalizing i with
  | zero => rfl
  | succ fuel ih =>
    rw [descentPath, descentPath, (h i).1]
    cases (p.node i).body with
    | leaf => rfl
    | internal => exact congrArg (i :: ·) ih

theorem descentPath_below (h : j ∈ descentPath x fuel p i) : ∃ d, p.Below i d j := by
  induction fuel generalizing i with
  | zero => cases h
  | succ fuel ih =>
    cases hbody : (p.node i).body with
    | leaf =>
      rw [descentPath_leaf hbody] at h
      rw [List.mem_singleton.mp h]
      exact ⟨0, .refl i⟩
    | internal dim split left right =>
      rw [descentPath_internal hbody] at h
      rcases List.mem_cons.mp h with rfl | h
      · exact ⟨0, .refl j⟩
      · obtain ⟨d, hd⟩ := ih h
        split_ifs at hd
        · exact ⟨d + 1, .left hbody hd⟩
        · exact ⟨d + 1, .right hbody hd⟩

theorem tombstoneIndex_modified (modified : List ℕ) :
    (tombstoneIndex c x fuel p i modified).2 =
      modified ++ (descentPath x fuel p i).filter (fun j => !(p.node j).isLeaf) := by
  induction fuel generalizing p i modified with
  | zero => simp [tombstoneIndex, descentPath]
  | succ fuel ih =>
    have hshape := Pools.addLive_sameShape p c i (-1)
    rw [tombstoneIndex]
    rw [(hshape i).1]
    cases hbody : (p.node i).body with
    | leaf =>
      rw [descentPath_leaf hbody]
      simp [TreeNode.isLeaf, hbody]
    | internal dim split left right =>
      have hinner : (!(p.node i).isLeaf) = true := by rw [TreeNode.isLeaf, hbody]; rfl
      dsimp only
      rw [ih, descentPath_congr hshape, descentPath_internal hbody, List.filter_cons, if_pos hinner,
        List.append_assoc, List.singleton_append]
      simp only [hshape.isLeaf]

end

/-- The descent counts down at the nodes it passes and nowhere else. -/
theorem tombstoneIndex_node {t : Tree Dim K} (h : t.Rep p) (fuel : ℕ) (modified : List ℕ) (j : ℕ) :
    (j ∈ descentPath x fuel p t.id →
        (tombstoneIndex c x fuel p t.id modified).1.node j = (p.node j).addLive c (-1)) ∧
      (j ∉ descentPath x fuel p t.id →
        (tombstoneIndex c x fuel p t.id modified).1.node j = p.node j) := by
  induction fuel generalizing p t modified with
  | zero => exact ⟨fun hj => absurd hj List.not_mem_nil, fun _ => rfl⟩
  | succ fuel ih =>
    have hshape := Pools.addLive_sameShape p c t.id (-1)
    have hself : (p.modifyNode t.id (TreeNode.addLive c (-1))).node t.id =
        (p.node t.id).addLive c (-1) := by
      rw [Pools.node_modifyNode, if_pos ⟨rfl, h.id_lt⟩]
    have hup := h.update_addLive c (-1)
    rw [tombstoneIndex, (hshape t.id).1]
    cases t with
    | leaf id live total offset cap bboxIdx es bbox =>
      rw [Tree.id_leaf] at hself ⊢
      rw [h.leaf_body, descentPath_leaf h.leaf_body, List.mem_singleton]
      refine ⟨fun hj => ?_, fun hj => Pools.addLive_keeps p c (-1) (Ne.symm hj)⟩
      rw [hj]
      exact hself
    | node id live total dim split left right =>
      rw [Tree.id_node] at hself hshape ⊢
      -- the child taken, in the pools with the node already counted down
      have down : ∀ {u : Tree Dim K}, u.Rep (p.modifyNode id (TreeNode.addLive c (-1))) →
          (∀ d, ¬ p.Below u.id d id) →
          (j ∈ id :: descentPath x fuel p u.id →
            (tombstoneIndex c x fuel (p.modifyNode id (TreeNode.addLive c (-1))) u.id
              (modified ++ [id])).1.node j = (p.node j).addLive c (-1)) ∧
          (j ∉ id :: descentPath x fuel p u.id →
            (tombstoneIndex c x fuel (p.modifyNode id (TreeNode.addLive c (-1))) u.id
              (modified ++ [id])).1.node j = p.node j) := by
        intro u hu hapart
        have hrest := ih hu (modified ++ [id])
        rw [descentPath_congr hshape] at hrest
        by_cases hij : id = j
        · subst hij
          have hout : id ∉ descentPath x fuel p u.id := fun hmem =>
            absurd (descentPath_below hmem).choose_spec (hapart _)
          exact ⟨fun _ => (hrest.2 hout).trans hself, fun hj => absurd List.mem_cons_self hj⟩
        · rw [Pools.addLive_keeps p c (-1) hij] at hrest
          simp only [List.mem_cons, Ne.symm hij, false_or]
          exact hrest
      rw [h.node_body, descentPath_internal h.node_body]
      dsimp only
      split_ifs
      · exact down hup.rep.left (fun d => (below_child_ne h).1)
      · exact down hup.rep.right (fun d => (below_child_ne h).2)

end
end TreeBuilder

namespace Pools
variable {Dim : ℕ} {K : Type*} [Field K]

/-- Some node on the way from the root to the holder splits at the coordinate of the point and has
the holder on its left. -/
def TiedAbove (p : Pools Dim K) (x : Point Dim K) (root holder : ℕ) : Prop :=
  ∃ d j dim split left right e, p.Below root d j ∧
    (p.node j).body = .internal dim split left right ∧ p.Below left e holder ∧ x dim = split

end Pools

namespace TreeBuilder
variable {Dim : ℕ} [NeZero Dim] {K : Type*} [Field K] [LinearOrder K]
omit [NeZero Dim]

section
variable {p : Pools Dim K} {x : Point Dim K} {fuel j holder : ℕ} {points : PointStore Dim K}
  {t : Tree Dim K}

omit [Field K] in
theorem descentPath_getLast {i : ℕ} (h : (descentPath x fuel p i).getLast? = some holder) :
    ∃ d, p.Below i d holder :=
  descentPath_below (List.mem_of_getLast? h)

section node
variable {id : ℕ} {live total : ℤ} {dim : Fin Dim} {split : K} {left right : Tree Dim K}

omit [LinearOrder K] in
theorem tied_left (h : (Tree.node id live total dim split left right).Rep p)
    (hl : ∃ d, p.Below left.id d holder) :
    p.TiedAbove x id holder ↔ x dim = split ∨ p.TiedAbove x left.id holder := by
  obtain ⟨e, he⟩ := hl
  have hbody := h.node_body
  constructor
  · rintro ⟨d, j, dim', split', l, r, f, hj, hb, hl, heq⟩
    cases hj with
    | refl =>
      cases hbody.symm.trans hb
      exact Or.inl heq
    | left hi rest =>
      cases hbody.symm.trans hi
      exact Or.inr ⟨_, j, dim', split', l, r, f, rest, hb, hl, heq⟩
    | right hi rest =>
      cases hbody.symm.trans hi
      exact (not_below_both h he (rest.trans (.left hb hl))).elim
  · rintro (heq | ⟨d, j, dim', split', l, r, f, hj, hrest⟩)
    · exact ⟨0, id, dim, split, left.id, right.id, e, .refl id, hbody, he, heq⟩
    · exact ⟨d + 1, j, dim', split', l, r, f, .left hbody hj, hrest⟩

omit [LinearOrder K] in
theorem tied_right (h : (Tree.node id live total dim split left right).Rep p)
    (hr : ∃ d, p.Below right.id d holder) :
    p.TiedAbove x id holder ↔ p.TiedAbove x right.id holder := by
  obtain ⟨e, he⟩ := hr
  have hbody := h.node_body
  constructor
  · rintro ⟨d, j, dim', split', l, r, f, hj, hb, hl, heq⟩
    cases hj with
    | refl =>
      cases hbody.symm.trans hb
      exact (not_below_both h hl he).elim
    | left hi rest =>
      cases hbody.symm.trans hi
      exact (not_below_both h (rest.trans (.left hb hl)) he).elim
    | right hi rest =>
      cases hbody.symm.trans hi
      exact ⟨_, j, dim', split', l, r, f, rest, hb, hl, heq⟩
  · rintro ⟨d, j, dim', split', l, r, f, hj, hrest⟩
    exact ⟨d + 1, j, dim', split', l, r, f, .right hbody hj, hrest⟩

theorem descentPath_child (h : (Tree.node id live total dim split left right).Rep p)
    (hfuel : (Tree.node id live total dim split left right).height < fuel + 1) :
    (descentPath x (fuel + 1) p id).getLast? =
      (descentPath x fuel p (if x dim < split then left.id else right.id)).getLast? := by
  simp only [Tree.height] at hfuel
  obtain ⟨fuel, rfl⟩ : ∃ n, fuel = n + 1 := ⟨fuel - 1, by omega⟩
  rw [descentPath_internal h.node_body, descentPath, List.getLast?_cons_cons]

end node

/-- The descent for a valid entry ends at its leaf unless a tie leads away from it. -/
theorem descentPath_ends_iff (h : t.Rep p) (hp : t.Placed points) (fuel : ℕ)
    (hfuel : t.height < fuel) {pos : ℕ × ℕ} {e : BucketEntry} (ha : t.At pos e)
    (hv : points.valid e = true) :
    (descentPath (points.point e.index) fuel p t.id).getLast? = some pos.1 ↔
      ¬ p.TiedAbove (points.point e.index) t.id pos.1 := by
  induction t generalizing fuel with
  | leaf id live total offset cap bboxIdx es bbox =>
    obtain ⟨fuel, rfl⟩ : ∃ n, fuel = n + 1 := ⟨fuel - 1, by omega⟩
    have hbody := h.leaf_body
    rw [Tree.id_leaf, descentPath_leaf hbody, ha.1]
    refine iff_of_true rfl ?_
    rintro ⟨d, j, dim, split, left, right, f, hj, hb, -⟩
    rw [← ha.1] at hj
    cases hj with
    | refl => cases hbody.symm.trans hb
    | left hi _ => cases hbody.symm.trans hi
    | right hi _ => cases hbody.symm.trans hi
  | node id live total dim split left right ihl ihr =>
    obtain ⟨fuel, rfl⟩ : ∃ n, fuel = n + 1 := ⟨fuel - 1, by omega⟩
    obtain ⟨hle, hge, hpl, hpr⟩ := hp
    rw [Tree.id_node, descentPath_child h hfuel]
    simp only [Tree.height] at hfuel
    rcases ha with ha | ha
    · have hbelow := (h.left.at_iff.mp ha).1
      have hmem : e.index ∈ left.validIn points := Tree.mem_validIn.mpr ⟨e, ha.mem, hv, rfl⟩
      rw [tied_left h hbelow]
      by_cases heq : points.point e.index dim = split
      · -- a tie goes right, where the leaf is not
        rw [if_neg (not_lt.mpr heq.ge)]
        refine iff_of_false (fun hlast => ?_) (fun hnot => hnot (Or.inl heq))
        exact not_below_both h hbelow.choose_spec (descentPath_getLast hlast).choose_spec
      · rw [if_pos (lt_of_le_of_ne (hle _ hmem) heq), ihl h.left hpl fuel (by omega) ha]
        simp only [heq, false_or]
    · have hbelow := (h.right.at_iff.mp ha).1
      have hmem : e.index ∈ right.validIn points := Tree.mem_validIn.mpr ⟨e, ha.mem, hv, rfl⟩
      rw [tied_right h hbelow, if_neg (not_lt.mpr (hge _ hmem)), ihr h.right hpr fuel (by omega) ha]

/-- A path that ends at a node passes exactly the nodes above it. -/
theorem mem_descentPath_iff (h : t.Rep p) (fuel : ℕ) (hfuel : t.height < fuel)
    (hlast : (descentPath x fuel p t.id).getLast? = some holder) :
    j ∈ descentPath x fuel p t.id ↔
      (∃ d, p.Below t.id d j) ∧ ∃ d, p.Below j d holder := by
  induction t generalizing fuel with
  | leaf id live total offset cap bboxIdx es bbox =>
    obtain ⟨fuel, rfl⟩ : ∃ n, fuel = n + 1 := ⟨fuel - 1, by omega⟩
    have hbody := h.leaf_body
    rw [Tree.id_leaf, descentPath_leaf hbody] at hlast ⊢
    cases hlast
    rw [List.mem_singleton]
    constructor
    · rintro rfl
      exact ⟨⟨0, .refl j⟩, 0, .refl j⟩
    · rintro ⟨⟨d, hd⟩, -⟩
      cases hd with
      | refl => rfl
      | left hi _ => cases hbody.symm.trans hi
      | right hi _ => cases hbody.symm.trans hi
  | node id live total dim split left right ihl ihr =>
    obtain ⟨fuel, rfl⟩ : ∃ n, fuel = n + 1 := ⟨fuel - 1, by omega⟩
    have hbody := h.node_body
    have hend := descentPath_getLast hlast
    rw [Tree.id_node] at hlast hend ⊢
    rw [descentPath_child h hfuel] at hlast
    rw [descentPath_internal hbody, List.mem_cons]
    simp only [Tree.height] at hfuel
    by_cases hj : j = id
    · subst hj
      exact iff_of_true (Or.inl rfl) ⟨⟨0, .refl j⟩, hend⟩
    · rw [or_iff_right hj]
      split_ifs at hlast ⊢
      · rw [ihl h.left fuel (by omega) hlast]
        refine and_congr_left (fun hup => ⟨?_, ?_⟩)
        · rintro ⟨d, hd⟩
          exact ⟨d + 1, .left hbody hd⟩
        rintro ⟨d, hd⟩
        cases hd with
        | refl => exact absurd rfl hj
        | left hi rest =>
          cases hbody.symm.trans hi
          exact ⟨_, rest⟩
        | right hi rest =>
          cases hbody.symm.trans hi
          exact (not_below_both h (descentPath_getLast hlast).choose_spec
            (rest.trans hup.choose_spec)).elim
      · rw [ihr h.right fuel (by omega) hlast]
        refine and_congr_left (fun hup => ⟨?_, ?_⟩)
        · rintro ⟨d, hd⟩
          exact ⟨d + 1, .right hbody hd⟩
        rintro ⟨d, hd⟩
        cases hd with
        | refl => exact absurd rfl hj
        | left hi rest =>
          cases hbody.symm.trans hi
          exact (not_below_both h (rest.trans hup.choose_spec)
            (descentPath_getLast hlast).choose_spec).elim
        | right hi rest =>
          cases hbody.symm.trans hi
          exact ⟨_, rest⟩

end
end TreeBuilder

namespace KDTreeImpl
variable {Dim : ℕ} [NeZero Dim] {K : Type*} [Field K] [LinearOrder K]

/-- The descent for a slot ends at the holder. It counts down the holder and the nodes above it,
and records the nodes above it. -/
structure Finds (env : Env K) (s : KDTreeImpl Dim K) (i holder : ℕ) : Prop where
  ends : (descentPath (s.points.point i) s.pools.nodes.length s.pools s.root).getLast? = some holder
  counts : ∀ j, (∃ d, s.pools.Below s.root d j) → (∃ d, s.pools.Below j d holder) →
    (s.tombstoneIndex env i).pools.node j = (s.pools.node j).addLive env.counter (-1)
  keeps : ∀ j, ¬ ((∃ d, s.pools.Below s.root d j) ∧ ∃ d, s.pools.Below j d holder) →
    (s.tombstoneIndex env i).pools.node j = s.pools.node j
  records : ∃ l, (s.tombstoneIndex env i).modifiedNodes = s.modifiedNodes ++ l ∧
    ∀ j, j ∈ l ↔ (∃ d, s.pools.Below s.root d j) ∧ ∃ d, s.pools.Below j (d + 1) holder

section
variable {env : Env K} {cfg : Config K} {s u : KDTreeImpl Dim K} {o : Option (Tree Dim K)}

omit [NeZero Dim] in
theorem Sound.finds {t : Tree Dim K} (h : Sound s (some t)) {i : ℕ} {pos : ℕ × ℕ} {e : BucketEntry}
    (he : s.EntryAt pos e)
    (hlast : (descentPath (s.points.point i) s.pools.nodes.length s.pools s.root).getLast? =
      some pos.1) : s.Finds env i pos.1 := by
  have holds : Holds s t := h.reads
  obtain ⟨-, -, offset, size, cap, bboxIdx, hleaf, -⟩ := he
  have hmem := fun j => mem_descentPath_iff (j := j) holds.rep s.pools.nodes.length
    holds.height_lt (holds.root ▸ hlast)
  have hnode := tombstoneIndex_node (c := env.counter) (x := s.points.point i) holds.rep
    s.pools.nodes.length s.modifiedNodes
  simp only [holds.root] at hmem hnode
  refine ⟨hlast, fun j hd hu => (hnode j).1 ((hmem j).mpr ⟨hd, hu⟩),
    fun j hj => (hnode j).2 (fun hin => hj ((hmem j).mp hin)), _, tombstoneIndex_modified _, ?_⟩
  intro j
  rw [List.mem_filter, hmem, and_assoc]
  refine and_congr_right (fun _ => ?_)
  constructor
  · rintro ⟨⟨d, hd⟩, hinner⟩
    cases d with
    | zero =>
      cases hd
      rw [TreeNode.isLeaf, hleaf] at hinner
      cases hinner
    | succ d => exact ⟨d, hd⟩
  · rintro ⟨d, hd⟩
    refine ⟨⟨d + 1, hd⟩, ?_⟩
    cases hd with
    | left hi _ => rw [TreeNode.isLeaf, hi]; rfl
    | right hi _ => rw [TreeNode.isLeaf, hi]; rfl

variable [IsStrictOrderedRing K]

/-- A state of a call, from the one before its first action on. -/
def Amid (env : Env K) (s u : KDTreeImpl Dim K) : Prop :=
  u = s ∨ ∃ op a, (s.apply env op).1.NoWrap ∧ (u, a) ∈ s.steps env op

theorem Sound.amid (h : Sound s o) (hu : s.Amid env u) : ∃ o, Sound u o := by
  rcases hu with rfl | ⟨op, a, hn, hm⟩
  · exact ⟨o, h⟩
  · exact steps_sound h hn _ hm

/-- The descent for a live slot finds its entry exactly when the entry is not kept left of a node
that splits at its coordinate. -/
theorem tombstone_finds_iff (hB : 2 * cfg.leafBucketSize ≤ 65535) (h : Reachable env cfg s)
    (hu : s.Amid env u) {i : ℕ} (hi : u.points.isLive i = true) :
    ∃ pos e, u.EntryAt pos e ∧ u.points.valid e = true ∧ e.index = i ∧
      (∀ pos' e', u.EntryAt pos' e' → u.points.valid e' = true → e'.index = i → pos' = pos) ∧
      (u.Finds env i pos.1 ↔ ¬ u.pools.TiedAbove (u.points.point i) u.root pos.1) := by
  obtain ⟨o, hs⟩ := h.sound hB
  obtain ⟨o', hsu⟩ := hs.amid hu
  cases o' with
  | none => exact absurd hi (by simp [hsu.reads.none i])
  | some t =>
    have holds : Holds u t := hsu.reads
    obtain ⟨e, he, hv, rfl⟩ := Tree.mem_validIn.mp ((holds.complete i).mp hi)
    obtain ⟨pos, hpos⟩ := Tree.exists_at he
    have hentry := hsu.entryAt_iff.mpr hpos
    have hends := descentPath_ends_iff holds.rep holds.placed _ holds.height_lt hpos hv
    rw [holds.root] at hends
    refine ⟨pos, e, hentry, hv, rfl, fun pos' e' he' hv' hi' => ?_, fun hf => hends.mp hf.ends,
      fun hfree => hsu.finds hentry (hends.mpr hfree)⟩
    exact (hsu.entryAt_iff.mp he').unique holds.nodup hpos hv' hv hi'

end

/-- Slot 0 is in leaf 1 and the descent for it ends in leaf 3. -/
theorem tombstone_misses_plane :
    Reachable wordEnv (plane 10 1) tiedRun ∧ tiedRun.points.isLive 0 = true ∧
      tiedRun.EntryAt (1, 0) ⟨0, 1⟩ ∧ tiedRun.points.valid ⟨0, 1⟩ = true ∧
      descentPath (tiedRun.points.point 0) tiedRun.pools.nodes.length tiedRun.pools tiedRun.root =
        [0, 2, 3] ∧ ¬ tiedRun.Finds wordEnv 0 1 := by
  have hpath : descentPath (tiedRun.points.point 0) tiedRun.pools.nodes.length tiedRun.pools
      tiedRun.root = [0, 2, 3] := by decide +kernel
  have hbody : (tiedRun.pools.node tiedRun.root).body = .internal 0 5 1 2 := by decide +kernel
  refine ⟨reachable_run (plane_accepted (by decide) (by norm_num)) (by decide +kernel),
    by decide +kernel, ?_, by decide +kernel, hpath, fun hfinds => ?_⟩
  · refine ⟨by decide +kernel, ⟨1, .left hbody (.refl 1)⟩, 0, 1, 2, 0, by decide +kernel,
      by decide +kernel, by decide +kernel⟩
  · have hends := hfinds.ends
    rw [hpath] at hends
    cases hends

/-- Slot 1 has the coordinate of the root split too, but is kept on its right. -/
theorem tombstone_finds_plane : tiedRun.EntryAt (3, 0) ⟨1, 1⟩ ∧ tiedRun.Finds wordEnv 1 3 := by
  have hroot : (tiedRun.pools.node tiedRun.root).body = .internal 0 5 1 2 := by decide +kernel
  have hnode : (tiedRun.pools.node 2).body = .internal 0 9 3 4 := by decide +kernel
  have hleaf₁ : (tiedRun.pools.node 1).body = .leaf 0 1 2 0 := by decide +kernel
  have hleaf₃ : (tiedRun.pools.node 3).body = .leaf 2 1 2 1 := by decide +kernel
  have hleaf₄ : (tiedRun.pools.node 4).body = .leaf 4 1 2 2 := by decide +kernel
  have hentry : tiedRun.EntryAt (3, 0) ⟨1, 1⟩ :=
    ⟨by decide +kernel, ⟨2, .right hroot (.left hnode (.refl 3))⟩, 2, 1, 2, 1, hleaf₃,
      by decide, by decide +kernel⟩
  obtain ⟨pos, e, -, -, -, honly, hiff⟩ := tombstone_finds_iff (by decide)
    (reachable_run (plane_accepted (by decide) (by norm_num)) (by decide +kernel) :
      Reachable wordEnv (plane 10 1) tiedRun) (Or.inl rfl)
    (show tiedRun.points.isLive 1 = true by decide +kernel)
  obtain rfl : (3, 0) = pos := honly _ _ hentry (by decide +kernel) rfl
  refine ⟨hentry, hiff.mpr ?_⟩
  rintro ⟨d, j, dim, split, left, right, f, hj, hb, hl, heq⟩
  cases hj with
  | refl =>
    cases hroot.symm.trans hb
    exact absurd (Pools.below_of_leaf hleaf₁ hl).2 (by decide)
  | left hb' hj =>
    cases hroot.symm.trans hb'
    obtain ⟨-, rfl⟩ := Pools.below_of_leaf hleaf₁ hj
    cases hleaf₁.symm.trans hb
  | right hb' hj =>
    cases hroot.symm.trans hb'
    cases hj with
    | refl =>
      cases hnode.symm.trans hb
      exact absurd heq (by decide +kernel)
    | left hb' hj =>
      cases hnode.symm.trans hb'
      obtain ⟨-, rfl⟩ := Pools.below_of_leaf hleaf₃ hj
      cases hleaf₃.symm.trans hb
    | right hb' hj =>
      cases hnode.symm.trans hb'
      obtain ⟨-, rfl⟩ := Pools.below_of_leaf hleaf₄ hj
      cases hleaf₄.symm.trans hb

end KDTreeImpl
end Copse

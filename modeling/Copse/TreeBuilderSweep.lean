import Copse.TreeBuilderInsert

set_option autoImplicit false

namespace Copse
open FramedStore PointStore

namespace Tree
variable {Dim : ℕ} {K : Type*} [Field K] [LinearOrder K]
variable {points : PointStore Dim K} {B : ℕ} {t t' : Tree Dim K}

/-- `t'` may stand where `t` stood: the same slots are valid in it, and it is in order if `t` is. -/
structure Renewed (points : PointStore Dim K) (B : ℕ) (t t' : Tree Dim K) : Prop where
  perm : (t'.validIn points).Perm (t.validIn points)
  placed : t.Placed points → t'.Placed points
  stamped : points.StampsFit → t.Stamped points → t'.Stamped points
  shape : 0 < B → t.Shape B → t'.Shape B

theorem Renewed.refl (points : PointStore Dim K) (B : ℕ) (t : Tree Dim K) : Renewed points B t t :=
  ⟨List.Perm.refl _, fun h => h, fun _ h => h, fun _ h => h⟩

theorem Renewed.trans {t'' : Tree Dim K} (h : Renewed points B t t') (h' : Renewed points B t' t'') :
    Renewed points B t t'' :=
  ⟨h'.perm.trans h.perm, fun hp => h'.placed (h.placed hp),
    fun fit hs => h'.stamped fit (h.stamped fit hs), fun hB hs => h'.shape hB (h.shape hB hs)⟩

theorem Renewed.left {l l' : Tree Dim K} (h : Renewed points B l l') (id : ℕ) (live total : ℤ)
    (dim : Fin Dim) (split : K) (r : Tree Dim K) :
    Renewed points B (node id live total dim split l r) (node id live total dim split l' r) := by
  refine ⟨?_, ?_, ?_, fun hB hs => ⟨h.shape hB hs.1, hs.2⟩⟩
  · rw [validIn_node, validIn_node]
    exact h.perm.append_right _
  · rintro ⟨hle, hge, hl, hr⟩
    exact ⟨fun i hi => hle i (h.perm.mem_iff.mp hi), hge, h.placed hl, hr⟩
  · intro fit hs
    rw [stamped_node] at hs ⊢
    exact ⟨h.stamped fit hs.1, hs.2⟩

theorem Renewed.right {r r' : Tree Dim K} (h : Renewed points B r r') (id : ℕ) (live total : ℤ)
    (dim : Fin Dim) (split : K) (l : Tree Dim K) :
    Renewed points B (node id live total dim split l r) (node id live total dim split l r') := by
  refine ⟨?_, ?_, ?_, fun hB hs => ⟨hs.1, h.shape hB hs.2⟩⟩
  · rw [validIn_node, validIn_node]
    exact h.perm.append_left _
  · rintro ⟨hle, hge, hl, hr⟩
    exact ⟨hle, fun i hi => hge i (h.perm.mem_iff.mp hi), hl, h.placed hr⟩
  · intro fit hs
    rw [stamped_node] at hs ⊢
    exact ⟨hs.1, h.stamped fit hs.2⟩

end Tree

namespace TreeBuilder

variable {Dim : ℕ} [NeZero Dim] {K : Type*} [Field K] [LinearOrder K]

/-- The alpha and the tombstone trigger, read off a tree. -/
def violates (b : TreeBuilder K) : Tree Dim K → Bool
  | .leaf .. => false
  | .node _ live total _ _ left right =>
    if total = 0 then false
    else
      decide (b.alpha * (total : K) < ((max left.total right.total : ℤ) : K)) ||
        decide (live < total) &&
          decide (b.tombstoneThreshold ≤ ((total - live : ℤ) : K) / (total : K))

omit [NeZero Dim] in
theorem isViolator_eq (b : TreeBuilder K) {p : Pools Dim K} {t : Tree Dim K} (h : t.Rep p) :
    b.isViolator p t.id = b.violates t := by
  have hnode := h.node_eq
  cases t with
  | leaf id live total offset cap bboxIdx es bbox =>
    simp only [Tree.header] at hnode
    simp only [isViolator, hnode, violates]
  | node id live total dim split left right =>
    obtain ⟨-, -, -, -, hl, hr⟩ := h
    simp only [Tree.header] at hnode
    simp only [isViolator, hnode, violates, hl.node_eq, hr.node_eq, Tree.total_header]

/-- The trees that a sweep may leave behind, where it is called and where it is not. -/
inductive Swept (b : TreeBuilder K) (points : PointStore Dim K) (visit : ℕ → Bool) :
    Bool → Tree Dim K → Tree Dim K → Prop where
  | skip (t : Tree Dim K) : Swept b points visit false t t
  | leaf (id : ℕ) (live total : ℤ) (offset cap bboxIdx : ℕ) (es : List BucketEntry)
      (bbox : BBox Dim K) :
    Swept b points visit true (.leaf id live total offset cap bboxIdx es bbox)
      (.leaf id live total offset cap bboxIdx es bbox)
  | rebuild (t t' : Tree Dim K) (trigger : b.violates t = true)
      (rebuilt : Rebuilt b.env.counter points b.leafBucketSize t t') :
    Swept b points visit true t t'
  | keep (id : ℕ) (live total : ℤ) (dim : Fin Dim) (split : K) (left right left' right' : Tree Dim K)
      (before : b.violates (.node id live total dim split left right) = false)
      (sweptLeft : Swept b points visit (visit left.id) left left')
      (sweptRight : Swept b points visit (visit right.id) right right')
      (after : b.violates (.node id live total dim split left' right') = false) :
    Swept b points visit true (.node id live total dim split left right)
      (.node id live total dim split left' right')
  | again (id : ℕ) (live total : ℤ) (dim : Fin Dim) (split : K)
      (left right left' right' t' : Tree Dim K)
      (before : b.violates (.node id live total dim split left right) = false)
      (sweptLeft : Swept b points visit (visit left.id) left left')
      (sweptRight : Swept b points visit (visit right.id) right right')
      (after : b.violates (.node id live total dim split left' right') = true)
      (rebuilt : Rebuilt b.env.counter points b.leafBucketSize
        (.node id live total dim split left' right') t') :
    Swept b points visit true (.node id live total dim split left right) t'

variable {b : TreeBuilder K} {points : PointStore Dim K} {visit : ℕ → Bool}

def sweepChild (b : TreeBuilder K) (points : PointStore Dim K) (visit : ℕ → Bool) (fuel : ℕ)
    (p : Pools Dim K) (i : ℕ) : Pools Dim K :=
  if visit i then b.sweep points visit fuel p i else p

def sweepAgain (b : TreeBuilder K) (points : PointStore Dim K) (p : Pools Dim K) (i : ℕ) :
    Pools Dim K :=
  if b.isViolator p i then b.rebuildAt points p i else p

theorem sweep_leaf {p : Pools Dim K} {i offset size cap bboxIdx : ℕ} (fuel : ℕ)
    (hi : i ≠ invalid) (hn : (p.node i).body = .leaf offset size cap bboxIdx) :
    b.sweep points visit (fuel + 1) p i =
      if 2 * b.leafBucketSize < size then b.rebuildAt points p i else p := by
  simp only [sweep, hi, hn, ↓reduceIte]

theorem sweep_internal {p : Pools Dim K} {i left right : ℕ} {dim : Fin Dim} {split : K} (fuel : ℕ)
    (hi : i ≠ invalid) (hn : (p.node i).body = .internal dim split left right) :
    b.sweep points visit (fuel + 1) p i =
      if b.isViolator p i then b.rebuildAt points p i
      else b.sweepAgain points (b.sweepChild points visit fuel
        (b.sweepChild points visit fuel p left) right) i := by
  simp only [sweep, hi, hn, ↓reduceIte]
  rfl

theorem rebuildAt_grown (p : Pools Dim K) (i : ℕ) : Pools.Grown p (b.rebuildAt points p i) :=
  rebuildSubtreeInPlace_grown _ p i

theorem sweepAgain_grown (p : Pools Dim K) (i : ℕ) :
    Pools.Grown p (b.sweepAgain points p i) := by
  unfold sweepAgain
  split_ifs
  · exact rebuildAt_grown p i
  · exact Pools.Grown.refl p

theorem sweep_grown (fuel : ℕ) (p : Pools Dim K) (i : ℕ) :
    Pools.Grown p (b.sweep points visit fuel p i) := by
  induction fuel generalizing p i with
  | zero => exact Pools.Grown.refl p
  | succ fuel ih =>
    have hchild : ∀ (q : Pools Dim K) (j : ℕ),
        Pools.Grown q (b.sweepChild points visit fuel q j) := by
      intro q j
      unfold sweepChild
      split_ifs
      · exact ih q j
      · exact Pools.Grown.refl q
    by_cases hi : i = invalid
    · simp only [sweep, hi, ↓reduceIte]
      exact Pools.Grown.refl p
    · cases hn : (p.node i).body with
      | leaf offset size cap bboxIdx =>
        rw [sweep_leaf fuel hi hn]
        split_ifs
        · exact rebuildAt_grown p i
        · exact Pools.Grown.refl p
      | internal dim split left right =>
        rw [sweep_internal fuel hi hn]
        split_ifs
        · exact rebuildAt_grown p i
        · exact ((hchild p left).trans (hchild _ right)).trans (sweepAgain_grown _ i)

theorem sweepChild_grown (fuel : ℕ) (p : Pools Dim K) (i : ℕ) :
    Pools.Grown p (b.sweepChild points visit fuel p i) := by
  unfold sweepChild
  split_ifs
  · exact sweep_grown fuel p i
  · exact Pools.Grown.refl p

omit [NeZero Dim] [Field K] in
/-- No bucket holds more than its two times the leaf size, so the sweep leaves leaves alone. -/
theorem entries_le {id : ℕ} {live total : ℤ} {offset cap bboxIdx : ℕ} {es : List BucketEntry}
    {bbox : BBox Dim K}
    (hs : (Tree.leaf id live total offset cap bboxIdx es bbox).Shape b.leafBucketSize) :
    ¬ 2 * b.leafBucketSize < es.length := by
  have hle := hs.2
  omega

theorem sweep_leaf_eq {p : Pools Dim K} {id : ℕ} {live total : ℤ} {offset cap bboxIdx : ℕ}
    {es : List BucketEntry} {bbox : BBox Dim K} (fuel : ℕ)
    (hid : (Tree.leaf id live total offset cap bboxIdx es bbox).id ≠ invalid)
    (h : (Tree.leaf id live total offset cap bboxIdx es bbox).Rep p)
    (hs : (Tree.leaf id live total offset cap bboxIdx es bbox).Shape b.leafBucketSize) :
    b.sweep points visit (fuel + 1) p (Tree.leaf id live total offset cap bboxIdx es bbox).id = p := by
  rw [sweep_leaf fuel hid h.leaf_body, if_neg (entries_le hs)]

/-- The sweep produces one of the trees that `Swept` lists. -/
theorem sweep_spec {p : Pools Dim K} {t : Tree Dim K} (hpos : 0 < b.leafBucketSize)
    (hB : 2 * b.leafBucketSize < 2 ^ 16) (h : t.Rep p) (hs : t.Shape b.leafBucketSize)
    (fuel : ℕ) (hfuel : t.height < fuel) (fit : (b.sweep points visit fuel p t.id).Fit) :
    ∃ t', Swept b points visit true t t' ∧ t.Update p (b.sweep points visit fuel p t.id) t' := by
  induction fuel generalizing p t with
  | zero => omega
  | succ fuel ih =>
    have hvalid := h.id_valid (fit.of_grown (sweep_grown _ _ _))
    have child : ∀ {q : Pools Dim K} {u : Tree Dim K}, u.Rep q → u.Shape b.leafBucketSize →
        u.height < fuel → (b.sweepChild points visit fuel q u.id).Fit →
        ∃ u', Swept b points visit (visit u.id) u u' ∧
          u.Update q (b.sweepChild points visit fuel q u.id) u' := by
      intro q u hu hsu hfu hfit
      cases hv : visit u.id with
      | true =>
        simp only [sweepChild, hv, ↓reduceIte] at hfit ⊢
        exact ih hu hsu hfu hfit
      | false =>
        simp only [sweepChild, hv, Bool.false_eq_true, ↓reduceIte]
        exact ⟨u, .skip u, Tree.Update.refl hu⟩
    have hvio := isViolator_eq b h
    cases t with
    | leaf id live total offset cap bboxIdx es bbox =>
      rw [sweep_leaf_eq fuel hvalid h hs]
      exact ⟨_, .leaf id live total offset cap bboxIdx es bbox, Tree.Update.refl h⟩
    | node id live total dim split left right =>
      simp only [Tree.height] at hfuel
      rw [sweep_internal fuel hvalid h.node_body, hvio] at fit ⊢
      cases hbefore : b.violates (.node id live total dim split left right) with
      | true =>
        simp only [hbefore, ↓reduceIte] at fit ⊢
        obtain ⟨t', hreb, hup⟩ := rebuildSubtreeInPlace_spec b.env hpos hB h fit
        exact ⟨t', .rebuild _ t' hbefore hreb, hup⟩
      | false =>
        simp only [hbefore, Bool.false_eq_true, ↓reduceIte] at fit ⊢
        have fit₂ := fit.of_grown (sweepAgain_grown _ _)
        obtain ⟨left', hsl, hul⟩ := child h.left hs.1 (by omega)
          (fit₂.of_grown (sweepChild_grown _ _ _))
        have hup := h.update_left hul
        obtain ⟨right', hsr, hur⟩ := child hup.rep.right hs.2 (by omega) fit₂
        have hup' := hup.trans (hup.rep.update_right hur)
        have hvio' := isViolator_eq b hup'.rep
        simp only [Tree.id_node] at hvio' fit ⊢
        rw [sweepAgain, hvio'] at fit ⊢
        cases hafter : b.violates (.node id live total dim split left' right') with
        | true =>
          simp only [hafter, ↓reduceIte] at fit ⊢
          obtain ⟨t', hreb, hup''⟩ := rebuildSubtreeInPlace_spec b.env hpos hB hup'.rep fit
          exact ⟨t', .again id live total dim split left right left' right' t' hbefore hsl hsr
            hafter hreb, hup'.trans hup''⟩
        | false =>
          exact ⟨_, .keep id live total dim split left right left' right' hbefore hsl hsr hafter,
            hup'⟩

omit [NeZero Dim]

section outcome
variable {t t' : Tree Dim K} {called : Bool}

theorem Rebuilt.renewed (h : Rebuilt b.env.counter points b.leafBucketSize t t') :
    t.Renewed points b.leafBucketSize t' :=
  ⟨h.validIn_perm, fun _ => h.placed, h.stamped, fun hpos _ => h.built.shape hpos⟩

theorem Swept.renewed (h : Swept b points visit called t t') :
    t.Renewed points b.leafBucketSize t' := by
  induction h with
  | skip t => exact .refl _ _ t
  | leaf => exact .refl _ _ _
  | rebuild t t' _ rebuilt => exact rebuilt.renewed
  | keep id live total dim split left right left' right' _ _ _ _ ihl ihr =>
    exact (ihl.left id live total dim split right).trans (ihr.right id live total dim split left')
  | again id live total dim split left right left' right' t' _ _ _ _ rebuilt ihl ihr =>
    exact ((ihl.left id live total dim split right).trans
      (ihr.right id live total dim split left')).trans rebuilt.renewed

end outcome
end TreeBuilder
end Copse

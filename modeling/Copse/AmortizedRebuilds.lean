import Copse.RebuildPotential
import Copse.KDTreeTotalCounts
import Copse.InPlaceRebuild

set_option autoImplicit false

namespace Copse
open TreeBuilder TransitionRuns

namespace TreeBuilder
variable {Dim : ℕ} [NeZero Dim] {K : Type*} [Field K] [LinearOrder K]

/-- How many entries a rebuild reads, given the pools it starts from and its node. A rebuild that
finds none counts as one read. -/
def scanned (m : Pools Dim K × ℕ) : ℕ := max 1 (entriesBelow m.1.nodes.length m.1 m.2).length

def insertRebuilds (b : TreeBuilder K) (points : PointStore Dim K) (index : ℕ) :
    ℕ → Pools Dim K → ℕ → List (Pools Dim K × ℕ)
  | 0, _, _ => []
  | fuel + 1, p, nodeIdx =>
    let p := countNode b.env.counter p nodeIdx
    match (p.node nodeIdx).body with
    | .leaf offset size capacity bboxIdx =>
      let (_, size', _) := p.leafBuckets.push offset size capacity (stamp points index)
      if size' = capacity then
        [(pushInto points index p nodeIdx offset size capacity bboxIdx, nodeIdx)]
      else []
    | .internal dim split left right =>
      insertRebuilds b points index fuel p (if points.point index dim < split then left else right)

section
variable {b : TreeBuilder K} {points : PointStore Dim K} {index : ℕ} {visit : ℕ → Bool} {c : K}
variable {p : Pools Dim K} {t : Tree Dim K}

omit [NeZero Dim] [LinearOrder K] in
theorem scanned_eq (h : t.Rep p) : scanned (p, t.id) = max 1 t.entries.length := by
  have hheight : t.height < p.nodes.length := by
    have hlt := h.height_lt
    omega
  rw [scanned, entriesBelow_eq h _ hheight]

omit [NeZero Dim] in
theorem insertRebuilds_scanned (h : t.Rep p) (hs : t.Shape b.leafBucketSize)
    (hB : 2 * b.leafBucketSize < 2 ^ 16) (fit : p.Fit) (fuel : ℕ) (hfuel : t.height < fuel) :
    ((b.insertRebuilds points index fuel p t.id).map scanned).sum = t.splitEntries points index := by
  induction t generalizing p fuel with
  | leaf id live total offset cap bboxIdx es bbox =>
    obtain ⟨fuel, rfl⟩ : ∃ n, fuel = n + 1 := ⟨fuel - 1, by omega⟩
    obtain ⟨rfl, hlen⟩ := hs
    have hup := h.update_counted b.env.counter
    rw [Tree.counted_leaf] at hup
    simp only [Tree.id_leaf] at hup ⊢
    have hpush := push_update (stamp points index) (points.point index) hup.rep hlen
    have hslot : offset + es.length < 2 ^ 32 := (h.2.2.1 es.length hlen).trans fit.slots
    have hnode := hup.rep.node_eq
    simp only [Tree.id_leaf, Tree.header] at hnode
    have hpushed := scanned_eq hpush.rep
    simp only [insertRebuilds, countNode, pushInto, hnode, hup.rep.leaf_bbox, LeafBucket.push,
      hlen.ne, ↓reduceIte, u32_of_lt hslot, u16_of_lt (show es.length + 1 < 2 ^ 16 by omega),
      Tree.splitEntries]
    split_ifs
    · have hlen' : (es ++ [stamp points index]).length = es.length + 1 := List.length_append
      rw [List.map_singleton, List.sum_singleton]
      refine hpushed.trans ?_
      rw [Tree.entries, hlen']
      omega
    · rfl
  | node id live total dim split left right ihl ihr =>
    obtain ⟨fuel, rfl⟩ : ∃ n, fuel = n + 1 := ⟨fuel - 1, by omega⟩
    simp only [Tree.height] at hfuel
    have hup := h.update_counted b.env.counter
    rw [Tree.counted_node] at hup
    simp only [Tree.id_node] at hup ⊢
    simp only [insertRebuilds, countNode, hup.rep.node_body, Tree.splitEntries]
    have hfit : (p.modifyNode id (fun n => (n.addTotal b.env.counter 1).addLive b.env.counter 1)).Fit :=
      ⟨by simpa [Pools.modifyNode] using fit.nodes, fit.slots, fit.boxes⟩
    split_ifs
    · exact ihl hup.rep.left hs.1 hfit fuel (by omega)
    · exact ihr hup.rep.right hs.2 hfit fuel (by omega)

variable [IsStrictOrderedRing K]

/-- A sweep that read `n` entries and paid for them from the potential. -/
structure SweepPaid (b : TreeBuilder K) (points : PointStore Dim K) (visit : ℕ → Bool) (c : K)
    (called : Bool) (n : ℕ) (p : Pools Dim K) (t : Tree Dim K) (q : Pools Dim K) (t' : Tree Dim K) :
    Prop where
  swept : Swept b points visit called t t'
  update : t.Update p q t'
  paid : c * (n : K) + (t'.potential b.leafBucketSize : K) ≤ (t.potential b.leafBucketSize : K)

def childReads (b : TreeBuilder K) (points : PointStore Dim K) (visit : ℕ → Bool) (fuel : ℕ)
    (p : Pools Dim K) (i : ℕ) : ℕ :=
  ((if visit i then b.sweepRebuilds points visit fuel p i else []).map scanned).sum

theorem sweepChild_paid (h : t.Rep p) (fuel : ℕ)
    (hpaid : visit t.id = true → ∃ t', SweepPaid b points visit c true
      ((b.sweepRebuilds points visit fuel p t.id).map scanned).sum p t
      (b.sweep points visit fuel p t.id) t') :
    ∃ t', SweepPaid b points visit c (visit t.id) (b.childReads points visit fuel p t.id) p t
      (b.sweepChild points visit fuel p t.id) t' := by
  rw [childReads, sweepChild]
  cases hv : visit t.id with
  | true => exact hpaid hv
  | false => exact ⟨t, .skip t, Tree.Update.refl h, by simp⟩

section node
variable {id : ℕ} {live total : ℤ} {dim : Fin Dim} {split : K} {left right left' right' : Tree Dim K}
variable {q r : Pools Dim K} {n m : ℕ}

omit [NeZero Dim] in
theorem SweepPaid.node (hexact : b.env.counter = .exact)
    (h : (Tree.node id live total dim split left right).Rep p)
    (ha : (Tree.node id live total dim split left right).All (Tree.Accounted b.leafBucketSize))
    (hl : SweepPaid b points visit c (visit left.id) n p left q left')
    (hr : SweepPaid b points visit c (visit right.id) m q right r right') :
    (Tree.node id live total dim split left right).Update p r
        (.node id live total dim split left' right') ∧
      (Tree.node id live total dim split left' right').All (Tree.Accounted b.leafBucketSize) ∧
      c * ((n + m : ℕ) : K) +
          ((Tree.node id live total dim split left' right').potential b.leafBucketSize : K) ≤
        ((Tree.node id live total dim split left right).potential b.leafBucketSize : K) := by
  obtain ⟨hal, htl, hel⟩ := hl.swept.accounted hexact ha.2.1
  obtain ⟨har, htr, her⟩ := hr.swept.accounted hexact ha.2.2
  have hup := h.update_left hl.update
  refine ⟨hup.trans (hup.rep.update_right hr.update), ⟨(ha.root.node_le hel her).1, hal, har⟩, ?_⟩
  have hdebt : ((Tree.node id live total dim split left' right').debt b.leafBucketSize : K) ≤
      ((Tree.node id live total dim split left right).debt b.leafBucketSize : K) := by
    exact_mod_cast Tree.debt_node_le htl htr
  have hpl := hl.paid
  have hpr := hr.paid
  simp only [Tree.potential, Int.cast_add, Nat.cast_add, mul_add]
  linarith

theorem sweepAgain_paid (hrate : b.Rate c) (hexact : b.env.counter = .exact)
    (hpos : 0 < b.leafBucketSize) (hB : 2 * b.leafBucketSize < 2 ^ 16)
    (h : (Tree.node id live total dim split left right).Rep p)
    (ha : (Tree.node id live total dim split left right).All (Tree.Accounted b.leafBucketSize))
    (before : b.violates (.node id live total dim split left right) = false)
    (hl : SweepPaid b points visit c (visit left.id) n p left q left')
    (hr : SweepPaid b points visit c (visit right.id) m q right r right')
    (fit : (b.sweepAgain points r id).Fit) :
    ∃ t', SweepPaid b points visit c true
      (n + m + ((if b.isViolator r id then [(r, id)] else []).map scanned).sum) p
      (.node id live total dim split left right) (b.sweepAgain points r id) t' := by
  obtain ⟨hup, hall, hpaid⟩ := SweepPaid.node hexact h ha hl hr
  have hvio := isViolator_eq b hup.rep
  have hread := scanned_eq hup.rep
  rw [Tree.id_node] at hvio hread
  rw [sweepAgain, hvio] at fit ⊢
  cases hafter : b.violates (.node id live total dim split left' right') with
  | true =>
    rw [hafter, if_pos rfl] at fit
    rw [if_pos rfl, if_pos rfl, List.map_singleton, List.sum_singleton, hread]
    obtain ⟨t', rebuilt, hup'⟩ := rebuildSubtreeInPlace_spec b.env hpos hB hup.rep fit
    refine ⟨t', .again id live total dim split left right left' right' t' before hl.swept hr.swept
      hafter rebuilt, hup.trans hup', ?_⟩
    have hpay := hrate.pays hexact hall hafter rebuilt
    rw [Nat.cast_add, mul_add]
    linarith
  | false =>
    rw [if_neg Bool.false_ne_true, if_neg Bool.false_ne_true]
    exact ⟨_, .keep id live total dim split left right left' right' before hl.swept hr.swept hafter,
      hup, hpaid⟩

end node

/-- The potential pays for the entries that the rebuilds of a sweep read. -/
theorem sweep_amortized (hr : b.Rate c) (hexact : b.env.counter = .exact)
    (hpos : 0 < b.leafBucketSize) (hB : 2 * b.leafBucketSize < 2 ^ 16) (h : t.Rep p)
    (hs : t.Shape b.leafBucketSize) (ha : t.All (Tree.Accounted b.leafBucketSize)) (fuel : ℕ)
    (hfuel : t.height < fuel) (fit : (b.sweep points visit fuel p t.id).Fit) :
    ∃ t', SweepPaid b points visit c true
      ((b.sweepRebuilds points visit fuel p t.id).map scanned).sum p t
      (b.sweep points visit fuel p t.id) t' := by
  induction fuel generalizing p t with
  | zero => omega
  | succ fuel ih =>
    have hvalid := h.id_valid (fit.of_grown (sweep_grown _ _ _))
    have child : ∀ {q : Pools Dim K} {u : Tree Dim K}, u.Rep q → u.Shape b.leafBucketSize →
        u.All (Tree.Accounted b.leafBucketSize) → u.height < fuel →
        (b.sweepChild points visit fuel q u.id).Fit →
        ∃ u', SweepPaid b points visit c (visit u.id) (b.childReads points visit fuel q u.id) q u
          (b.sweepChild points visit fuel q u.id) u' := by
      intro q u hu hsu hau hfu hfit
      refine sweepChild_paid hu fuel (fun hv => ih hu hsu hau hfu ?_)
      rwa [sweepChild, hv, if_pos rfl] at hfit
    cases t with
    | leaf id live total offset cap bboxIdx es bbox =>
      rw [sweep_leaf_eq fuel hvalid h hs, sweepRebuilds_leaf fuel hvalid h.leaf_body,
        if_neg (entries_le hs)]
      exact ⟨_, .leaf id live total offset cap bboxIdx es bbox, Tree.Update.refl h, by simp⟩
    | node id live total dim split left right =>
      have hvio := isViolator_eq b h
      have hread := scanned_eq h
      simp only [Tree.id_node] at hvalid hvio hread fit ⊢
      simp only [Tree.height] at hfuel
      rw [sweep_internal fuel hvalid h.node_body, hvio] at fit ⊢
      rw [sweepRebuilds_internal fuel hvalid h.node_body, hvio]
      cases before : b.violates (.node id live total dim split left right) with
      | true =>
        rw [before, if_pos rfl] at fit
        rw [if_pos rfl, if_pos rfl, List.map_singleton, List.sum_singleton, hread]
        obtain ⟨t', rebuilt, hup⟩ := rebuildSubtreeInPlace_spec b.env hpos hB h fit
        exact ⟨t', .rebuild _ t' before rebuilt, hup, hr.pays hexact ha before rebuilt⟩
      | false =>
        rw [before, if_neg Bool.false_ne_true] at fit
        rw [if_neg Bool.false_ne_true, if_neg Bool.false_ne_true]
        dsimp only
        rw [List.map_append, List.map_append, List.sum_append, List.sum_append]
        have fit₂ := fit.of_grown (sweepAgain_grown _ _)
        obtain ⟨left', hl⟩ := child h.left hs.1 ha.2.1 (by omega)
          (fit₂.of_grown (sweepChild_grown _ _ _))
        obtain ⟨right', hright⟩ := child (h.update_left hl.update).rep.right hs.2 ha.2.2 (by omega)
          fit₂
        exact sweepAgain_paid hr hexact hpos hB h ha before hl hright fit

end
end TreeBuilder

theorem Tree.exists_sub_height {Dim : ℕ} {K : Type*} (t : Tree Dim K) : ∃ u, t.Sub t.height u := by
  induction t with
  | leaf => exact ⟨_, .refl _⟩
  | node id live total dim split left right ihl ihr =>
    rcases le_total left.height right.height with hle | hle
    · obtain ⟨u, hu⟩ := ihr
      refine ⟨u, ?_⟩
      rw [Tree.height, max_eq_right hle]
      exact .right id live total dim split hu
    · obtain ⟨u, hu⟩ := ihl
      refine ⟨u, ?_⟩
      rw [Tree.height, max_eq_left hle]
      exact .left id live total dim split hu

namespace KDTreeImpl
variable {Dim : ℕ} [NeZero Dim] {K : Type*} [Field K] [LinearOrder K]

def partialRebuilds (env : Env K) (s : KDTreeImpl Dim K) :
    Action Dim K → List (Pools Dim K × ℕ)
  | .insertPoint x =>
    if s.accepts x = true ∧ s.root ≠ invalid then
      (s.builder env).insertRebuilds (s.points.acquire x).1 (s.points.acquire x).2
        s.pools.nodes.length s.pools s.root
    else []
  | .sweepFull =>
    (s.builder env).sweepRebuilds s.points (fun _ => true) s.pools.nodes.length s.pools s.root
  | .sweep =>
    if s.modifiedNodes = [] then []
    else (s.builder env).sweepRebuilds s.points s.visits s.pools.nodes.length s.pools s.root
  | _ => []

def rebuildReads (env : Env K) (s : KDTreeImpl Dim K) (a : Action Dim K) : ℕ :=
  ((s.partialRebuilds env a).map scanned).sum

/-- How many points an action takes in or lets go. -/
def handled (env : Env K) (s : KDTreeImpl Dim K) : Action Dim K → ℕ
  | .insertPoint x => if s.accepts x = true then 1 else 0
  | .removeIndex _ => 1
  | .deleteRegion rg => (deleteRegion env.counter s rg).2
  | _ => 0

def DepthWithin (H : ℕ) (s : KDTreeImpl Dim K) : Prop :=
  ∀ d i, s.pools.Below s.root d i → d ≤ H

/-- The potential of the tree that a state stands for. -/
def potentialOf (B : ℕ) : Option (Tree Dim K) → K
  | none => 0
  | some t => t.potential B

/-- The ghost of the potential method: the tree behind a state, with its counts in order. -/
structure Audited (cfg : Config K) (s : KDTreeImpl Dim K) (o : Option (Tree Dim K)) : Prop where
  sound : Sound s o
  config : s.cfg = cfg
  accounted : Tree.IfAny (Tree.All (Tree.Accounted cfg.leafBucketSize)) o

/-- An action whose reads and rise of the potential the points it handles pay for. -/
def Paid (env : Env K) (cfg : Config K) (c : K) (H : ℕ) (s : KDTreeImpl Dim K) (a : Action Dim K)
    (o : Option (Tree Dim K)) : Prop :=
  ∃ o', Audited cfg (s.act env a) o' ∧
    c * (s.rebuildReads env a : K) + potentialOf cfg.leafBucketSize o' ≤
      ((H : K) + 1) * (s.handled env a : K) + potentialOf cfg.leafBucketSize o

section
variable {env : Env K} {cfg : Config K} {s : KDTreeImpl Dim K} {o : Option (Tree Dim K)} {c : K}
variable {H : ℕ} {t : Tree Dim K}

omit [NeZero Dim] in
theorem Holds.height_le (h : Holds s t) (hH : s.DepthWithin H) : t.height ≤ H := by
  obtain ⟨u, hu⟩ := t.exists_sub_height
  have hbelow := h.rep.below_iff.mpr ⟨u, hu, rfl⟩
  rw [h.root] at hbelow
  exact hH _ _ hbelow

variable [IsStrictOrderedRing K]

theorem insertPoint_paid (hexact : env.counter = .exact) (hc : 2 * c ≤ 1) (h : Audited cfg s o)
    (x : Point Dim K) (hn : (s.act env (.insertPoint x)).NoWrap) (hH : s.DepthWithin H) :
    Paid env cfg c H s (.insertPoint x) o := by
  obtain rfl : s.cfg = cfg := h.config
  have hsound := h.sound
  have hcfg := (act_cfg (s := s) env (.insertPoint x)).1
  cases hx : s.accepts x with
  | false =>
    have hact := act_rejected env hx
    refine ⟨o, by rwa [hact], ?_⟩
    simp [rebuildReads, partialRebuilds, handled, hx]
  | true =>
    have hact := act_inserts env hx
    have hhandled : s.handled env (.insertPoint x) = 1 := by simp [handled, hx]
    rw [hact] at hn
    cases o with
    | none =>
      obtain ⟨t', built, hs'⟩ := acceptPoint_vacant x hsound hn
      have hroot : s.root = invalid := hsound.reads.root
      rw [hexact] at built
      rw [← hact] at hs'
      refine ⟨some t', ⟨hs', hcfg, built.accounted⟩, ?_⟩
      have hread : s.rebuildReads env (.insertPoint x) = 0 := by
        simp [rebuildReads, partialRebuilds, hroot]
      rw [hread, hhandled, potentialOf, potentialOf, built.potential_eq]
      have hpos : (0 : K) ≤ H := Nat.cast_nonneg H
      simp only [Nat.cast_zero, Int.cast_zero, Nat.cast_one]
      linarith
    | some t =>
      have holds : Holds s t := hsound.reads
      obtain ⟨t', inserted, hs'⟩ := acceptPoint_holds x hsound hn
      have hroot := holds.root_valid hsound.noWrap
      have hacc : t.All (Tree.Accounted s.cfg.leafBucketSize) := h.accounted
      have hread : s.rebuildReads env (.insertPoint x) =
          t.splitEntries (s.points.acquire x).1 (s.points.acquire x).2 := by
        rw [rebuildReads, partialRebuilds, if_pos ⟨hx, hroot⟩, ← holds.root]
        exact insertRebuilds_scanned holds.rep holds.shape hsound.small hsound.noWrap.pools _
          holds.height_lt
      rw [← hact] at hs'
      refine ⟨some t', ⟨hs', hcfg, (inserted.accounted hexact hacc).1⟩, ?_⟩
      rw [hread, hhandled, potentialOf, potentialOf]
      have hpot : (t.splitEntries (s.points.acquire x).1 (s.points.acquire x).2 : K) +
          2 * (t'.potential s.cfg.leafBucketSize : K) ≤
            2 * ((t.potential s.cfg.leafBucketSize : K) + ((t.height : K) + 1)) := by
        exact_mod_cast inserted.potential_le hexact holds.shape hacc
      have hheight : (t.height : K) ≤ H := by exact_mod_cast holds.height_le hH
      have hsplit : (0 : K) ≤ (t.splitEntries (s.points.acquire x).1 (s.points.acquire x).2 : ℕ) :=
        Nat.cast_nonneg _
      have hhalf := mul_le_mul_of_nonneg_right hc hsplit
      simp only [Nat.cast_one]
      linarith

theorem removeIndex_paid (hexact : env.counter = .exact) (h : Audited cfg s o) {i : ℕ}
    (hi : s.points.isLive i = true) (hn : (s.act env (.removeIndex i)).NoWrap)
    (hH : s.DepthWithin H) : Paid env cfg c H s (.removeIndex i) o := by
  obtain rfl : s.cfg = cfg := h.config
  cases o with
  | none =>
    have hdead := h.sound.reads.none i
    rw [hi] at hdead
    cases hdead
  | some t =>
    have holds : Holds s t := h.sound.reads
    have hs' := removeIndex_holds i h.sound hi hn
    rw [hexact] at hs'
    refine ⟨_, ⟨hs', (act_cfg env (.removeIndex i)).1, Tree.accounted_tombstone _ h.accounted⟩, ?_⟩
    have hpot : ((t.tombstone .exact (s.points.point i)).potential s.cfg.leafBucketSize : K) ≤
        (t.potential s.cfg.leafBucketSize : K) + t.height := by
      exact_mod_cast Tree.potential_tombstone (s.points.point i) t
    have hheight : (t.height : K) ≤ H := by exact_mod_cast holds.height_le hH
    simp only [rebuildReads, partialRebuilds, handled, potentialOf, List.map_nil, List.sum_nil,
      Nat.cast_zero, Nat.cast_one]
    linarith

theorem deleteRegion_paid (hexact : env.counter = .exact) (h : Audited cfg s o) (rg : Region Dim K)
    (hn : (s.act env (.deleteRegion rg)).NoWrap) (hH : s.DepthWithin H) :
    Paid env cfg c H s (.deleteRegion rg) o := by
  obtain rfl : s.cfg = cfg := h.config
  have hcfg := (act_cfg (s := s) env (.deleteRegion rg)).1
  cases o with
  | none =>
    have hact : s.act env (.deleteRegion rg) = s := by
      rw [act, deleteRegion_vacant _ rg h.sound.reads]
    refine ⟨none, by rwa [hact], ?_⟩
    simp [rebuildReads, partialRebuilds, handled, deleteRegion_vacant _ rg h.sound.reads]
  | some t =>
    have holds : Holds s t := h.sound.reads
    obtain ⟨t', hd, hs', -, hcount⟩ := deleteRegion_holds env.counter rg h.sound hn
    rw [hexact] at hd
    refine ⟨some t', ⟨hs', hcfg, hd.accounted h.accounted⟩, ?_⟩
    have hhandled : s.handled env (.deleteRegion rg) = t.entries.countP (gone s.points rg.hit) := by
      rw [handled, hcount, hitSlots, goneIn_length]
    have hpot : (t'.potential s.cfg.leafBucketSize : K) ≤ (t.potential s.cfg.leafBucketSize : K) +
        (t.entries.countP (gone s.points rg.hit) : ℕ) * (t.height : K) := by
      exact_mod_cast hd.potential_le
    have hheight : (t.height : K) ≤ H := by exact_mod_cast holds.height_le hH
    have hcost := mul_le_mul_of_nonneg_left hheight
      (Nat.cast_nonneg (t.entries.countP (gone s.points rg.hit)) : (0 : K) ≤ _)
    rw [hhandled]
    simp only [rebuildReads, partialRebuilds, potentialOf, List.map_nil, List.sum_nil, Nat.cast_zero]
    have hcount' : (0 : K) ≤ (t.entries.countP (gone s.points rg.hit) : ℕ) := Nat.cast_nonneg _
    nlinarith

theorem sweepFull_paid (hexact : env.counter = .exact) (hr : (s.builder env).Rate c)
    (h : Audited cfg s o) (hn : (s.act env .sweepFull).NoWrap) :
    Paid env cfg c H s .sweepFull o := by
  obtain rfl : s.cfg = cfg := h.config
  have hcfg := (act_cfg (s := s) env .sweepFull).1
  cases o with
  | none =>
    refine ⟨none, ⟨sweepFull_vacant h.sound hn, hcfg, trivial⟩, ?_⟩
    have hroot : s.root = invalid := h.sound.reads.root
    simp [rebuildReads, partialRebuilds, handled, hroot, sweepRebuilds_invalid]
  | some t =>
    have holds : Holds s t := h.sound.reads
    have heq : s.maybePartialRebuildFull env =
        { s with
          pools := (s.builder env).sweepFull s.points s.pools.nodes.length s.pools t.id
          modifiedNodes := [] } := by
      simp only [maybePartialRebuildFull, holds.root_valid h.sound.noWrap, ↓reduceIte, holds.root]
      rfl
    rw [act, heq] at hn
    obtain ⟨t', hs, hup, hpay⟩ := sweep_amortized hr hexact h.sound.pos h.sound.small holds.rep
      holds.shape h.accounted _ holds.height_lt hn.pools
    refine ⟨some t', ⟨?_, hcfg, (hs.accounted hexact h.accounted).1⟩, ?_⟩
    · rw [act, heq]
      exact h.sound.renewed hup hs.renewed [] hn
    · rw [rebuildReads, partialRebuilds, ← holds.root, show s.handled env .sweepFull = 0 from rfl,
        Nat.cast_zero, mul_zero, zero_add]
      exact hpay

theorem sweep_paid (hexact : env.counter = .exact) (hr : (s.builder env).Rate c)
    (h : Audited cfg s o) (hn : (s.act env .sweep).NoWrap) : Paid env cfg c H s .sweep o := by
  obtain rfl : s.cfg = cfg := h.config
  have hcfg := (act_cfg (s := s) env .sweep).1
  cases o with
  | none =>
    refine ⟨none, ⟨sweep_vacant h.sound hn, hcfg, trivial⟩, ?_⟩
    have hroot : s.root = invalid := h.sound.reads.root
    simp [rebuildReads, partialRebuilds, handled, hroot, sweepRebuilds_invalid]
  | some t =>
    have holds : Holds s t := h.sound.reads
    have hroot := holds.root_valid h.sound.noWrap
    by_cases hm : s.modifiedNodes = []
    · have heq : s.maybePartialRebuild env = { s with pools := s.pools, modifiedNodes := [] } := by
        simp only [maybePartialRebuild, hm, or_true, ↓reduceIte]
      rw [act, heq] at hn
      refine ⟨some t, ⟨?_, hcfg, h.accounted⟩, ?_⟩
      · rw [act, heq]
        exact h.sound.renewed (.refl holds.rep) (.refl _ _ t) [] hn
      · simp [rebuildReads, partialRebuilds, handled, hm]
    · have heq := sweep_eq env hroot hm
      rw [act, heq] at hn
      have hfit := hn.pools
      dsimp only at hfit
      rw [← holds.root] at hfit
      obtain ⟨t', hs, hup, hpay⟩ := sweep_amortized hr hexact h.sound.pos h.sound.small holds.rep
        holds.shape h.accounted _ holds.height_lt hfit
      refine ⟨some t', ⟨?_, hcfg, (hs.accounted hexact h.accounted).1⟩, ?_⟩
      · rw [act, heq]
        rw [holds.root] at hup
        exact h.sound.renewed hup hs.renewed [] hn
      · rw [rebuildReads, partialRebuilds, if_neg hm, ← holds.root,
          show s.handled env .sweep = 0 from rfl, Nat.cast_zero, mul_zero, zero_add]
        exact hpay

omit [NeZero Dim] in
theorem Audited.potential_nonneg (h : Audited cfg s o) :
    (0 : K) ≤ potentialOf cfg.leafBucketSize o := by
  cases o with
  | none => exact le_rfl
  | some t => exact Int.cast_nonneg (Tree.potential_nonneg h.accounted)

omit [IsStrictOrderedRing K] in
theorem rebuildAll_audited (hexact : env.counter = .exact) (h : Audited cfg s o)
    (hn : (s.act env .rebuildAll).NoWrap) :
    ∃ o', Audited cfg (s.act env .rebuildAll) o' ∧
      potentialOf cfg.leafBucketSize o' = (0 : K) := by
  obtain rfl : s.cfg = cfg := h.config
  have hcfg := (act_cfg (s := s) env .rebuildAll).1
  obtain ⟨o', hev, hs'⟩ := rebuildAll_sound h.sound hn
  cases hev with
  | emptied => exact ⟨none, ⟨hs', hcfg, trivial⟩, rfl⟩
  | rebuilt _ window t' _ built =>
    rw [hexact] at built
    refine ⟨some t', ⟨hs', hcfg, built.accounted⟩, ?_⟩
    rw [potentialOf, built.potential_eq, Int.cast_zero]

theorem rebuildAll_paid (hexact : env.counter = .exact) (h : Audited cfg s o)
    (hn : (s.act env .rebuildAll).NoWrap) : Paid env cfg c H s .rebuildAll o := by
  obtain ⟨o', ho', hzero⟩ := rebuildAll_audited hexact h hn
  refine ⟨o', ho', ?_⟩
  rw [hzero]
  simpa [rebuildReads, partialRebuilds, handled] using h.potential_nonneg

theorem act_paid (hexact : env.counter = .exact) (hr : (s.builder env).Rate c) (hc : 2 * c ≤ 1)
    (h : Audited cfg s o) {a : Action Dim K} (ready : s.Ready a) (hn : (s.act env a).NoWrap)
    (hH : s.DepthWithin H) : Paid env cfg c H s a o := by
  cases a with
  | insertPoint x => exact insertPoint_paid hexact hc h x hn hH
  | removeIndex i => exact removeIndex_paid hexact h ready hn hH
  | deleteRegion rg => exact deleteRegion_paid hexact h rg hn hH
  | sweepFull => exact sweepFull_paid hexact hr h hn
  | sweep => exact sweep_paid hexact hr h hn
  | rebuildAll => exact rebuildAll_paid hexact h hn

section
omit [IsStrictOrderedRing K]

theorem insertLoop_handled (batch : List (Point Dim K)) :
    ((stepsOf (act env) s (batch.map .insertPoint)).map (fun m => m.1.handled env m.2)).sum =
      (insertLoop env s batch).2 := by
  induction batch generalizing s with
  | nil => rfl
  | cons x batch ih =>
    have hfirst : s.handled env (.insertPoint x) = (s.insertPoint env x).2 := by
      rw [handled, insertPoint]
      split_ifs <;> rfl
    simp only [List.map_cons, stepsOf, List.sum_cons, ih, hfirst, insertLoop]
    rfl

theorem removals_handled (l : List ℕ) :
    ((stepsOf (act env) s (l.map .removeIndex)).map (fun m => m.1.handled env m.2)).sum =
      l.length := by
  induction l generalizing s with
  | nil => rfl
  | cons i l ih =>
    rw [List.map_cons, stepsOf, List.map_cons, List.sum_cons, ih, List.length_cons]
    exact Nat.add_comm _ _

theorem removeLoop_handled (queries : List (Point Dim K)) :
    ((removeSteps env s queries).map (fun m => m.1.handled env m.2)).sum =
      (removeLoop env s queries).2 := by
  induction queries generalizing s with
  | nil => rfl
  | cons query queries ih =>
    rw [removeSteps, List.map_append, List.sum_append, ih, removals, removals_handled, removeLoop,
      ← removeLoop_fst, removals]

theorem boxDeleteLoop_handled (boxes : List (BBox Dim K)) :
    ((stepsOf (act env) s (boxes.map (fun box => .deleteRegion (Region.box box)))).map
      (fun m => m.1.handled env m.2)).sum = (boxDeleteLoop env s boxes).2 := by
  induction boxes generalizing s with
  | nil => rfl
  | cons box boxes ih =>
    simp only [List.map_cons, stepsOf, List.sum_cons, ih, boxDeleteLoop]
    rfl

end

theorem steps_handled (op : Op Dim K) :
    ((s.steps env op).map (fun m => m.1.handled env m.2)).sum = (s.apply env op).2 := by
  have hclosing : ∀ (r : KDTreeImpl Dim K × ℕ) (a : Action Dim K), a = .sweep ∨ a = .sweepFull →
      ((closing r a).map (fun m => m.1.handled env m.2)).sum = 0 := by
    intro r a ha
    rw [closing]
    split_ifs
    · rcases ha with rfl | rfl <;> rfl
    · rfl
  cases op with
  | insert batch =>
    rw [steps, List.map_append, List.sum_append, insertLoop_handled, hclosing _ _ (.inr rfl)]
    rfl
  | remove queries =>
    rw [steps, List.map_append, List.sum_append, removeLoop_handled, hclosing _ _ (.inl rfl)]
    rfl
  | boxDelete boxes =>
    rw [steps, List.map_append, List.sum_append, boxDeleteLoop_handled, hclosing _ _ (.inl rfl)]
    rfl
  | radiusCrop center r =>
    rw [steps, List.map_cons, List.sum_cons, hclosing _ _ (.inl rfl)]
    rfl
  | rebuildAll => rfl

omit [LinearOrder K] [IsStrictOrderedRing K] in
theorem sum_scaled {α : Type*} (l : List α) (f : α → ℕ) (k : K) :
    (l.map (fun m => k * (f m : K))).sum = k * ((l.map f).sum : ℕ) := by
  rw [List.sum_map_mul_left, Nat.cast_list_sum, List.map_map]
  rfl

end

def calls (env : Env K) [IsStrictOrderedRing K] (s : KDTreeImpl Dim K) (ops : List (Op Dim K)) :
    List (KDTreeImpl Dim K × Op Dim K) :=
  stepsOf (fun s op => (s.apply env op).1) s ops

def callReads (env : Env K) [IsStrictOrderedRing K] (s : KDTreeImpl Dim K) (op : Op Dim K) : ℕ :=
  ((s.steps env op).map (fun m => m.1.rebuildReads env m.2)).sum

/-- The part of a point's levels that pays for reading an entry. -/
def rebuildRate (cfg : Config K) : K :=
  min cfg.tombstoneThreshold ((cfg.alpha - (1 - cfg.alpha)) / 3)

section
variable {env : Env K} {cfg : Config K} {s : KDTreeImpl Dim K} {o : Option (Tree Dim K)} {c : K}
variable {H : ℕ} [IsStrictOrderedRing K]

theorem counts_eq (ops : List (Op Dim K)) :
    counts env s ops = (calls env s ops).map (fun m => (m.1.apply env m.2).2) := by
  induction ops generalizing s with
  | nil => rfl
  | cons op ops ih =>
    rw [counts, ih]
    rfl

theorem apply_paid (hexact : env.counter = .exact)
    (hr : TreeBuilder.Rate ⟨env, cfg.leafBucketSize, cfg.alpha, cfg.tombstoneThreshold⟩ c)
    (hc : 2 * c ≤ 1) (op : Op Dim K) (h : Audited cfg s o) (hn : (s.apply env op).1.NoWrap)
    (hH : ∀ m ∈ s.steps env op, m.1.DepthWithin H) :
    ∃ o', Audited cfg (s.apply env op).1 o' ∧
      c * (s.callReads env op : K) + potentialOf cfg.leafBucketSize o' ≤
        ((H : K) + 1) * ((s.apply env op).2 : K) + potentialOf cfg.leafBucketSize o := by
  have hnoWrap := steps_noWrap hn
  have hready := steps_ready op h.sound hnoWrap
  have hstep : ∀ m ∈ s.steps env op, ∀ o, Audited cfg m.1 o →
      ∃ o', Audited cfg (m.1.act env m.2) o' ∧
        c * (m.1.rebuildReads env m.2 : K) + potentialOf cfg.leafBucketSize o' ≤
          ((H : K) + 1) * (m.1.handled env m.2 : K) + potentialOf cfg.leafBucketSize o := by
    intro m hm o ho
    have hr' : (m.1.builder env).Rate c := by
      rw [builder, ho.config]
      exact hr
    exact act_paid hexact hr' hc ho (hready m hm) (hnoWrap m hm) (hH m hm)
  obtain ⟨o', ho', hle⟩ := (steps_chain env s op).amortized hstep h
  refine ⟨o', ho', ?_⟩
  rw [sum_scaled, sum_scaled, steps_handled] at hle
  exact hle

theorem rebuildRate_spec (env : Env K) (accepted : Accepted cfg)
    (hhalf : ((leastHalf cfg + 1 : ℕ) : K) ≤ cfg.alpha * ((2 * leastHalf cfg + 1 : ℕ) : K)) :
    TreeBuilder.Rate ⟨env, cfg.leafBucketSize, cfg.alpha, cfg.tombstoneThreshold⟩
        (rebuildRate cfg) ∧ 2 * rebuildRate cfg ≤ 1 := by
  have hτ : rebuildRate cfg ≤ cfg.tombstoneThreshold := min_le_left _ _
  have hα : rebuildRate cfg ≤ (cfg.alpha - (1 - cfg.alpha)) / 3 := min_le_right _ _
  have h3 : (0 : K) < 3 := by norm_num
  have hα' := (le_div_iff₀ h3).mp hα
  have h0 : 0 ≤ rebuildRate cfg := by
    refine le_min accepted.tombstoneThreshold.1 (div_nonneg ?_ h3.le)
    linarith [accepted.alpha.1]
  exact
    ⟨{ nonneg := h0
       tombstones := hτ
       halves := by linarith
       odd := halvesWithin_of_least accepted.alpha.1 rfl hhalf }, by linarith [accepted.alpha.2]⟩

/-- Over any run from a new tree whose depth stays within `H`, the entries that partial rebuilds
read are paid for, at the rate of the configuration, by one unit for each level above each point
that a call took in or let go. -/
theorem rebuilds_amortized (hexact : env.counter = .exact) (hB : 2 * cfg.leafBucketSize ≤ 65535)
    (hhalf : ((leastHalf cfg + 1 : ℕ) : K) ≤ cfg.alpha * ((2 * leastHalf cfg + 1 : ℕ) : K))
    (hs : create cfg = .ok s) (hn : s.NoWrap) (ops : List (Op Dim K))
    (hrun : ∀ m ∈ calls env s ops, (m.1.apply env m.2).1.NoWrap ∧
      ∀ n ∈ m.1.steps env m.2, n.1.DepthWithin H) :
    rebuildRate cfg * (((calls env s ops).map (fun m => m.1.callReads env m.2)).sum : ℕ) ≤
      ((H : K) + 1) * ((counts env s ops).sum : ℕ) := by
  have fresh := create_fresh hs
  obtain ⟨hr, hc⟩ := rebuildRate_spec env fresh.accepted hhalf
  have h : Audited cfg s none := ⟨fresh.sound hB hn, fresh.config, trivial⟩
  have hstep : ∀ m ∈ calls env s ops, ∀ o, Audited cfg m.1 o →
      ∃ o', Audited cfg (m.1.apply env m.2).1 o' ∧
        rebuildRate cfg * (m.1.callReads env m.2 : K) + potentialOf cfg.leafBucketSize o' ≤
          ((H : K) + 1) * ((m.1.apply env m.2).2 : K) + potentialOf cfg.leafBucketSize o :=
    fun m hm o ho => apply_paid hexact hr hc m.2 ho (hrun m hm).1 (hrun m hm).2
  obtain ⟨o', ho', hle⟩ := (stepsOf_chain _ s ops).amortized hstep h
  have hpot := ho'.potential_nonneg
  have hnew : potentialOf cfg.leafBucketSize (none : Option (Tree Dim K)) = 0 := rfl
  rw [sum_scaled, sum_scaled, hnew, add_zero] at hle
  rw [counts_eq]
  exact (le_add_of_nonneg_right hpot).trans hle

end

/-- Whether all paths from a node are shorter than `n`. -/
def shallow (p : Pools Dim K) : ℕ → ℕ → Bool
  | 0, _ => false
  | n + 1, i =>
    match (p.node i).body with
    | .leaf .. => true
    | .internal _ _ left right => shallow p n left && shallow p n right

omit [NeZero Dim] [Field K] [LinearOrder K] in
theorem below_lt_of_shallow {p : Pools Dim K} {n i j d : ℕ} (h : shallow p n i = true)
    (hj : p.Below i d j) : d < n := by
  induction hj generalizing n with
  | refl i =>
    cases n with
    | zero => cases h
    | succ n => exact Nat.succ_pos n
  | left hbody _ ih =>
    cases n with
    | zero => cases h
    | succ n =>
      rw [shallow, hbody, Bool.and_eq_true] at h
      exact Nat.succ_lt_succ (ih h.1)
  | right hbody _ ih =>
    cases n with
    | zero => cases h
    | succ n =>
      rw [shallow, hbody, Bool.and_eq_true] at h
      exact Nat.succ_lt_succ (ih h.2)

def croppedCalls : List (Op 2 ℚ) :=
  [.insert [![0, 0], ![1, 0], ![2, 0], ![3, 0]], .remove [![1, 0], ![2, 0]], .insert [![5, 0]],
    .radiusCrop ![4, 0] 2]

theorem rebuilds_amortized_plane :
    rebuildRate (plane 4 (1 / 4)) *
        (((calls exactEnv (start (plane 4 (1 / 4))) croppedCalls).map
          (fun m => m.1.callReads exactEnv m.2)).sum : ℕ) ≤
      ((3 : ℕ) + 1) * ((counts exactEnv (start (plane 4 (1 / 4))) croppedCalls).sum : ℕ) := by
  have hcheck : (calls exactEnv (start (plane 4 (1 / 4))) croppedCalls).all (fun m =>
      (m.1.apply exactEnv m.2).1.fits &&
        (m.1.steps exactEnv m.2).all (fun n => shallow n.1.pools 4 n.1.root)) = true := by
    decide +kernel
  rw [List.all_eq_true] at hcheck
  refine rebuilds_amortized rfl (by decide) (by decide +kernel)
    (create_start (plane_accepted (by decide) (by norm_num))) (noWrap_of_fits (by decide +kernel))
    croppedCalls (fun m hm => ?_)
  have hm' := hcheck m hm
  rw [Bool.and_eq_true, List.all_eq_true] at hm'
  exact ⟨noWrap_of_fits hm'.1, fun n hn d i hi =>
    Nat.le_of_lt_succ (below_lt_of_shallow (hm'.2 n hn) hi)⟩

end KDTreeImpl
end Copse

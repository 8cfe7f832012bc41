import Copse.TreeBuilderSweep

set_option autoImplicit false

namespace Copse
open FramedStore PointStore QueueOutline

namespace PointStore
variable {Dim : ℕ} {K : Type*} [Field K]

def releaseAll (s : PointStore Dim K) (l : List ℕ) : PointStore Dim K := l.foldl release s

section
variable (s : PointStore Dim K) (l : List ℕ)

omit [Field K] in
theorem releaseAll_append (l' : List ℕ) :
    s.releaseAll (l ++ l') = (s.releaseAll l).releaseAll l' := List.foldl_append

omit [Field K] in
@[simp] theorem releaseAll_capacity : (s.releaseAll l).capacity = s.capacity := by
  induction l generalizing s with
  | nil => rfl
  | cons i l ih => exact (ih (s.release i)).trans (s.release_capacity i)

@[simp] theorem releaseAll_point (j : ℕ) : (s.releaseAll l).point j = s.point j := by
  induction l generalizing s with
  | nil => rfl
  | cons i l ih => exact (ih (s.release i)).trans (s.release_point i j)

section
omit [Field K]

@[simp] theorem releaseAll_stampCount (j : ℕ) :
    (s.releaseAll l).stampCount j = s.stampCount j := by
  induction l generalizing s with
  | nil => rfl
  | cons i l ih => exact (ih (s.release i)).trans (s.release_stampCount i j)

theorem releaseAll_generation (j : ℕ) : (s.releaseAll l).generation j = s.generation j :=
  congrArg u32 (releaseAll_stampCount s l j)

theorem releaseAll_isLive (j : ℕ) :
    (s.releaseAll l).isLive j = (s.isLive j && decide (j ∉ l)) := by
  induction l generalizing s with
  | nil => simp [releaseAll]
  | cons i l ih =>
    change ((s.release i).releaseAll l).isLive j = _
    rw [ih, release_isLive, Bool.and_assoc]
    simp

end

theorem releaseAll_valid (e : BucketEntry) :
    (s.releaseAll l).valid e = (s.valid e && decide (e.index ∉ l)) := by
  rw [Bool.eq_iff_iff, valid_iff, Bool.and_eq_true, valid_iff, releaseAll_generation,
    releaseAll_isLive, Bool.and_eq_true, and_assoc]

omit [Field K] in
theorem releaseAll_swapRemoved {s : PointStore Dim K} {window free l : List ℕ}
    (h : Ring s window free) (hl : ∀ i ∈ l, i ∈ window) (hd : l.Nodup) :
    ∃ window' free', Ring (s.releaseAll l) window' free' ∧
      SwapRemoved (fun j => decide (j ∈ l)) window window' := by
  induction l generalizing s window free with
  | nil =>
    refine ⟨window, free, h, ?_⟩
    simpa using SwapRemoved.refl window
  | cons i l ih =>
    obtain ⟨hil, hd⟩ := List.nodup_cons.mp hd
    obtain ⟨window', hring, hfirst⟩ := release_swapRemoved h (hl i List.mem_cons_self)
    have hl' : ∀ j ∈ l, j ∈ window' := by
      intro j hj
      rw [hfirst.perm.mem_iff, List.mem_filter]
      refine ⟨hl j (List.mem_cons_of_mem _ hj), ?_⟩
      have hji : j ≠ i := fun heq => hil (heq ▸ hj)
      simp [hji]
    obtain ⟨window'', free', hring', hrest⟩ := ih hring hl' hd
    refine ⟨window'', free', hring', ?_⟩
    have hboth : (fun j => decide (j ∈ i :: l)) = fun j => decide (j = i) || decide (j ∈ l) := by
      funext j
      simp
    rw [hboth]
    exact hfirst.trans hrest

end
end PointStore

namespace Tree
variable {Dim : ℕ} {K : Type*}

def dropLive : Tree Dim K → Tree Dim K
  | leaf id _ total offset cap bboxIdx entries bbox =>
    leaf id 0 total offset cap bboxIdx entries bbox
  | node id _ total dim split left right => node id 0 total dim split left.dropLive right.dropLive

@[simp] theorem dropLive_withCounts (a : ℤ) (t : Tree Dim K) :
    (t.withCounts a t.total).dropLive = t.dropLive := by
  cases t <;> rfl

@[simp] theorem dropLive_addLive (c : Counter) (k : ℤ) (t : Tree Dim K) :
    (t.addLive c k).dropLive = t.dropLive := dropLive_withCounts _ t

theorem entries_dropLive (t : Tree Dim K) : t.dropLive.entries = t.entries := by
  induction t with
  | leaf => rfl
  | node id live total dim split left right ihl ihr =>
    exact congrArg₂ (· ++ ·) ihl ihr

theorem total_dropLive (t : Tree Dim K) : t.dropLive.total = t.total := by cases t <;> rfl

section
variable [Field K] [LinearOrder K] {points : PointStore Dim K} {t t' : Tree Dim K}

omit [LinearOrder K] in
theorem validIn_dropLive (points : PointStore Dim K) (t : Tree Dim K) :
    t.dropLive.validIn points = t.validIn points := validIn_eq_of_entries t.entries_dropLive

theorem placed_dropLive : t.dropLive.Placed points ↔ t.Placed points := by
  induction t with
  | leaf => exact Iff.rfl
  | node id live total dim split left right ihl ihr =>
    simp only [dropLive, Placed, validIn_dropLive, ihl, ihr]

section
omit [LinearOrder K]

omit [Field K] in
theorem shape_dropLive {B : ℕ} : t.dropLive.Shape B ↔ t.Shape B := by
  induction t with
  | leaf => exact Iff.rfl
  | node id live total dim split left right ihl ihr => exact and_congr ihl ihr

omit [Field K] in
theorem entries_of_dropLive (h : t'.dropLive = t.dropLive) : t'.entries = t.entries := by
  rw [← entries_dropLive t', h, entries_dropLive]

theorem validIn_of_dropLive (h : t'.dropLive = t.dropLive) :
    t'.validIn points = t.validIn points := validIn_eq_of_entries (entries_of_dropLive h)

end

theorem placed_of_dropLive (h : t'.dropLive = t.dropLive) (hp : t.Placed points) :
    t'.Placed points := placed_dropLive.mp (h ▸ placed_dropLive.mpr hp)

omit [Field K] [LinearOrder K]

theorem shape_of_dropLive {B : ℕ} (h : t'.dropLive = t.dropLive) (hs : t.Shape B) : t'.Shape B :=
  shape_dropLive.mp (h ▸ shape_dropLive.mpr hs)

theorem stamped_of_dropLive (h : t'.dropLive = t.dropLive) (hs : t.Stamped points) :
    t'.Stamped points := by
  intro e he
  rw [entries_of_dropLive h] at he
  exact hs e he

end

def tombstone [LT K] [DecidableLT K] (c : Counter) (x : Point Dim K) : Tree Dim K → Tree Dim K
  | t@(leaf ..) => t.addLive c (-1)
  | node id live total dim split left right =>
    (if x dim < split then node id live total dim split (left.tombstone c x) right
      else node id live total dim split left (right.tombstone c x)).addLive c (-1)

theorem dropLive_tombstone [LT K] [DecidableLT K] (c : Counter) (x : Point Dim K) (t : Tree Dim K) :
    (t.tombstone c x).dropLive = t.dropLive := by
  induction t with
  | leaf => rfl
  | node id live total dim split left right ihl ihr =>
    rw [tombstone, dropLive_addLive]
    split_ifs
    · rw [dropLive, ihl, dropLive]
    · rw [dropLive, ihr, dropLive]

theorem Update.addLive_root [Field K] {p p' : Pools Dim K} {t t' : Tree Dim K} (h : Update p t p' t')
    (c : Counter) (k : ℤ) :
    Update p t (p'.modifyNode t.id (TreeNode.addLive c k)) (t'.addLive c k) := by
  have hup := h.rep.update_addLive c k
  rw [h.id_eq] at hup
  exact h.trans hup

/-- Live counts went down by the entries that are `gone`, in every subtree that holds one. -/
inductive Discounted (c : Counter) (gone : BucketEntry → Bool) : Tree Dim K → Tree Dim K → Prop where
  | untouched (t : Tree Dim K) (none : ∀ e ∈ t.entries, gone e = false) : Discounted c gone t t
  | leaf (id : ℕ) (live total : ℤ) (offset cap bboxIdx : ℕ) (es : List BucketEntry)
      (bbox : BBox Dim K) :
    Discounted c gone (leaf id live total offset cap bboxIdx es bbox)
      ((leaf id live total offset cap bboxIdx es bbox).addLive c (-(es.countP gone : ℤ)))
  | node (id : ℕ) (live total : ℤ) (dim : Fin Dim) (split : K) (left right left' right' : Tree Dim K)
      (discountedLeft : Discounted c gone left left')
      (discountedRight : Discounted c gone right right') :
    Discounted c gone (node id live total dim split left right)
      ((node id live total dim split left' right').addLive c
        (-((left.entries.countP gone + right.entries.countP gone : ℕ) : ℤ)))

section
variable {c : Counter} {gone gone' : BucketEntry → Bool} {t t' : Tree Dim K}

theorem Discounted.dropLive (h : Discounted c gone t t') : t'.dropLive = t.dropLive := by
  induction h with
  | untouched t _ => rfl
  | leaf => rfl
  | node id live total dim split left right left' right' _ _ ihl ihr =>
    rw [dropLive_addLive, Tree.dropLive, Tree.dropLive, ihl, ihr]

theorem Discounted.congr (h : Discounted c gone t t')
    (heq : ∀ e ∈ t.entries, gone e = gone' e) : Discounted c gone' t t' := by
  have count : ∀ es : List BucketEntry, (∀ e ∈ es, gone e = gone' e) →
      es.countP gone = es.countP gone' :=
    fun _ hes => List.countP_congr (fun e he => by rw [hes e he])
  induction h with
  | untouched t none => exact .untouched t (fun e he => (heq e he) ▸ none e he)
  | leaf id live total offset cap bboxIdx es bbox =>
    rw [count es heq]
    exact .leaf id live total offset cap bboxIdx es bbox
  | node id live total dim split left right left' right' _ _ ihl ihr =>
    have hl : ∀ e ∈ left.entries, gone e = gone' e :=
      fun e he => heq e (List.mem_append_left _ he)
    have hr : ∀ e ∈ right.entries, gone e = gone' e :=
      fun e he => heq e (List.mem_append_right _ he)
    rw [count _ hl, count _ hr]
    exact .node id live total dim split left right left' right' (ihl hl) (ihr hr)

end
section
variable [Field K]

theorem validIn_releaseAll (points : PointStore Dim K) (l : List ℕ) (t : Tree Dim K) :
    t.validIn (points.releaseAll l) = (t.validIn points).filter (fun j => decide (j ∉ l)) := by
  have hfun : (points.releaseAll l).valid =
      fun e => decide (e.index ∉ l) && points.valid e := by
    funext e
    rw [points.releaseAll_valid, Bool.and_comm]
  rw [validIn, validIn, List.filter_map, hfun, ← List.filter_filter]
  rfl

theorem fewer_releaseAll (points : PointStore Dim K) (l : List ℕ) (t : Tree Dim K) :
    Fewer points (points.releaseAll l) t := by
  intro e _ hv
  rw [points.releaseAll_valid, Bool.and_eq_true] at hv
  exact ⟨hv.1, points.releaseAll_point l _⟩

omit [Field K] in
theorem Stamped.releaseAll {points : PointStore Dim K} {t : Tree Dim K} (h : t.Stamped points)
    (l : List ℕ) : t.Stamped (points.releaseAll l) := by
  intro e he
  rw [points.releaseAll_capacity, points.releaseAll_stampCount]
  exact h e he

end
end Tree

namespace TreeBuilder
variable {Dim : ℕ} {K : Type*} [Field K] [LinearOrder K]

theorem tombstoneIndex_spec (c : Counter) (x : Point Dim K) {p : Pools Dim K} {t : Tree Dim K}
    (h : t.Rep p) (fuel : ℕ) (hfuel : t.height < fuel) (modified : List ℕ) :
    t.Update p (tombstoneIndex c x fuel p t.id modified).1 (t.tombstone c x) := by
  induction t generalizing p fuel modified with
  | leaf id live total offset cap bboxIdx es bbox =>
    obtain ⟨fuel, rfl⟩ : ∃ n, fuel = n + 1 := ⟨fuel - 1, by omega⟩
    have hup := h.update_addLive c (-1)
    simp only [Tree.addLive, Tree.withCounts, Tree.id_leaf] at hup
    simp only [tombstoneIndex, Tree.id_leaf, hup.rep.leaf_body]
    exact hup
  | node id live total dim split left right ihl ihr =>
    obtain ⟨fuel, rfl⟩ : ∃ n, fuel = n + 1 := ⟨fuel - 1, by omega⟩
    simp only [Tree.height] at hfuel
    have hup := h.update_addLive c (-1)
    simp only [Tree.addLive, Tree.withCounts, Tree.id_node] at hup
    simp only [tombstoneIndex, Tree.id_node, hup.rep.node_body]
    by_cases hside : x dim < split
    · simp only [hside, ↓reduceIte, Tree.tombstone]
      exact hup.trans (hup.rep.update_left (ihl hup.rep.left fuel (by omega) _))
    · simp only [hside, ↓reduceIte, Tree.tombstone]
      exact hup.trans (hup.rep.update_right (ihr hup.rep.right fuel (by omega) _))

def gone (points : PointStore Dim K) (hit : Point Dim K → Bool) (e : BucketEntry) : Bool :=
  points.valid e && hit (points.point e.index)

/-- The slots of the entries that a scan clears. -/
def goneIn (points : PointStore Dim K) (hit : Point Dim K → Bool) (es : List BucketEntry) : List ℕ :=
  (es.filter (gone points hit)).map BucketEntry.index

section
variable {points : PointStore Dim K} {hit : Point Dim K → Bool} {c : Counter}

section
omit [LinearOrder K]

theorem goneIn_length (es : List BucketEntry) :
    (goneIn points hit es).length = es.countP (gone points hit) := by
  rw [goneIn, List.length_map, List.countP_eq_length_filter]

theorem goneIn_append (es fs : List BucketEntry) :
    goneIn points hit (es ++ fs) = goneIn points hit es ++ goneIn points hit fs := by
  rw [goneIn, List.filter_append, List.map_append, goneIn, goneIn]

theorem goneIn_eq (es : List BucketEntry) :
    goneIn points hit es =
      ((es.filter points.valid).map BucketEntry.index).filter (fun i => hit (points.point i)) := by
  have hfun : gone points hit = fun e => hit (points.point e.index) && points.valid e :=
    funext (fun _ => Bool.and_comm _ _)
  rw [goneIn, hfun, ← List.filter_filter, List.filter_map]
  rfl

theorem gone_releaseAll (l : List ℕ) (e : BucketEntry) :
    gone (points.releaseAll l) hit e = (gone points hit e && decide (e.index ∉ l)) := by
  rw [gone, gone, releaseAll_valid, releaseAll_point, Bool.and_right_comm]

theorem gone_releaseAll_of_disjoint {l : List ℕ} {es : List BucketEntry}
    (hd : ∀ i ∈ l, i ∉ (es.filter points.valid).map BucketEntry.index) :
    ∀ e ∈ es, gone points hit e = gone (points.releaseAll l) hit e := by
  intro e he
  rw [gone_releaseAll]
  cases hg : gone points hit e with
  | false => rfl
  | true =>
    have hv : points.valid e = true := (Bool.and_eq_true_iff.mp hg).1
    have hmem : e.index ∈ (es.filter points.valid).map BucketEntry.index :=
      List.mem_map.mpr ⟨e, List.mem_filter.mpr ⟨he, hv⟩, rfl⟩
    simpa using fun hl => hd _ hl hmem

theorem clearEntries_eq (hit : Point Dim K → Bool) (es : List BucketEntry)
    (points : PointStore Dim K)
    (hd : ((es.filter points.valid).map BucketEntry.index).Nodup) :
    clearEntries hit es points =
      (points.releaseAll (goneIn points hit es), es.countP (gone points hit)) := by
  induction es generalizing points with
  | nil => rfl
  | cons e es ih =>
    have hcond : (!points.valid e || !hit (points.point e.index)) = !gone points hit e := by
      rw [gone, Bool.not_and]
    rw [clearEntries, hcond]
    by_cases hv : points.valid e = true
    · rw [List.filter_cons_of_pos hv, List.map_cons, List.nodup_cons] at hd
      cases hg : gone points hit e with
      | false =>
        simp only [Bool.not_false, ↓reduceIte, ih points hd.2]
        rw [goneIn, goneIn, List.filter_cons_of_neg (by simp [hg]),
          List.countP_cons_of_neg (by simp [hg])]
      | true =>
        have hsame : ∀ f ∈ es, gone points hit f = gone (points.release e.index) hit f :=
          gone_releaseAll_of_disjoint (l := [e.index]) (by simpa using hd.1)
        have hlist : goneIn (points.release e.index) hit es = goneIn points hit es := by
          rw [goneIn, goneIn, List.filter_congr (fun f hf => (hsame f hf).symm)]
        have hvalid : es.filter (points.release e.index).valid =
            (es.filter points.valid).filter (fun f => decide (f.index ≠ e.index)) := by
          rw [List.filter_filter]
          refine List.filter_congr (fun f _ => ?_)
          rw [release_valid, Bool.and_comm]
        have hd' : ((es.filter (points.release e.index).valid).map BucketEntry.index).Nodup := by
          rw [hvalid]
          exact hd.2.sublist (List.Sublist.map _ List.filter_sublist)
        simp only [Bool.not_true, Bool.false_eq_true, ↓reduceIte, ih _ hd', hlist]
        have hcount : es.countP (gone (points.release e.index) hit) =
            es.countP (gone points hit) :=
          List.countP_congr (fun f hf => by rw [hsame f hf])
        rw [hcount, goneIn, goneIn, List.filter_cons_of_pos hg, List.countP_cons_of_pos hg]
        rfl
    · have hg : gone points hit e = false := by simp [gone, hv]
      rw [List.filter_cons_of_neg hv] at hd
      simp only [hg, Bool.not_false, ↓reduceIte, ih points hd]
      rw [goneIn, goneIn, List.filter_cons_of_neg (by simp [hg]),
        List.countP_cons_of_neg (by simp [hg])]

/-- The outcome of a bulk release below `t`: the entries that were `gone` are
released in order and discounted, and nothing else happened. -/
structure Erased (c : Counter) (p : Pools Dim K) (points : PointStore Dim K)
    (hit : Point Dim K → Bool) (t : Tree Dim K) (r : Released Dim K) : Prop where
  points_eq : r.points = points.releaseAll (goneIn points hit t.entries)
  cleared_eq : r.cleared = t.entries.countP (gone points hit)
  tree : ∃ t', t.Discounted c (gone points hit) t' ∧ t.Update p r.pools t'

theorem Erased.untouched {p : Pools Dim K} {t : Tree Dim K} (h : t.Rep p)
    (none : ∀ e ∈ t.entries, gone points hit e = false) : Erased c p points hit t ⟨p, points, 0⟩ := by
  have hnil : t.entries.filter (gone points hit) = [] :=
    List.filter_eq_nil_iff.mpr (fun e he => by simp [none e he])
  refine ⟨?_, ?_, t, .untouched t none, Tree.Update.refl h⟩
  · rw [goneIn, hnil]
    rfl
  · rw [List.countP_eq_length_filter, hnil]
    rfl

end

section
variable {p : Pools Dim K} {t u : Tree Dim K} {r : Released Dim K}

omit [LinearOrder K] in
theorem Erased.other_nodup (h : Erased c p points hit t r) (hd : (u.validIn points).Nodup) :
    (u.validIn r.points).Nodup := by
  rw [h.points_eq, Tree.validIn_releaseAll]
  exact hd.filter _

theorem Erased.other_placed (h : Erased c p points hit t r) (hp : u.Placed points) :
    u.Placed r.points := by
  rw [h.points_eq]
  exact hp.fewer (Tree.fewer_releaseAll _ _ _)

theorem Erased.other_mem (h : Erased c p points hit t r) {b : BBox Dim K}
    (hin : ∀ i ∈ u.validIn points, b.Mem (points.point i)) :
    ∀ i ∈ u.validIn r.points, b.Mem (r.points.point i) := by
  rw [h.points_eq]
  intro i hi
  rw [Tree.validIn_releaseAll] at hi
  rw [releaseAll_point]
  exact hin i (List.mem_filter.mp hi).1

end

section
omit [LinearOrder K]

section
variable {p : Pools Dim K} {id : ℕ} {live total : ℤ}

theorem Erased.leaf {offset cap bboxIdx : ℕ} {es : List BucketEntry} {bbox : BBox Dim K}
    (h : (Tree.leaf id live total offset cap bboxIdx es bbox).Rep p)
    (hd : ((Tree.leaf id live total offset cap bboxIdx es bbox).validIn points).Nodup) :
    Erased c p points hit (.leaf id live total offset cap bboxIdx es bbox)
      (Released.discount c ⟨p, (clearEntries hit es points).1, (clearEntries hit es points).2⟩
        id) := by
  rw [clearEntries_eq hit es points hd]
  exact ⟨rfl, rfl, _, .leaf id live total offset cap bboxIdx es bbox, h.update_addLive c _⟩

theorem Erased.node {dim : Fin Dim} {split : K} {left right : Tree Dim K} {l r : Released Dim K}
    (h : (Tree.node id live total dim split left right).Rep p)
    (hd : ((Tree.node id live total dim split left right).validIn points).Nodup)
    (hl : Erased c p points hit left l)
    (hr : right.Rep l.pools → Erased c l.pools l.points hit right r) :
    Erased c p points hit (.node id live total dim split left right)
      (Released.discount c ⟨r.pools, r.points, l.cleared + r.cleared⟩ id) := by
  obtain ⟨left', hdl, hul⟩ := hl.tree
  have hup := h.update_left hul
  obtain ⟨hpts, hcleared, right', hdr, hur⟩ := hr hup.rep.right
  have hup' := hup.trans (hup.rep.update_right hur)
  rw [Tree.validIn_node] at hd
  have hsame : ∀ e ∈ right.entries, gone points hit e = gone l.points hit e := by
    rw [hl.points_eq]
    refine gone_releaseAll_of_disjoint (fun i hi hir => ?_)
    rw [goneIn_eq] at hi
    exact (List.nodup_append.mp hd).2.2 i (List.mem_filter.mp hi).1 i hir rfl
  have hlist : goneIn l.points hit right.entries = goneIn points hit right.entries := by
    rw [goneIn, goneIn, List.filter_congr (fun f hf => (hsame f hf).symm)]
  have hcount : right.entries.countP (gone l.points hit) =
      right.entries.countP (gone points hit) :=
    List.countP_congr (fun f hf => by rw [hsame f hf])
  refine ⟨?_, ?_, ?_⟩
  · change r.points = _
    rw [hpts, hlist, hl.points_eq, ← releaseAll_append, ← goneIn_append]
    rfl
  · change l.cleared + r.cleared = _
    rw [hl.cleared_eq, hcleared, hcount, ← List.countP_append]
    rfl
  · have hd' := Tree.Discounted.node id live total dim split left right left' right' hdl
      (hdr.congr (fun e he => (hsame e he).symm))
    have hn : l.cleared + r.cleared =
        left.entries.countP (gone points hit) + right.entries.countP (gone points hit) := by
      rw [hl.cleared_eq, hcleared, hcount]
    refine ⟨_, hd', ?_⟩
    rw [← hn]
    exact hup'.addLive_root c _

end

theorem releaseSubtree_spec {p : Pools Dim K} {t : Tree Dim K} (h : t.Rep p) (fuel : ℕ)
    (hfuel : t.height < fuel) (hd : (t.validIn points).Nodup) :
    Erased c p points (fun _ => true) t (releaseSubtree c fuel p points t.id) := by
  induction t generalizing p points fuel with
  | leaf id live total offset cap bboxIdx es bbox =>
    obtain ⟨fuel, rfl⟩ : ∃ n, fuel = n + 1 := ⟨fuel - 1, by omega⟩
    simp only [releaseSubtree, Tree.id_leaf, h.leaf_body, h.view_eq]
    exact Erased.leaf h hd
  | node id live total dim split left right ihl ihr =>
    obtain ⟨fuel, rfl⟩ : ∃ n, fuel = n + 1 := ⟨fuel - 1, by omega⟩
    simp only [Tree.height] at hfuel
    have hboth := hd
    rw [Tree.validIn_node, List.nodup_append] at hboth
    have hl := ihl h.left fuel (by omega) hboth.1
    simp only [releaseSubtree, Tree.id_node, h.node_body]
    exact Erased.node h hd hl
      (fun hrep => ihr hrep fuel (by omega) (hl.other_nodup hboth.2.1))

/-- When everything valid is hit, releasing all of it is releasing what is hit. -/
theorem Erased.of_all {p : Pools Dim K} {t : Tree Dim K} {r : Released Dim K}
    (h : Erased c p points (fun _ => true) t r)
    (hall : ∀ i ∈ t.validIn points, hit (points.point i) = true) : Erased c p points hit t r := by
  have hsame : ∀ e ∈ t.entries, gone points (fun _ => true) e = gone points hit e := by
    intro e he
    cases hv : points.valid e with
    | false => simp [gone, hv]
    | true => simp [gone, hv, hall _ (Tree.mem_validIn.mpr ⟨e, he, hv, rfl⟩)]
  obtain ⟨hpts, hcleared, t', hd, hup⟩ := h
  refine ⟨?_, ?_, t', hd.congr hsame, hup⟩
  · rw [hpts, goneIn, goneIn, List.filter_congr hsame]
  · rw [hcleared]
    exact List.countP_congr (fun e he => by rw [hsame e he])

end

theorem Erased.of_keeps (rg : Region Dim K) {p : Pools Dim K} {t : Tree Dim K} {box : BBox Dim K}
    (h : t.Rep p) (hk : rg.keeps box = true)
    (hbox : ∀ i ∈ t.validIn points, box.Mem (points.point i)) :
    Erased c p points rg.hit t ⟨p, points, 0⟩ := by
  refine Erased.untouched h (fun e he => ?_)
  cases hv : points.valid e with
  | false => simp [gone, hv]
  | true =>
    have hin := hbox _ (Tree.mem_validIn.mpr ⟨e, he, hv, rfl⟩)
    simpa [gone, hv] using rg.keeps_sound box _ hk hin

theorem Erased.of_clears (rg : Region Dim K) {p : Pools Dim K} {t : Tree Dim K} {box : BBox Dim K}
    (h : t.Rep p) (hc : rg.clears box = true)
    (hbox : ∀ i ∈ t.validIn points, box.Mem (points.point i)) (hd : (t.validIn points).Nodup) :
    Erased c p points rg.hit t (releaseSubtree c p.nodes.length p points t.id) := by
  have hheight : t.height < p.nodes.length := by
    have := h.height_lt
    omega
  exact (releaseSubtree_spec h _ hheight hd).of_all
    (fun i hi => rg.clears_sound box _ hc (hbox i hi))

/-- The recursive delete releases exactly the valid slots whose point is hit. -/
theorem deleteRecurse_spec (rg : Region Dim K) {p : Pools Dim K} {t : Tree Dim K} (h : t.Rep p)
    (fuel : ℕ) (hfuel : t.height < fuel) (hd : (t.validIn points).Nodup) (hp : t.Placed points)
    (partition : BBox Dim K) (hin : ∀ i ∈ t.validIn points, partition.Mem (points.point i))
    (modified : List ℕ) :
    Erased c p points rg.hit t
      (deleteRecurse c rg fuel p points t.id partition modified).toReleased := by
  induction fuel generalizing p points t partition modified with
  | zero => omega
  | succ fuel ih =>
    cases hk : rg.keeps partition with
    | true =>
      simp only [deleteRecurse, hk, ↓reduceIte]
      exact .of_keeps rg h hk hin
    | false =>
      cases hc : rg.clears partition with
      | true =>
        simp only [deleteRecurse, hk, hc, Bool.false_eq_true, ↓reduceIte]
        exact .of_clears rg h hc hin hd
      | false =>
        cases t with
        | leaf id live total offset cap bboxIdx es bbox =>
          simp only [deleteRecurse, hk, hc, Bool.false_eq_true, ↓reduceIte, Tree.id_leaf,
            h.leaf_body, h.leaf_bbox, h.view_eq]
          split_ifs with hk' hc'
          · exact .of_keeps rg h hk' hp
          · exact .of_clears rg h hc' hp hd
          · exact .leaf h hd
        | node id live total dim split left right =>
          have hboth := hd
          rw [Tree.validIn_node, List.nodup_append] at hboth
          simp only [Tree.height] at hfuel
          have hl := ih h.left (by omega) hboth.1 hp.2.2.1 (partition.left dim split)
            (hp.mem_left hin) modified
          simp only [deleteRecurse, hk, hc, Bool.false_eq_true, ↓reduceIte, Tree.id_node,
            h.node_body]
          exact Erased.node h hd hl (fun hrep => ih hrep (by omega) (hl.other_nodup hboth.2.1)
            (hl.other_placed hp.2.2.2) _ (hl.other_mem (hp.mem_right hin)) _)

variable [IsStrictOrderedRing K] {p : Pools Dim K} {t : Tree Dim K}

omit [IsStrictOrderedRing K] in
theorem boxDeleteRecurse_spec (queryBox : BBox Dim K) (h : t.Rep p) (fuel : ℕ)
    (hfuel : t.height < fuel) (hd : (t.validIn points).Nodup) (hp : t.Placed points)
    (partition : BBox Dim K) (hin : ∀ i ∈ t.validIn points, partition.Mem (points.point i))
    (modified : List ℕ) :
    Erased c p points queryBox.contains t
      (boxDeleteRecurse c queryBox fuel p points t.id partition modified).toReleased :=
  deleteRecurse_spec (Region.box queryBox) h fuel hfuel hd hp partition hin modified

theorem radiusCropRecurse_spec (center : Point Dim K) (sqRadius : K) (h : t.Rep p) (fuel : ℕ)
    (hfuel : t.height < fuel) (hd : (t.validIn points).Nodup) (hp : t.Placed points)
    (partition : BBox Dim K) (hin : ∀ i ∈ t.validIn points, partition.Mem (points.point i))
    (modified : List ℕ) :
    Erased c p points (fun x => decide (sqRadius < x.sqDist center)) t
      (radiusCropRecurse c center sqRadius fuel p points t.id partition modified).toReleased :=
  deleteRecurse_spec (Region.crop center sqRadius) h fuel hfuel hd hp partition hin modified

end
end TreeBuilder
end Copse

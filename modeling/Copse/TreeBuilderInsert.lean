import Copse.TreeBuilderRebuild

set_option autoImplicit false

namespace Copse
open FramedStore PointStore

namespace Tree
variable {Dim : ℕ} {K : Type*}

/-- Both counters of the root count one more entry. -/
def counted (c : Counter) (t : Tree Dim K) : Tree Dim K := (t.addTotal c 1).addLive c 1

theorem counted_leaf (c : Counter) (id : ℕ) (live total : ℤ) (offset cap bboxIdx : ℕ)
    (es : List BucketEntry) (bbox : BBox Dim K) :
    (leaf id live total offset cap bboxIdx es bbox).counted c =
      leaf id (c.wrap (live + 1)) (c.wrap (total + 1)) offset cap bboxIdx es bbox := rfl

theorem counted_node (c : Counter) (id : ℕ) (live total : ℤ) (dim : Fin Dim) (split : K)
    (left right : Tree Dim K) :
    (node id live total dim split left right).counted c =
      node id (c.wrap (live + 1)) (c.wrap (total + 1)) dim split left right := rfl

theorem Rep.update_counted [Field K] {p : Pools Dim K} {t : Tree Dim K} (h : t.Rep p)
    (c : Counter) :
    Update p t (p.modifyNode t.id (fun n => (n.addTotal c 1).addLive c 1)) (t.counted c) := by
  rw [Pools.modifyNode, h.node_eq, ← header_addTotal, ← header_addLive]
  cases t <;> exact h.update_counts _ _

end Tree

namespace TreeBuilder
variable {Dim : ℕ} [NeZero Dim] {K : Type*} [Field K] [LinearOrder K]

/-- The trees that `insert_index` may leave behind. -/
inductive Inserted (b : TreeBuilder K) (points : PointStore Dim K) (index : ℕ) :
    Tree Dim K → Tree Dim K → Prop where
  | push (id : ℕ) (live total : ℤ) (offset cap bboxIdx : ℕ) (es : List BucketEntry)
      (bbox : BBox Dim K) (room : es.length + 1 < cap) :
    Inserted b points index (.leaf id live total offset cap bboxIdx es bbox)
      (.leaf id (b.env.counter.wrap (live + 1)) (b.env.counter.wrap (total + 1)) offset cap bboxIdx
        (es ++ [stamp points index]) (bbox.expand (points.point index)))
  | split (id : ℕ) (live total : ℤ) (offset cap bboxIdx : ℕ) (es : List BucketEntry)
      (bbox : BBox Dim K) (t' : Tree Dim K) (full : es.length + 1 = cap)
      (rebuilt : Rebuilt b.env.counter points b.leafBucketSize
        (.leaf id (b.env.counter.wrap (live + 1)) (b.env.counter.wrap (total + 1)) offset cap bboxIdx
          (es ++ [stamp points index]) (bbox.expand (points.point index))) t') :
    Inserted b points index (.leaf id live total offset cap bboxIdx es bbox) t'
  | left (id : ℕ) (live total : ℤ) (dim : Fin Dim) (split : K) (left right left' : Tree Dim K)
      (side : points.point index dim < split) (inserted : Inserted b points index left left') :
    Inserted b points index (.node id live total dim split left right)
      (.node id (b.env.counter.wrap (live + 1)) (b.env.counter.wrap (total + 1)) dim split left'
        right)
  | right (id : ℕ) (live total : ℤ) (dim : Fin Dim) (split : K) (left right right' : Tree Dim K)
      (side : split ≤ points.point index dim) (inserted : Inserted b points index right right') :
    Inserted b points index (.node id live total dim split left right)
      (.node id (b.env.counter.wrap (live + 1)) (b.env.counter.wrap (total + 1)) dim split left
        right')

variable {b : TreeBuilder K} {points : PointStore Dim K} {index : ℕ}

theorem insertIndex_grown (fuel : ℕ) (p : Pools Dim K) (i : ℕ) :
    Pools.Grown p (b.insertIndex points index fuel p i) := by
  induction fuel generalizing p i with
  | zero => exact Pools.Grown.refl p
  | succ fuel ih =>
    have hcount := Pools.setNode_grown p i
      (((p.node i).addTotal b.env.counter 1).addLive b.env.counter 1)
    simp only [insertIndex]
    split
    · refine hcount.trans ?_
      have hpush : ∀ (l : LeafBucket) (o n k : ℕ) (e : BucketEntry),
          (l.push o n k e).1.data.length = l.data.length := by
        intro l o n k e
        unfold LeafBucket.push
        split_ifs <;> simp
      split_ifs
      · refine Pools.Grown.trans ?_ (rebuildSubtreeInPlace_grown _ _ _)
        refine ⟨?_, ?_, ?_⟩ <;> simp [Pools.setNode, hpush, Pools.modifyNode]
      · refine ⟨?_, ?_, ?_⟩ <;> simp [Pools.setNode, hpush, Pools.modifyNode]
    · exact hcount.trans (ih _ _)

omit [NeZero Dim] [Field K] in
theorem push_update {p : Pools Dim K} {id offset cap bboxIdx : ℕ} {live total : ℤ}
    {es : List BucketEntry} {bbox : BBox Dim K} (e : BucketEntry) (x : Point Dim K)
    (h : (Tree.leaf id live total offset cap bboxIdx es bbox).Rep p) (room : es.length < cap) :
    (Tree.leaf id live total offset cap bboxIdx es bbox).Update p
      { nodes := p.nodes.set id ⟨live, total, .leaf offset (es.length + 1) cap bboxIdx⟩
        leafBuckets := ⟨p.leafBuckets.data.set (offset + es.length) e⟩
        leafBBoxes := p.leafBBoxes.set bboxIdx (bbox.expand x) }
      (Tree.leaf id live total offset cap bboxIdx (es ++ [e]) (bbox.expand x)) := by
  have hid : id < p.nodes.length := h.id_lt
  obtain ⟨-, -, hlen, he, hb⟩ := h
  have hbox : bboxIdx < p.leafBBoxes.length := (List.getElem?_eq_some_iff.mp hb).choose
  refine ⟨⟨?_, ?_, ?_, ?_, ?_⟩, rfl, ?_, ?_, fun a ha => Or.inl ha⟩
  · rw [List.getElem?_set_self hid]
    simp [Tree.header]
  · rw [List.length_append, List.length_singleton]
    omega
  · intro j hj
    rw [List.length_set]
    exact hlen j hj
  · intro j f hj
    dsimp only
    rcases Nat.lt_trichotomy j es.length with hjl | hjl | hjl
    · rw [List.getElem?_append_left hjl] at hj
      rw [List.getElem?_set_ne (by omega)]
      exact he j f hj
    · subst hjl
      rw [List.getElem?_set_self (hlen _ room)]
      simpa using hj
    · rw [List.getElem?_append_right hjl.le, List.getElem?_eq_none (by simp; omega)] at hj
      cases hj
  · exact List.getElem?_set_self hbox
  · intro a ha _
    cases a with
    | node i =>
      have hne : id ≠ i := by
        rintro rfl
        exact ha (Or.inl rfl)
      simp [Pools.read, hne]
    | slot i =>
      have hne : offset + es.length ≠ i := by
        rintro rfl
        exact ha (Or.inr (Or.inl ⟨es.length, room, rfl⟩))
      simp [Pools.read, hne]
    | box i =>
      have hne : bboxIdx ≠ i := by
        rintro rfl
        exact ha (Or.inr (Or.inr rfl))
      simp [Pools.read, hne]
  · intro a ha
    cases a with
    | node i =>
      have := Pools.read_node_ne_none.mp ha
      exact Pools.read_node_ne_none.mpr (by simpa using this)
    | slot i =>
      have := Pools.read_slot_ne_none.mp ha
      exact Pools.read_slot_ne_none.mpr (by simpa using this)
    | box i =>
      have := Pools.read_box_ne_none.mp ha
      exact Pools.read_box_ne_none.mpr (by simpa using this)

theorem insertIndex_leaf (b : TreeBuilder K) (points : PointStore Dim K) (index : ℕ)
    {p : Pools Dim K} {id offset cap bboxIdx : ℕ} {live total : ℤ}
    {es : List BucketEntry} {bbox : BBox Dim K} (fuel : ℕ)
    (h : (Tree.leaf id live total offset cap bboxIdx es bbox).Rep p) (room : es.length < cap)
    (small : cap < 2 ^ 16) (fit : p.Fit) :
    ∃ p', (Tree.leaf id live total offset cap bboxIdx es bbox).Update p p'
        (.leaf id (b.env.counter.wrap (live + 1)) (b.env.counter.wrap (total + 1)) offset cap bboxIdx
          (es ++ [stamp points index]) (bbox.expand (points.point index))) ∧
      b.insertIndex points index (fuel + 1) p id =
        if es.length + 1 = cap then b.rebuildAt points p' id else p' := by
  have hup := h.update_counted b.env.counter
  rw [Tree.counted_leaf] at hup
  simp only [Tree.id_leaf] at hup
  have hpush := push_update (stamp points index) (points.point index) hup.rep room
  have hslot : offset + es.length < 2 ^ 32 := (h.2.2.1 es.length room).trans fit.slots
  refine ⟨_, hup.trans hpush, ?_⟩
  have hnode := hup.rep.node_eq
  simp only [Tree.id_leaf, Tree.header] at hnode
  simp only [insertIndex, hnode, hup.rep.leaf_bbox, LeafBucket.push, room.ne, ↓reduceIte, u32_of_lt hslot,
    u16_of_lt (show es.length + 1 < 2 ^ 16 by omega)]
  rfl

/-- The descent produces one of the trees that `Inserted` lists. -/
theorem insertIndex_spec {p : Pools Dim K} {t : Tree Dim K} (hpos : 0 < b.leafBucketSize)
    (hB : 2 * b.leafBucketSize < 2 ^ 16) (h : t.Rep p) (hs : t.Shape b.leafBucketSize) (fuel : ℕ)
    (hfuel : t.height < fuel) (fit : (b.insertIndex points index fuel p t.id).Fit) :
    ∃ t', Inserted b points index t t' ∧
      t.Update p (b.insertIndex points index fuel p t.id) t' := by
  induction t generalizing p fuel with
  | leaf id live total offset cap bboxIdx es bbox =>
    obtain ⟨fuel, rfl⟩ : ∃ n, fuel = n + 1 := ⟨fuel - 1, by omega⟩
    obtain ⟨rfl, hlen⟩ := hs
    obtain ⟨p', hup, heq⟩ := insertIndex_leaf b points index fuel h hlen hB
      (fit.of_grown (insertIndex_grown _ _ _))
    simp only [Tree.id_leaf] at fit ⊢
    rw [heq] at fit ⊢
    by_cases hfull : es.length + 1 = 2 * b.leafBucketSize
    · simp only [hfull, ↓reduceIte] at fit ⊢
      obtain ⟨t', hreb, hup'⟩ := rebuildSubtreeInPlace_spec b.env hpos hB hup.rep fit
      exact ⟨t', .split id live total offset _ bboxIdx es bbox t' hfull hreb, hup.trans hup'⟩
    · simp only [hfull, ↓reduceIte]
      exact ⟨_, .push id live total offset _ bboxIdx es bbox (by omega), hup⟩
  | node id live total dim split left right ihl ihr =>
    obtain ⟨fuel, rfl⟩ : ∃ n, fuel = n + 1 := ⟨fuel - 1, by omega⟩
    simp only [Tree.height] at hfuel
    have hup := h.update_counted b.env.counter
    rw [Tree.counted_node] at hup
    simp only [Tree.id_node] at hup fit ⊢
    simp only [insertIndex, hup.rep.node_body] at fit ⊢
    rcases lt_or_ge (points.point index dim) split with hside | hside
    · simp only [hside, ↓reduceIte] at fit ⊢
      obtain ⟨left', hins, hupl⟩ := ihl hup.rep.left hs.1 fuel (by omega) fit
      exact ⟨_, .left id live total dim split left right left' hside hins,
        hup.trans (hup.rep.update_left hupl)⟩
    · simp only [not_lt.mpr hside, ↓reduceIte] at fit ⊢
      obtain ⟨right', hins, hupr⟩ := ihr hup.rep.right hs.2 fuel (by omega) fit
      exact ⟨_, .right id live total dim split left right right' hside hins,
        hup.trans (hup.rep.update_right hupr)⟩

omit [NeZero Dim]

section outcome
variable {t t' : Tree Dim K}

theorem Rebuilt.validIn_perm (h : Rebuilt b.env.counter points b.leafBucketSize t t') :
    (t'.validIn points).Perm (t.validIn points) :=
  h.built.validIn_perm (fun _ hi => Tree.live_of_mem_validIn hi)

theorem Rebuilt.placed (h : Rebuilt b.env.counter points b.leafBucketSize t t') :
    t'.Placed points :=
  h.built.placed (fun _ hi => Tree.live_of_mem_validIn hi)

theorem Rebuilt.stamped (h : Rebuilt b.env.counter points b.leafBucketSize t t')
    (fit : points.StampsFit) (hs : t.Stamped points) : t'.Stamped points := by
  refine h.built.stamped fit (fun i hi => ?_)
  obtain ⟨e, he, -, rfl⟩ := Tree.mem_validIn.mp hi
  exact (hs e he).1

omit [LinearOrder K] in
theorem validIn_push (hlive : points.isLive index = true) (id : ℕ) (live total : ℤ)
    (offset cap bboxIdx : ℕ) (es : List BucketEntry) (bbox : BBox Dim K) :
    ((Tree.leaf id live total offset cap bboxIdx (es ++ [stamp points index]) bbox).validIn
      points).Perm (index :: (es.filter points.valid).map BucketEntry.index) := by
  rw [Tree.validIn_leaf, List.filter_append, List.map_append]
  have hstamp : [stamp points index].filter points.valid = [stamp points index] := by
    simp [stamp_valid, hlive]
  rw [hstamp]
  exact List.perm_append_singleton _ _

theorem Inserted.validIn_perm (h : Inserted b points index t t')
    (hlive : points.isLive index = true) :
    (t'.validIn points).Perm (index :: t.validIn points) := by
  induction h with
  | push id live total offset cap bboxIdx es bbox _ => exact validIn_push hlive _ _ _ _ _ _ es _
  | split id live total offset cap bboxIdx es bbox t' _ rebuilt =>
    exact rebuilt.validIn_perm.trans (validIn_push hlive _ _ _ _ _ _ es _)
  | left id live total dim split left right left' _ _ ih =>
    rw [Tree.validIn_node, Tree.validIn_node]
    exact ih.append_right _
  | right id live total dim split left right right' _ _ ih =>
    rw [Tree.validIn_node, Tree.validIn_node]
    exact (ih.append_left _).trans List.perm_middle

theorem Inserted.placed (h : Inserted b points index t t') (hlive : points.isLive index = true)
    (hp : t.Placed points) : t'.Placed points := by
  induction h with
  | push id live total offset cap bboxIdx es bbox _ =>
    intro i hi
    rcases List.mem_cons.mp ((validIn_push hlive _ _ _ _ _ _ es _).mem_iff.mp hi) with rfl | hi
    · exact bbox.mem_expand_self _
    · exact (hp i hi).expand _
  | split id live total offset cap bboxIdx es bbox t' _ rebuilt => exact rebuilt.placed
  | left id live total dim split left right left' side inserted ih =>
    obtain ⟨hle, hge, hl, hr⟩ := hp
    refine ⟨?_, hge, ih hl, hr⟩
    intro i hi
    rcases List.mem_cons.mp ((inserted.validIn_perm hlive).mem_iff.mp hi) with rfl | hi
    · exact side.le
    · exact hle i hi
  | right id live total dim split left right right' side inserted ih =>
    obtain ⟨hle, hge, hl, hr⟩ := hp
    refine ⟨hle, ?_, hl, ih hr⟩
    intro i hi
    rcases List.mem_cons.mp ((inserted.validIn_perm hlive).mem_iff.mp hi) with rfl | hi
    · exact side
    · exact hge i hi

theorem Inserted.shape (h : Inserted b points index t t') (hpos : 0 < b.leafBucketSize)
    (hs : t.Shape b.leafBucketSize) : t'.Shape b.leafBucketSize := by
  induction h with
  | push id live total offset cap bboxIdx es bbox room =>
    obtain ⟨rfl, -⟩ := hs
    refine ⟨rfl, ?_⟩
    rwa [List.length_append, List.length_singleton]
  | split id live total offset cap bboxIdx es bbox t' _ rebuilt => exact rebuilt.built.shape hpos
  | left id live total dim split left right left' _ _ ih => exact ⟨ih hs.1, hs.2⟩
  | right id live total dim split left right right' _ _ ih => exact ⟨hs.1, ih hs.2⟩

omit [Field K] [LinearOrder K] in
theorem stamped_push (fit : points.StampsFit) (hlt : index < points.capacity) {id : ℕ}
    {live total live' total' : ℤ} {offset cap bboxIdx : ℕ} {es : List BucketEntry}
    {bbox bbox' : BBox Dim K}
    (hs : (Tree.leaf id live total offset cap bboxIdx es bbox).Stamped points) :
    (Tree.leaf id live' total' offset cap bboxIdx (es ++ [stamp points index]) bbox').Stamped
      points := by
  intro e he
  rcases List.mem_append.mp he with he | he
  · exact hs e he
  · obtain rfl := List.mem_singleton.mp he
    exact ⟨hlt, (generation_eq fit index).le⟩

theorem Inserted.stamped (h : Inserted b points index t t') (fit : points.StampsFit)
    (hlt : index < points.capacity) (hs : t.Stamped points) : t'.Stamped points := by
  induction h with
  | push id live total offset cap bboxIdx es bbox _ => exact stamped_push fit hlt hs
  | split id live total offset cap bboxIdx es bbox t' _ rebuilt =>
    exact rebuilt.stamped fit (stamped_push fit hlt hs)
  | left id live total dim split left right left' _ _ ih =>
    rw [Tree.stamped_node] at hs ⊢
    exact ⟨ih hs.1, hs.2⟩
  | right id live total dim split left right right' _ _ ih =>
    rw [Tree.stamped_node] at hs ⊢
    exact ⟨hs.1, ih hs.2⟩

end outcome
end TreeBuilder
end Copse

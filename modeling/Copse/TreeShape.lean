import Copse.TreePools
import Copse.FramedStore

set_option autoImplicit false

/-!
# Trees behind the pools

A tree is the inductive reading of the cells reachable from a node index. It
keeps the indices, so that the cells a tree owns are known: `Rep` says that
the pools hold a tree and that its parts own separate cells, and `Update`
that a mutation replaced one tree by another inside the cells it owned.
-/
namespace Copse
open FramedStore

inductive Tree (Dim : ℕ) (K : Type*) where
  | leaf (id : ℕ) (live total : ℤ) (offset cap bboxIdx : ℕ) (entries : List BucketEntry)
      (bbox : BBox Dim K)
  | node (id : ℕ) (live total : ℤ) (dim : Fin Dim) (split : K) (left right : Tree Dim K)

/-- The cells of the three pools. -/
inductive Addr where
  | node (i : ℕ)
  | slot (i : ℕ)
  | box (i : ℕ)
  deriving DecidableEq

inductive Cell (Dim : ℕ) (K : Type*) where
  | node (n : TreeNode Dim K)
  | slot (e : BucketEntry)
  | box (b : BBox Dim K)

namespace Pools
variable {Dim : ℕ} {K : Type*}

def read (p : Pools Dim K) : Addr → Option (Cell Dim K)
  | .node i => p.nodes[i]?.map .node
  | .slot i => p.leafBuckets.data[i]?.map .slot
  | .box i => p.leafBBoxes[i]?.map .box

theorem read_node_eq {p p' : Pools Dim K} {i : ℕ} (h : p'.read (.node i) = p.read (.node i)) :
    p'.nodes[i]? = p.nodes[i]? :=
  Option.map_injective (fun _ _ hc => Cell.node.inj hc) h

theorem read_slot_eq {p p' : Pools Dim K} {i : ℕ} (h : p'.read (.slot i) = p.read (.slot i)) :
    p'.leafBuckets.data[i]? = p.leafBuckets.data[i]? :=
  Option.map_injective (fun _ _ hc => Cell.slot.inj hc) h

theorem read_box_eq {p p' : Pools Dim K} {i : ℕ} (h : p'.read (.box i) = p.read (.box i)) :
    p'.leafBBoxes[i]? = p.leafBBoxes[i]? :=
  Option.map_injective (fun _ _ hc => Cell.box.inj hc) h

theorem read_node_ne_none {p : Pools Dim K} {i : ℕ} :
    p.read (.node i) ≠ none ↔ i < p.nodes.length := by
  simp [read]

theorem read_slot_ne_none {p : Pools Dim K} {i : ℕ} :
    p.read (.slot i) ≠ none ↔ i < p.leafBuckets.data.length := by
  simp [read]

theorem read_box_ne_none {p : Pools Dim K} {i : ℕ} :
    p.read (.box i) ≠ none ↔ i < p.leafBBoxes.length := by
  simp [read]

end Pools

namespace Tree
variable {Dim : ℕ} {K : Type*}

def id : Tree Dim K → ℕ
  | leaf id .. => id
  | node id .. => id

def live : Tree Dim K → ℤ
  | leaf _ live .. => live
  | node _ live .. => live

def total : Tree Dim K → ℤ
  | leaf _ _ total .. => total
  | node _ _ total .. => total

def withId (id' : ℕ) : Tree Dim K → Tree Dim K
  | leaf _ live total offset cap bboxIdx entries bbox =>
    leaf id' live total offset cap bboxIdx entries bbox
  | node _ live total dim split left right => node id' live total dim split left right

def entries : Tree Dim K → List BucketEntry
  | leaf _ _ _ _ _ _ entries _ => entries
  | node _ _ _ _ _ left right => left.entries ++ right.entries

def height : Tree Dim K → ℕ
  | leaf .. => 0
  | node _ _ _ _ _ left right => max left.height right.height + 1

def header : Tree Dim K → TreeNode Dim K
  | leaf _ live total offset cap bboxIdx entries _ =>
    ⟨live, total, .leaf offset entries.length cap bboxIdx⟩
  | node _ live total dim split left right =>
    ⟨live, total, .internal dim split left.id right.id⟩

/-- The cells a leaf owns besides its node: its bucket slice and its box. -/
def leafAddrs (offset cap bboxIdx : ℕ) : Set Addr :=
  {a | (∃ j < cap, a = .slot (offset + j)) ∨ a = .box bboxIdx}

def addrs : Tree Dim K → Set Addr
  | leaf id _ _ offset cap bboxIdx _ _ => {.node id} ∪ leafAddrs offset cap bboxIdx
  | node id _ _ _ _ left right => {.node id} ∪ (left.addrs ∪ right.addrs)

/-- The pools hold the tree, and its parts own separate cells. -/
def Rep (p : Pools Dim K) : Tree Dim K → Prop
  | t@(leaf id _ _ offset cap bboxIdx entries bbox) =>
    p.nodes[id]? = some t.header ∧ entries.length ≤ cap ∧
      (∀ j < cap, offset + j < p.leafBuckets.data.length) ∧
      (∀ j e, entries[j]? = some e → p.leafBuckets.data[offset + j]? = some e) ∧
      p.leafBBoxes[bboxIdx]? = some bbox
  | t@(node id _ _ _ _ left right) =>
    p.nodes[id]? = some t.header ∧ id < left.id ∧ id < right.id ∧
      Disjoint left.addrs right.addrs ∧ left.Rep p ∧ right.Rep p

section
variable {p p' p'' : Pools Dim K} {t t' t'' : Tree Dim K}

@[simp] theorem id_leaf (id : ℕ) (live total : ℤ) (offset cap bboxIdx : ℕ)
    (entries : List BucketEntry) (bbox : BBox Dim K) :
    (leaf id live total offset cap bboxIdx entries bbox).id = id := rfl

@[simp] theorem id_node (id : ℕ) (live total : ℤ) (dim : Fin Dim) (split : K)
    (left right : Tree Dim K) : (node id live total dim split left right).id = id := rfl

@[simp] theorem id_withId (i : ℕ) (t : Tree Dim K) : (t.withId i).id = i := by cases t <;> rfl

@[simp] theorem header_withId (i : ℕ) (t : Tree Dim K) : (t.withId i).header = t.header := by
  cases t <;> rfl

theorem id_mem_addrs (t : Tree Dim K) : Addr.node t.id ∈ t.addrs := by
  cases t <;> exact Or.inl rfl

theorem live_header (t : Tree Dim K) : t.header.subtreeLiveCount = t.live := by cases t <;> rfl

theorem total_header (t : Tree Dim K) : t.header.subtreeTotalCount = t.total := by
  cases t <;> rfl

theorem Rep.header (h : t.Rep p) : p.nodes[t.id]? = some t.header := by
  cases t <;> exact h.1

theorem Rep.id_lt (h : t.Rep p) : t.id < p.nodes.length :=
  (List.getElem?_eq_some_iff.mp h.header).choose

theorem Rep.present (h : t.Rep p) : ∀ a ∈ t.addrs, p.read a ≠ none := by
  induction t with
  | leaf id live total offset cap bboxIdx entries bbox =>
    obtain ⟨hn, -, hlen, -, hb⟩ := h
    rintro a (rfl | ⟨j, hj, rfl⟩ | rfl)
    · simp [Pools.read, hn]
    · exact Pools.read_slot_ne_none.mpr (hlen j hj)
    · simp [Pools.read, hb]
  | node id live total dim split left right ihl ihr =>
    obtain ⟨hn, -, -, -, hl, hr⟩ := h
    rintro a (rfl | ha | ha)
    · simp [Pools.read, hn]
    · exact ihl hl a ha
    · exact ihr hr a ha

theorem Rep.id_le (h : t.Rep p) {i : ℕ} (hi : Addr.node i ∈ t.addrs) : t.id ≤ i := by
  induction t with
  | leaf id live total offset cap bboxIdx entries bbox =>
    rcases hi with hi | ⟨j, hj, hi⟩ | hi
    · exact (Addr.node.inj hi).ge
    · cases hi
    · cases hi
  | node id live total dim split left right ihl ihr =>
    obtain ⟨-, hlt, hrt, -, hl, hr⟩ := h
    rcases hi with hi | hi | hi
    · exact (Addr.node.inj hi).ge
    · exact hlt.le.trans (ihl hl hi)
    · exact hrt.le.trans (ihr hr hi)

theorem Rep.not_mem_of_lt (h : t.Rep p) {i : ℕ} (hi : i < t.id) : Addr.node i ∉ t.addrs :=
  fun hm => absurd (h.id_le hm) (by omega)

/-- The pool bounds the height, so the pool size is fuel enough. -/
theorem Rep.height_lt (h : t.Rep p) : t.height + t.id < p.nodes.length := by
  induction t with
  | leaf id live total offset cap bboxIdx entries bbox =>
    simpa [height] using h.id_lt
  | node id live total dim split left right ihl ihr =>
    obtain ⟨-, hlt, hrt, -, hl, hr⟩ := h
    have hhl := ihl hl
    have hhr := ihr hr
    simp only [height, Tree.id]
    omega

/-- A tree is untouched by a mutation that keeps its cells. -/
theorem Rep.frame (h : t.Rep p) (hsame : ∀ a ∈ t.addrs, p'.read a = p.read a) : t.Rep p' := by
  induction t with
  | leaf id live total offset cap bboxIdx entries bbox =>
    obtain ⟨hn, hle, hlen, he, hb⟩ := h
    have hslot : ∀ j < cap, p'.leafBuckets.data[offset + j]? = p.leafBuckets.data[offset + j]? :=
      fun j hj => Pools.read_slot_eq (hsame _ (Or.inr (Or.inl ⟨j, hj, rfl⟩)))
    refine ⟨?_, hle, ?_, ?_, ?_⟩
    · rw [Pools.read_node_eq (hsame _ (Or.inl rfl)), hn]
    · intro j hj
      have hread := hslot j hj
      rw [List.getElem?_eq_getElem (hlen j hj)] at hread
      exact (List.getElem?_eq_some_iff.mp hread).choose
    · intro j e hj
      have hjlt := (List.getElem?_eq_some_iff.mp hj).choose
      rw [hslot j (by omega), he j e hj]
    · rw [Pools.read_box_eq (hsame _ (Or.inr (Or.inr rfl))), hb]
  | node id live total dim split left right ihl ihr =>
    obtain ⟨hn, hlt, hrt, hd, hl, hr⟩ := h
    refine ⟨?_, hlt, hrt, hd, ?_, ?_⟩
    · rw [Pools.read_node_eq (hsame _ (Or.inl rfl)), hn]
    · exact ihl hl (fun a ha => hsame a (Or.inr (Or.inl ha)))
    · exact ihr hr (fun a ha => hsame a (Or.inr (Or.inr ha)))

theorem mem_leafAddrs_slot {offset cap bboxIdx j : ℕ} :
    Addr.slot j ∈ leafAddrs offset cap bboxIdx ↔ offset ≤ j ∧ j < offset + cap := by
  constructor
  · rintro (⟨k, hk, hj⟩ | hj)
    · obtain rfl := Addr.slot.inj hj
      omega
    · cases hj
  · rintro ⟨h, h'⟩
    exact Or.inl ⟨j - offset, by omega, by congr 1; omega⟩

theorem Rep.view_eq {id offset cap bboxIdx : ℕ} {live total : ℤ} {entries : List BucketEntry}
    {bbox : BBox Dim K} [Field K]
    (h : (leaf id live total offset cap bboxIdx entries bbox).Rep p) :
    p.view offset entries.length = entries := by
  obtain ⟨-, -, -, he, -⟩ := h
  apply List.ext_getElem?
  intro j
  rw [Pools.view, LeafBucket.view, List.getElem?_take]
  split_ifs with hj
  · rw [List.getElem?_drop, List.getElem?_eq_getElem hj, he j _ (List.getElem?_eq_getElem hj)]
  · rw [List.getElem?_eq_none (by omega)]

theorem Rep.node_eq [Field K] (h : t.Rep p) : p.node t.id = t.header := by
  rw [Pools.node, List.getD_eq_getElem?_getD, h.header]
  rfl

theorem Rep.leaf_body [Field K] {id offset cap bboxIdx : ℕ} {live total : ℤ}
    {entries : List BucketEntry} {bbox : BBox Dim K}
    (h : (leaf id live total offset cap bboxIdx entries bbox).Rep p) :
    (p.node id).body = .leaf offset entries.length cap bboxIdx :=
  congrArg TreeNode.body h.node_eq

theorem Rep.leaf_bbox [Field K] {id offset cap bboxIdx : ℕ} {live total : ℤ}
    {entries : List BucketEntry} {bbox : BBox Dim K}
    (h : (leaf id live total offset cap bboxIdx entries bbox).Rep p) : p.bbox bboxIdx = bbox := by
  obtain ⟨-, -, -, -, hb⟩ := h
  rw [Pools.bbox, List.getD_eq_getElem?_getD, hb]
  rfl

theorem Rep.node_body [Field K] {id : ℕ} {live total : ℤ} {dim : Fin Dim} {split : K}
    {left right : Tree Dim K} (h : (node id live total dim split left right).Rep p) :
    (p.node id).body = .internal dim split left.id right.id :=
  congrArg TreeNode.body h.node_eq

theorem Rep.left {id : ℕ} {live total : ℤ} {dim : Fin Dim} {split : K} {left right : Tree Dim K}
    (h : (node id live total dim split left right).Rep p) : left.Rep p := h.2.2.2.2.1

theorem Rep.right {id : ℕ} {live total : ℤ} {dim : Fin Dim} {split : K} {left right : Tree Dim K}
    (h : (node id live total dim split left right).Rep p) : right.Rep p := h.2.2.2.2.2

/-- `t'` took the place of `t`: same root index, written inside the cells of `t`. -/
structure Update (p : Pools Dim K) (t : Tree Dim K) (p' : Pools Dim K) (t' : Tree Dim K) :
    Prop where
  rep : t'.Rep p'
  id_eq : t'.id = t.id
  framed : Framed Pools.read p t.addrs p' t'.addrs

theorem Update.refl (h : t.Rep p) : Update p t p t := ⟨h, rfl, Framed.refl p t.addrs⟩

theorem Update.trans (h : Update p t p' t') (h' : Update p' t' p'' t'') : Update p t p'' t'' :=
  ⟨h'.rep, h'.id_eq.trans h.id_eq, h.framed.trans h'.framed⟩

theorem Update.other {u : Tree Dim K} (h : Update p t p' t') (hd : Disjoint t.addrs u.addrs)
    (hu : u.Rep p) : u.Rep p' ∧ Disjoint t'.addrs u.addrs :=
  ⟨hu.frame (h.framed.outside hd hu.present), h.framed.disjoint hd hu.present⟩

section
variable {id : ℕ} {live total : ℤ} {dim : Fin Dim} {split : K} {left right left' right' : Tree Dim K}

theorem Rep.update_left (h : (node id live total dim split left right).Rep p)
    (hu : Update p left p' left') :
    Update p (node id live total dim split left right) p'
      (node id live total dim split left' right) := by
  obtain ⟨hn, hlt, hrt, hd, hl, hr⟩ := h
  obtain ⟨hr', hd'⟩ := hu.other hd hr
  have hid : Addr.node id ∉ left.addrs := hl.not_mem_of_lt hlt
  refine ⟨⟨?_, ?_, hrt, hd', hu.rep, hr'⟩, rfl, ?_⟩
  · rw [Pools.read_node_eq (hu.framed.keep _ hid (by simp [Pools.read, hn])), hn]
    simp [Tree.header, hu.id_eq]
  · rw [hu.id_eq]; exact hlt
  · have hw := (hu.framed.widen right.addrs).widen {Addr.node id}
    rwa [Set.union_comm _ {Addr.node id}, Set.union_comm _ {Addr.node id}] at hw

theorem Rep.update_right (h : (node id live total dim split left right).Rep p)
    (hu : Update p right p' right') :
    Update p (node id live total dim split left right) p'
      (node id live total dim split left right') := by
  obtain ⟨hn, hlt, hrt, hd, hl, hr⟩ := h
  obtain ⟨hl', hd'⟩ := hu.other hd.symm hl
  have hid : Addr.node id ∉ right.addrs := hr.not_mem_of_lt hrt
  refine ⟨⟨?_, hlt, ?_, hd'.symm, hl', hu.rep⟩, rfl, ?_⟩
  · rw [Pools.read_node_eq (hu.framed.keep _ hid (by simp [Pools.read, hn])), hn]
    simp [Tree.header, hu.id_eq]
  · rw [hu.id_eq]; exact hrt
  · have hw := (hu.framed.widen left.addrs).widen {Addr.node id}
    rwa [Set.union_comm _ left.addrs, Set.union_comm _ left.addrs,
      Set.union_comm _ {Addr.node id}, Set.union_comm _ {Addr.node id}] at hw

end

def withCounts (live' total' : ℤ) : Tree Dim K → Tree Dim K
  | leaf id _ _ offset cap bboxIdx entries bbox =>
    leaf id live' total' offset cap bboxIdx entries bbox
  | node id _ _ dim split left right => node id live' total' dim split left right

def addLive (c : Counter) (k : ℤ) (t : Tree Dim K) : Tree Dim K :=
  t.withCounts (c.wrap (t.live + k)) t.total

def addTotal (c : Counter) (k : ℤ) (t : Tree Dim K) : Tree Dim K :=
  t.withCounts t.live (c.wrap (t.total + k))

section
variable (a b : ℤ) (t : Tree Dim K)

@[simp] theorem id_withCounts : (t.withCounts a b).id = t.id := by cases t <;> rfl

@[simp] theorem live_withCounts : (t.withCounts a b).live = a := by cases t <;> rfl

@[simp] theorem addrs_withCounts : (t.withCounts a b).addrs = t.addrs := by cases t <;> rfl

theorem header_addLive (c : Counter) (k : ℤ) :
    (t.addLive c k).header = t.header.addLive c k := by
  cases t <;> rfl

theorem header_addTotal (c : Counter) (k : ℤ) :
    (t.addTotal c k).header = t.header.addTotal c k := by
  cases t <;> rfl

end

theorem read_setNode {i : ℕ} (hi : i < p.nodes.length) (n : TreeNode Dim K) (a : Addr) :
    (p.setNode i n).read a = if a = .node i then some (.node n) else p.read a := by
  cases a with
  | node j =>
    by_cases hij : i = j
    · subst hij
      simp [Pools.setNode, Pools.read, hi]
    · simp [Pools.setNode, Pools.read, hij, Ne.symm hij]
  | slot j => simp [Pools.setNode, Pools.read]
  | box j => simp [Pools.setNode, Pools.read]

theorem setNode_framed {i : ℕ} (hi : i < p.nodes.length) (n : TreeNode Dim K) {F : Set Addr}
    (hF : Addr.node i ∈ F) : Framed Pools.read p F (p.setNode i n) F := by
  refine ⟨?_, ?_, fun _ ha => Or.inl ha⟩
  · intro a ha _
    rw [read_setNode hi, if_neg]
    rintro rfl
    exact ha hF
  · intro a ha
    rw [read_setNode hi]
    split_ifs
    · simp
    · exact ha

theorem Rep.update_counts (h : t.Rep p) (a b : ℤ) :
    Update p t (p.setNode t.id (t.withCounts a b).header) (t.withCounts a b) := by
  have hid := h.id_lt
  have hset : (p.setNode t.id (t.withCounts a b).header).nodes[t.id]? =
      some (t.withCounts a b).header := by
    simp [Pools.setNode, hid]
  refine ⟨?_, by simp, ?_⟩
  · cases t with
    | leaf id live total offset cap bboxIdx entries bbox =>
      obtain ⟨-, hrest⟩ := h
      exact ⟨hset, hrest⟩
    | node id live total dim split left right =>
      obtain ⟨-, hlt, hrt, hd, hl, hr⟩ := h
      refine ⟨hset, hlt, hrt, hd, hl.frame ?_, hr.frame ?_⟩
      · intro a ha
        rw [read_setNode hid, if_neg]
        rintro rfl
        exact hl.not_mem_of_lt hlt ha
      · intro a ha
        rw [read_setNode hid, if_neg]
        rintro rfl
        exact hr.not_mem_of_lt hrt ha
  · rw [addrs_withCounts]
    exact setNode_framed hid _ t.id_mem_addrs

theorem Rep.update_addLive [Field K] (h : t.Rep p) (c : Counter) (k : ℤ) :
    Update p t (p.modifyNode t.id (TreeNode.addLive c k)) (t.addLive c k) := by
  rw [Pools.modifyNode, h.node_eq, ← header_addLive]
  exact h.update_counts _ _

end
end Tree
end Copse

import Copse.TreeBuilderSweep

set_option autoImplicit false

namespace Copse
open TreeBuilder

namespace TreeNode
variable {Dim : ℕ} {K : Type*}

/-- The pushes until the 16-bit size of a leaf meets its capacity. -/
def room (n : TreeNode Dim K) : ℕ :=
  match n.body with
  | .leaf _ size cap _ => (cap + (2 ^ 16 - 1) * size) % 2 ^ 16
  | .internal .. => 0

/-- The node at index `i` of a pool of `n` nodes: its children come later. -/
def Formed (n i : ℕ) (node : TreeNode Dim K) : Prop :=
  match node.body with
  | .leaf _ size cap _ => size < 2 ^ 16 ∧ cap < 2 ^ 16
  | .internal _ _ left right => (i < left ∧ left < n) ∧ i < right ∧ right < n

theorem Formed.mono {n n' i i' : ℕ} {node : TreeNode Dim K} (h : node.Formed n i) (hn : n ≤ n')
    (hi : i' ≤ i) : node.Formed n' i' := by
  unfold Formed at h ⊢
  split at h
  · exact h
  · omega

theorem room_push {offset size cap bboxIdx : ℕ} {n n' : TreeNode Dim K}
    (hn : n.body = .leaf offset size cap bboxIdx)
    (hn' : n'.body = .leaf offset (u16 (size + 1)) cap bboxIdx) (hsize : size < 2 ^ 16)
    (hcap : cap < 2 ^ 16) (hne : size ≠ cap) : n'.room + 1 = n.room := by
  simp only [room, hn, hn', u16]
  omega

end TreeNode

namespace Pools
variable {Dim : ℕ} {K : Type*}

def Formed (p : Pools Dim K) : Prop := ∀ i, (p.node i).Formed p.nodes.length i

def room (p : Pools Dim K) : ℕ := (p.nodes.map TreeNode.room).sum

section
variable {p : Pools Dim K} {i : ℕ} {n : TreeNode Dim K}

theorem node_setNode (p : Pools Dim K) (i j : ℕ) (n : TreeNode Dim K) :
    (p.setNode i n).node j = if i = j ∧ i < p.nodes.length then n else p.node j := by
  simp only [node, setNode, List.getD_eq_getElem?_getD, List.getElem?_set]
  by_cases hij : i = j
  · subst hij
    by_cases hi : i < p.nodes.length <;> simp [hi]
  · simp [hij]

theorem node_setNode_self (hi : i < p.nodes.length) : (p.setNode i n).node i = n := by
  rw [node_setNode, if_pos ⟨rfl, hi⟩]

theorem node_pushNode (p : Pools Dim K) (j : ℕ) : p.pushNode.node j = p.node j := by
  simp only [node, pushNode, List.getD_eq_getElem?_getD]
  rcases Nat.lt_or_ge j p.nodes.length with hj | hj
  · rw [List.getElem?_append_left hj]
  · rw [List.getElem?_append_right hj, List.getElem?_eq_none hj]
    cases j - p.nodes.length <;> rfl

@[simp] theorem length_setNode (p : Pools Dim K) (i : ℕ) (n : TreeNode Dim K) :
    (p.setNode i n).nodes.length = p.nodes.length := List.length_set

@[simp] theorem length_pushNode (p : Pools Dim K) :
    p.pushNode.nodes.length = p.nodes.length + 1 := by
  simp [pushNode]

theorem Formed.setNode (h : p.Formed) (hn : n.Formed p.nodes.length i) : (p.setNode i n).Formed := by
  intro j
  rw [node_setNode, length_setNode]
  split_ifs with hij
  · exact hij.1 ▸ hn
  · exact h j

theorem Formed.pushNode (h : p.Formed) : p.pushNode.Formed := by
  intro j
  rw [node_pushNode, length_pushNode]
  exact (h j).mono (Nat.le_succ _) le_rfl

theorem Formed.children (h : p.Formed) {dim : Fin Dim} {split : K} {left right : ℕ}
    (hi : (p.node i).body = .internal dim split left right) :
    (i < left ∧ left < p.nodes.length) ∧ i < right ∧ right < p.nodes.length := by
  have hnode := h i
  rwa [TreeNode.Formed, hi] at hnode

theorem room_setNode (hi : i < p.nodes.length) :
    (p.setNode i n).room + (p.node i).room = p.room + n.room := by
  have hset : ∀ (l : List (TreeNode Dim K)) (i : ℕ), i < l.length →
      ((l.set i n).map TreeNode.room).sum + (l.getD i TreeNode.empty).room =
        (l.map TreeNode.room).sum + n.room := by
    intro l
    induction l with
    | nil => simp
    | cons m l ih =>
      intro i hi
      cases i with
      | zero =>
        simp only [List.set_cons_zero, List.map_cons, List.sum_cons, List.getD_cons_zero]
        omega
      | succ i =>
        have hrest := ih i (by simpa using hi)
        simp only [List.set_cons_succ, List.map_cons, List.sum_cons, List.getD_cons_succ]
        omega
  exact hset p.nodes i hi

end
end Pools

namespace TreeBuilder
open Pools
variable {Dim : ℕ} [NeZero Dim] {K : Type*} [Field K] [LinearOrder K]
variable {env : Env K} {b : TreeBuilder K} {points : PointStore Dim K} {B : ℕ}

theorem buildRecursive_grows (fuel : ℕ) (p : Pools Dim K) (indices : List ℕ) :
    p.nodes.length < (buildRecursive env points B fuel p indices).1.nodes.length := by
  have hpush : p.nodes.length < p.pushNode.nodes.length := by simp
  rcases Nat.lt_or_ge B indices.length with hB | hB
  · cases fuel with
    | zero =>
      simp only [buildRecursive, Nat.not_le.mpr hB, ↓reduceIte]
      exact hpush
    | succ fuel =>
      rw [buildRecursive_large _ _ hB]
      dsimp only
      rw [length_setNode]
      exact hpush.trans_le ((buildRecursive_grown _ _ _).trans (buildRecursive_grown _ _ _)).nodes
  · rw [buildRecursive_small _ _ hB]
    exact hpush.trans_le (buildLeaf_grown _ _ _ _).nodes

omit [NeZero Dim] in
theorem buildLeaf_formed {p : Pools Dim K} (c : Counter) (h : p.Formed) (i : ℕ) (indices : List ℕ) :
    (buildLeaf c points B p i indices).Formed := by
  refine Formed.setNode (p := { p with leafBuckets := _, leafBBoxes := _ }) h ?_
  exact ⟨Nat.mod_lt _ (by decide), Nat.mod_lt _ (by decide)⟩

/-- Built nodes come after all others, and a node before its children. -/
theorem buildRecursive_formed (fuel : ℕ) (p : Pools Dim K) (indices : List ℕ) (h : p.Formed)
    (hlen : (buildRecursive env points B fuel p indices).1.nodes.length ≤ 2 ^ 32) :
    (buildRecursive env points B fuel p indices).1.Formed ∧
      (buildRecursive env points B fuel p indices).2 = p.nodes.length := by
  have hidx : u32 p.nodes.length = p.nodes.length :=
    u32_of_lt ((buildRecursive_grows fuel p indices).trans_le hlen)
  induction fuel generalizing p indices with
  | zero =>
    rcases Nat.lt_or_ge B indices.length with hB | hB
    · simp only [buildRecursive, Nat.not_le.mpr hB, ↓reduceIte]
      exact ⟨h.pushNode, hidx⟩
    · rw [buildRecursive_small _ _ hB]
      exact ⟨buildLeaf_formed _ h.pushNode _ _, hidx⟩
  | succ fuel ih =>
    rcases Nat.lt_or_ge B indices.length with hB | hB
    · rw [buildRecursive_large _ _ hB] at hlen ⊢
      dsimp only at hlen ⊢
      rw [length_setNode] at hlen
      let l := buildRecursive env points B fuel p.pushNode
        ((partedOf env points indices).take (indices.length / 2))
      let r := buildRecursive env points B fuel l.1
        ((partedOf env points indices).drop (indices.length / 2))
      have hgrown : l.1.nodes.length ≤ r.1.nodes.length := (buildRecursive_grown _ _ _).nodes
      have hleft : p.pushNode.nodes.length < l.1.nodes.length := buildRecursive_grows _ _ _
      have hright : l.1.nodes.length < r.1.nodes.length := buildRecursive_grows _ _ _
      have hlefts : l.1.nodes.length < 2 ^ 32 := hright.trans_le hlen
      obtain ⟨hl, hl₂⟩ := ih p.pushNode _ h.pushNode (hgrown.trans hlen)
        (u32_of_lt (hleft.trans hlefts))
      obtain ⟨hr, hr₂⟩ := ih _ _ hl hlen (u32_of_lt hlefts)
      refine ⟨hr.setNode ?_, hidx⟩
      rw [hl₂, hr₂, hidx]
      rw [length_pushNode] at hleft ⊢
      exact ⟨⟨Nat.lt_succ_self _, hleft.trans hright⟩, Nat.lt_of_succ_lt hleft, hright⟩
    · rw [buildRecursive_small _ _ hB]
      exact ⟨buildLeaf_formed _ h.pushNode _ _, hidx⟩

theorem rebuildAt_grows (p : Pools Dim K) (i : ℕ) :
    p.nodes.length < (b.rebuildAt points p i).nodes.length := by
  simp only [rebuildAt, rebuildSubtreeInPlace, length_setNode]
  exact buildRecursive_grows _ p _

theorem rebuildAt_formed {p : Pools Dim K} {i : ℕ} (h : p.Formed) (hi : i < p.nodes.length)
    (hlen : (b.rebuildAt points p i).nodes.length ≤ 2 ^ 32) : (b.rebuildAt points p i).Formed := by
  simp only [rebuildAt, rebuildSubtreeInPlace, length_setNode] at hlen ⊢
  obtain ⟨hbuilt, hidx⟩ := buildRecursive_formed _ p _ h hlen
  refine hbuilt.setNode ((hbuilt _).mono le_rfl ?_)
  rw [hidx]
  exact hi.le

theorem sweep_same_or_grows (visit : ℕ → Bool) (fuel : ℕ) (p : Pools Dim K) (i : ℕ) :
    b.sweep points visit fuel p i = p ∨
      p.nodes.length < (b.sweep points visit fuel p i).nodes.length := by
  induction fuel generalizing p i with
  | zero => exact Or.inl rfl
  | succ fuel ih =>
    have hchild : ∀ (q : Pools Dim K) (j : ℕ), b.sweepChild points visit fuel q j = q ∨
        q.nodes.length < (b.sweepChild points visit fuel q j).nodes.length := by
      intro q j
      unfold sweepChild
      split_ifs
      · exact ih q j
      · exact Or.inl rfl
    have hagain : ∀ q : Pools Dim K, b.sweepAgain points q i = q ∨
        q.nodes.length < (b.sweepAgain points q i).nodes.length := by
      intro q
      unfold sweepAgain
      split_ifs
      · exact Or.inr (rebuildAt_grows q i)
      · exact Or.inl rfl
    by_cases hi : i = invalid
    · exact Or.inl (by simp only [sweep, hi, ↓reduceIte])
    cases hn : (p.node i).body with
    | leaf offset size cap bboxIdx =>
      rw [sweep_leaf fuel hi hn]
      split_ifs
      · exact Or.inr (rebuildAt_grows p i)
      · exact Or.inl rfl
    | internal dim split left right =>
      rw [sweep_internal fuel hi hn]
      split_ifs
      · exact Or.inr (rebuildAt_grows p i)
      · rcases hchild p left with hl | hl
        · rw [hl]
          rcases hchild p right with hr | hr
          · rw [hr]
            exact hagain p
          · exact Or.inr (hr.trans_le (sweepAgain_grown _ i).nodes)
        · exact Or.inr (hl.trans_le ((sweepChild_grown _ _ _).trans (sweepAgain_grown _ i)).nodes)

theorem sweep_formed (visit : ℕ → Bool) (fuel : ℕ) {p : Pools Dim K} {i : ℕ} (h : p.Formed)
    (hi : i < p.nodes.length) (hlen : (b.sweep points visit fuel p i).nodes.length ≤ 2 ^ 32) :
    (b.sweep points visit fuel p i).Formed := by
  induction fuel generalizing p i with
  | zero => exact h
  | succ fuel ih =>
    have hchild : ∀ {q : Pools Dim K} {j : ℕ}, q.Formed → j < q.nodes.length →
        (b.sweepChild points visit fuel q j).nodes.length ≤ 2 ^ 32 →
        (b.sweepChild points visit fuel q j).Formed := by
      intro q j hq hj hle
      unfold sweepChild at hle ⊢
      split_ifs at hle ⊢
      · exact ih hq hj hle
      · exact hq
    by_cases hinv : i = invalid
    · simp only [sweep, hinv, ↓reduceIte]
      exact h
    cases hn : (p.node i).body with
    | leaf offset size cap bboxIdx =>
      rw [sweep_leaf fuel hinv hn] at hlen ⊢
      split_ifs at hlen ⊢
      · exact rebuildAt_formed h hi hlen
      · exact h
    | internal dim split left right =>
      rw [sweep_internal fuel hinv hn] at hlen ⊢
      split_ifs at hlen ⊢
      · exact rebuildAt_formed h hi hlen
      · obtain ⟨⟨-, hl⟩, -, hr⟩ := h.children hn
        let pl := b.sweepChild points visit fuel p left
        let pr := b.sweepChild points visit fuel pl right
        have hgrown : p.nodes.length ≤ pl.nodes.length := (sweepChild_grown _ _ _).nodes
        have hgrown₂ : pl.nodes.length ≤ pr.nodes.length := (sweepChild_grown _ _ _).nodes
        have hle₂ : pr.nodes.length ≤ 2 ^ 32 := (sweepAgain_grown pr i).nodes.trans hlen
        have hfl := hchild h hl (hgrown₂.trans hle₂)
        have hfr := hchild hfl (hr.trans_le hgrown) hle₂
        unfold sweepAgain at hlen ⊢
        split_ifs at hlen ⊢
        · exact rebuildAt_formed hfr (hi.trans_le (hgrown.trans hgrown₂)) hlen
        · exact hfr

def countNode (c : Counter) (p : Pools Dim K) (i : ℕ) : Pools Dim K :=
  p.modifyNode i (fun n => (n.addTotal c 1).addLive c 1)

omit [NeZero Dim] [Field K] [LinearOrder K] in
theorem countNode_formed {p : Pools Dim K} {i : ℕ} (c : Counter) (h : p.Formed)
    (hi : i < p.nodes.length) :
    (countNode c p i).Formed ∧ (countNode c p i).nodes.length = p.nodes.length ∧
      (countNode c p i).room = p.room ∧ ((countNode c p i).node i).body = (p.node i).body := by
  let n := ((p.node i).addTotal c 1).addLive c 1
  have hset : (countNode c p i).room + (p.node i).room = p.room + n.room := room_setNode hi
  have hsame : n.room = (p.node i).room := rfl
  have hnode : (countNode c p i).node i = n := node_setNode_self hi
  refine ⟨h.setNode (h i), length_setNode p i n, by omega, ?_⟩
  rw [hnode]
  rfl

theorem insertIndex_at_internal {index fuel i left right : ℕ} {p : Pools Dim K} {dim : Fin Dim}
    {split : K} (hbody : ((countNode b.env.counter p i).node i).body = .internal dim split left right) :
    b.insertIndex points index (fuel + 1) p i =
      b.insertIndex points index fuel (countNode b.env.counter p i)
        (if points.point index dim < split then left else right) := by
  unfold countNode at hbody ⊢
  rw [insertIndex]
  dsimp only
  rw [hbody]

/-- The pools after a push into the leaf at node `i`. -/
def pushInto (points : PointStore Dim K) (index : ℕ) (p : Pools Dim K)
    (i offset size cap bboxIdx : ℕ) : Pools Dim K :=
  let push := p.leafBuckets.push offset size cap (stamp points index)
  ({ p with
    leafBuckets := push.1
    leafBBoxes := p.leafBBoxes.set bboxIdx ((p.bbox bboxIdx).expand (points.point index)) } :
    Pools Dim K).setNode i { p.node i with body := .leaf offset push.2.1 cap bboxIdx }

theorem insertIndex_at_leaf {index fuel i offset size cap bboxIdx : ℕ} {p : Pools Dim K}
    (hbody : ((countNode b.env.counter p i).node i).body = .leaf offset size cap bboxIdx) :
    b.insertIndex points index (fuel + 1) p i =
      let q := pushInto points index (countNode b.env.counter p i) i offset size cap bboxIdx
      if ((countNode b.env.counter p i).leafBuckets.push offset size cap (stamp points index)).2.1 = cap
      then b.rebuildAt points q i else q := by
  unfold countNode at hbody ⊢
  rw [insertIndex]
  dsimp only
  rw [hbody]
  rfl

omit [NeZero Dim] in
theorem pushInto_room {i offset size cap bboxIdx : ℕ} {p : Pools Dim K}
    (points : PointStore Dim K) (index : ℕ) (h : p.Formed) (hi : i < p.nodes.length)
    (hbody : (p.node i).body = .leaf offset size cap bboxIdx) :
    let q := pushInto points index p i offset size cap bboxIdx
    q.Formed ∧ q.nodes.length = p.nodes.length ∧
      ((p.leafBuckets.push offset size cap (stamp points index)).2.1 ≠ cap →
        q.room + 1 = p.room) := by
  intro q
  obtain ⟨hsize, hcap⟩ : size < 2 ^ 16 ∧ cap < 2 ^ 16 := by
    have hleaf := h i
    rwa [TreeNode.Formed, hbody] at hleaf
  have hpush : (p.leafBuckets.push offset size cap (stamp points index)).2.1 =
      if size = cap then size else u16 (size + 1) := by
    simp only [LeafBucket.push]
    split_ifs <;> rfl
  have hsize' : (p.leafBuckets.push offset size cap (stamp points index)).2.1 < 2 ^ 16 := by
    rw [hpush]
    split_ifs
    · exact hsize
    · exact Nat.mod_lt _ (by decide)
  refine ⟨Formed.setNode (p := { p with leafBuckets := _, leafBBoxes := _ }) h ⟨hsize', hcap⟩,
    length_setNode _ _ _, fun hfull => ?_⟩
  have hne : size ≠ cap := by
    rintro rfl
    exact hfull (by rw [hpush, if_pos rfl])
  rw [if_neg hne] at hpush
  let n : TreeNode Dim K := { p.node i with
    body := .leaf offset (p.leafBuckets.push offset size cap (stamp points index)).2.1 cap bboxIdx }
  have hstep : n.room + 1 = (p.node i).room :=
    TreeNode.room_push hbody (by dsimp only [n]; rw [hpush]) hsize hcap hne
  have hset : q.room + (p.node i).room = p.room + n.room :=
    room_setNode (p := { p with leafBuckets := _, leafBBoxes := _ }) hi
  omega

theorem insertIndex_room (b : TreeBuilder K) (points : PointStore Dim K) (index fuel : ℕ)
    {p : Pools Dim K} {i : ℕ} (h : p.Formed)
    (hi : i < p.nodes.length) (hfuel : p.nodes.length ≤ i + fuel) :
    (p.nodes.length < (b.insertIndex points index fuel p i).nodes.length ∨
      (b.insertIndex points index fuel p i).nodes.length = p.nodes.length ∧
        (b.insertIndex points index fuel p i).room + 1 = p.room) ∧
      ((b.insertIndex points index fuel p i).nodes.length ≤ 2 ^ 32 →
        (b.insertIndex points index fuel p i).Formed) := by
  induction fuel generalizing p i with
  | zero => omega
  | succ fuel ih =>
    obtain ⟨hq, hlen, hroom, -⟩ := countNode_formed b.env.counter h hi
    rw [← hlen, ← hroom]
    rw [← hlen] at hi hfuel
    cases hbody : ((countNode b.env.counter p i).node i).body with
    | internal dim split left right =>
      have hchildren := hq.children hbody
      rw [insertIndex_at_internal hbody]
      split_ifs
      · exact ih hq hchildren.1.2 (by omega)
      · exact ih hq hchildren.2.2 (by omega)
    | leaf offset size cap bboxIdx =>
      obtain ⟨hr, hrlen, hpush⟩ := pushInto_room points index hq hi hbody
      rw [insertIndex_at_leaf hbody]
      dsimp only
      split_ifs with hfull
      · refine ⟨Or.inl ?_, fun hle => rebuildAt_formed hr (hrlen ▸ hi) hle⟩
        exact hrlen.symm.trans_lt (rebuildAt_grows _ i)
      · exact ⟨Or.inr ⟨hrlen, hpush hfull⟩, fun _ => hr⟩

end TreeBuilder
end Copse

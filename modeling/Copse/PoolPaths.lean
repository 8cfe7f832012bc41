import Copse.KDTreePartition

set_option autoImplicit false

namespace Copse
open TreeBuilder SearchKernel

namespace Pools
variable {Dim : ℕ} {K : Type*}

/-- The node at the end of a path of left (`true`) and right turns. -/
def follow (p : Pools Dim K) : ℕ → List Bool → Option ℕ
  | i, [] => some i
  | i, turn :: path =>
    match (p.node i).body with
    | .leaf .. => none
    | .internal _ _ left right => p.follow (if turn then left else right) path

theorem below_iff_follow {p : Pools Dim K} {i d j : ℕ} :
    p.Below i d j ↔ ∃ path, path.length = d ∧ p.follow i path = some j := by
  constructor
  · intro h
    induction h with
    | refl i => exact ⟨[], rfl, rfl⟩
    | left h _ ih =>
      obtain ⟨path, rfl, hpath⟩ := ih
      refine ⟨true :: path, rfl, ?_⟩
      rw [follow, h]
      exact hpath
    | right h _ ih =>
      obtain ⟨path, rfl, hpath⟩ := ih
      refine ⟨false :: path, rfl, ?_⟩
      rw [follow, h]
      exact hpath
  · rintro ⟨path, rfl, hpath⟩
    induction path generalizing i with
    | nil =>
      cases hpath
      exact .refl _
    | cons turn path ih =>
      rw [follow] at hpath
      cases h : (p.node i).body with
      | leaf =>
        rw [h] at hpath
        cases hpath
      | internal dim split left right =>
        rw [h] at hpath
        cases turn with
        | true => exact .left h (ih hpath)
        | false => exact .right h (ih hpath)

/-- Every path down from node `i` ends at a leaf in fewer than `n` steps. -/
def Shallow (p : Pools Dim K) : ℕ → ℕ → Prop
  | 0, _ => False
  | n + 1, i =>
    match (p.node i).body with
    | .leaf .. => True
    | .internal _ _ left right => p.Shallow n left ∧ p.Shallow n right

theorem Shallow.children {p : Pools Dim K} {n i left right : ℕ} {dim : Fin Dim} {split : K}
    (h : p.Shallow (n + 1) i) (hi : (p.node i).body = .internal dim split left right) :
    p.Shallow n left ∧ p.Shallow n right := by
  rwa [Shallow, hi] at h

theorem Shallow.congr {p p' : Pools Dim K} (hbody : ∀ i, (p'.node i).body = (p.node i).body)
    {n i : ℕ} (h : p.Shallow n i) : p'.Shallow n i := by
  induction n generalizing i with
  | zero => exact h
  | succ n ih =>
    rw [Shallow] at h ⊢
    rw [hbody]
    cases hi : (p.node i).body with
    | leaf => trivial
    | internal dim split left right =>
      rw [hi] at h
      exact ⟨ih h.1, ih h.2⟩

end Pools

namespace Tree
variable {Dim : ℕ} {K : Type*} [Field K]
variable {p : Pools Dim K} {t u v : Tree Dim K} {d e : ℕ}

omit [Field K] in
theorem Sub.addrs_subset (h : t.Sub d u) : u.addrs ⊆ t.addrs := by
  induction h with
  | refl t => exact Set.Subset.rfl
  | left id live total dim split _ ih => exact fun a ha => Or.inr (Or.inl (ih ha))
  | right id live total dim split _ ih => exact fun a ha => Or.inr (Or.inr (ih ha))

theorem Rep.follow_mem (h : t.Rep p) {path : List Bool} {i : ℕ}
    (hp : p.follow t.id path = some i) : Addr.node i ∈ t.addrs := by
  obtain ⟨u, hs, rfl⟩ := h.below_iff.mp (Pools.below_iff_follow.mpr ⟨path, rfl, hp⟩)
  exact hs.addrs_subset u.id_mem_addrs

theorem Rep.follow_unique (h : t.Rep p) {path path' : List Bool} {i : ℕ}
    (hp : p.follow t.id path = some i) (hp' : p.follow t.id path' = some i) : path = path' := by
  induction t generalizing path path' with
  | leaf id live total offset cap bboxIdx es bbox =>
    have stay : ∀ path, p.follow id path = some i → path = [] := by
      intro path hpath
      cases path with
      | nil => rfl
      | cons turn path =>
        rw [Pools.follow, h.leaf_body] at hpath
        cases hpath
    rw [stay path hp, stay path' hp']
  | node id live total dim split left right ihl ihr =>
    have hbody := h.node_body
    obtain ⟨-, hlt, hrt, hd, hl, hr⟩ := h
    -- the root is above all nodes of its children
    have below : ∀ turn path, p.follow id (turn :: path) = some i → i ≠ id := by
      rintro turn path hpath rfl
      rw [Pools.follow, hbody] at hpath
      cases turn with
      | true => exact hl.not_mem_of_lt hlt (hl.follow_mem hpath)
      | false => exact hr.not_mem_of_lt hrt (hr.follow_mem hpath)
    rw [id_node] at hp hp'
    cases path with
    | nil =>
      cases hp
      cases path' with
      | nil => rfl
      | cons turn' path' => exact absurd rfl (below turn' path' hp')
    | cons turn path =>
      cases path' with
      | nil =>
        cases hp'
        exact absurd rfl (below turn path hp)
      | cons turn' path' =>
        rw [Pools.follow, hbody] at hp hp'
        cases turn <;> cases turn'
        · rw [ihr hr hp hp']
        · exact absurd (hr.follow_mem hp) (Set.disjoint_left.mp hd (hl.follow_mem hp'))
        · exact absurd (hr.follow_mem hp') (Set.disjoint_left.mp hd (hl.follow_mem hp))
        · rw [ihl hl hp hp']

omit [Field K] in
theorem Sub.addrs_disjoint (h : t.Rep p) (hu : t.Sub d u) (hv : t.Sub e v) (hid : u.id ≠ v.id)
    (hleaf : u.height = 0) (hleaf' : v.height = 0) : Disjoint u.addrs v.addrs := by
  induction t generalizing d e with
  | leaf =>
    cases hu
    cases hv
    exact absurd rfl hid
  | node id live total dim split left right ihl ihr =>
    obtain ⟨-, -, -, hd, hl, hr⟩ := h
    cases hu with
    | refl => cases hleaf
    | left _ _ _ _ _ hu =>
      cases hv with
      | refl => cases hleaf'
      | left _ _ _ _ _ hv => exact ihl hl hu hv
      | right _ _ _ _ _ hv => exact hd.mono hu.addrs_subset hv.addrs_subset
    | right _ _ _ _ _ hu =>
      cases hv with
      | refl => cases hleaf'
      | left _ _ _ _ _ hv => exact (hd.mono hv.addrs_subset hu.addrs_subset).symm
      | right _ _ _ _ _ hv => exact ihr hr hu hv

theorem Rep.shallow (h : t.Rep p) {n : ℕ} (hn : t.height < n) : p.Shallow n t.id := by
  induction t generalizing n with
  | leaf id live total offset cap bboxIdx es bbox =>
    obtain ⟨n, rfl⟩ : ∃ m, n = m + 1 := ⟨n - 1, by omega⟩
    rw [Pools.Shallow, id_leaf, h.leaf_body]
    trivial
  | node id live total dim split left right ihl ihr =>
    obtain ⟨n, rfl⟩ : ∃ m, n = m + 1 := ⟨n - 1, by omega⟩
    simp only [height] at hn
    rw [Pools.Shallow, id_node, h.node_body]
    exact ⟨ihl h.left (by omega), ihr h.right (by omega)⟩

end Tree

namespace TreeBuilder
variable {Dim : ℕ} [NeZero Dim] {K : Type*} [Field K] [LinearOrder K]
variable {p : Pools Dim K} {n fuel i : ℕ}

omit [NeZero Dim] [LinearOrder K] in
/-- Every traversal does the same with more fuel than the depth of the tree. -/
theorem collect_fuel (points : PointStore Dim K) (h : p.Shallow n i) (hfuel : n ≤ fuel) :
    collectLiveIndicesInSubtree points fuel p i = collectLiveIndicesInSubtree points n p i := by
  induction n generalizing fuel i with
  | zero => exact h.elim
  | succ n ih =>
    obtain ⟨fuel, rfl⟩ : ∃ m, fuel = m + 1 := ⟨fuel - 1, by omega⟩
    rw [collectLiveIndicesInSubtree, collectLiveIndicesInSubtree]
    cases hi : (p.node i).body with
    | leaf => rfl
    | internal dim split left right =>
      obtain ⟨hl, hr⟩ := h.children hi
      dsimp only
      rw [ih hl (by omega), ih hr (by omega)]

omit [NeZero Dim] [Field K] [LinearOrder K] in
theorem body_countNode (c : Counter) (p : Pools Dim K) (i j : ℕ) :
    ((p.modifyNode i (fun n => (n.addTotal c 1).addLive c 1)).node j).body = (p.node j).body := by
  simp only [Pools.modifyNode, Pools.setNode, Pools.node, List.getD_eq_getElem?_getD,
    List.getElem?_set]
  split_ifs with hij hlen
  · subst hij
    rw [List.getElem?_eq_getElem hlen]
    rfl
  · subst hij
    rw [List.getElem?_eq_none (not_lt.mp hlen)]
  · rfl

theorem insertIndex_fuel (b : TreeBuilder K) (points : PointStore Dim K) (index : ℕ)
    (h : p.Shallow n i) (hfuel : n ≤ fuel) :
    b.insertIndex points index fuel p i = b.insertIndex points index n p i := by
  induction n generalizing fuel p i with
  | zero => exact h.elim
  | succ n ih =>
    obtain ⟨fuel, rfl⟩ : ∃ m, fuel = m + 1 := ⟨fuel - 1, by omega⟩
    have hbody := body_countNode b.env.counter p i
    have hq := h.congr hbody
    rw [insertIndex, insertIndex]
    dsimp only
    cases hi : ((p.modifyNode i
        (fun n => (n.addTotal b.env.counter 1).addLive b.env.counter 1)).node i).body with
    | leaf => rfl
    | internal dim split left right =>
      obtain ⟨hl, hr⟩ := hq.children hi
      dsimp only
      split_ifs
      · exact ih hl (by omega)
      · exact ih hr (by omega)

omit [NeZero Dim]

omit [Field K] in
theorem tombstoneIndex_fuel (c : Counter) (x : Point Dim K) (modified : List ℕ)
    (h : p.Shallow n i) (hfuel : n ≤ fuel) :
    tombstoneIndex c x fuel p i modified = tombstoneIndex c x n p i modified := by
  induction n generalizing fuel p i modified with
  | zero => exact h.elim
  | succ n ih =>
    obtain ⟨fuel, rfl⟩ : ∃ m, fuel = m + 1 := ⟨fuel - 1, by omega⟩
    have hq := h.congr (p.body_modifyNode c (-1) i)
    rw [tombstoneIndex, tombstoneIndex]
    cases hi : ((p.modifyNode i (TreeNode.addLive c (-1))).node i).body with
    | leaf => rfl
    | internal dim split left right =>
      obtain ⟨hl, hr⟩ := hq.children hi
      dsimp only
      split_ifs
      · exact ih _ hl (by omega)
      · exact ih _ hr (by omega)

omit [LinearOrder K] in
theorem releaseSubtree_fuel (c : Counter) (points : PointStore Dim K) (h : p.Shallow n i)
    (hfuel : n ≤ fuel) : releaseSubtree c fuel p points i = releaseSubtree c n p points i := by
  induction n generalizing fuel p points i with
  | zero => exact h.elim
  | succ n ih =>
    obtain ⟨fuel, rfl⟩ : ∃ m, fuel = m + 1 := ⟨fuel - 1, by omega⟩
    rw [releaseSubtree, releaseSubtree]
    cases hi : (p.node i).body with
    | leaf => rfl
    | internal dim split left right =>
      obtain ⟨hl, hr⟩ := h.children hi
      have hr' := hr.congr (releaseSubtree_body c n p points left)
      dsimp only
      rw [ih points hl (by omega), ih _ hr' (by omega)]

theorem deleteRecurse_fuel (c : Counter) (rg : Region Dim K) (points : PointStore Dim K)
    (partition : BBox Dim K) (modified : List ℕ) (h : p.Shallow n i) (hfuel : n ≤ fuel) :
    deleteRecurse c rg fuel p points i partition modified =
      deleteRecurse c rg n p points i partition modified := by
  induction n generalizing fuel p points i partition modified with
  | zero => exact h.elim
  | succ n ih =>
    obtain ⟨fuel, rfl⟩ : ∃ m, fuel = m + 1 := ⟨fuel - 1, by omega⟩
    rw [deleteRecurse, deleteRecurse]
    split_ifs
    · rfl
    · rfl
    cases hi : (p.node i).body with
    | leaf => rfl
    | internal dim split left right =>
      obtain ⟨hl, hr⟩ := h.children hi
      have hr' := hr.congr
        (deleteRecurse_body c rg n p points left (partition.left dim split) modified)
      dsimp only
      rw [ih points _ modified hl (by omega), ih _ _ _ hr' (by omega)]

end TreeBuilder

namespace SearchKernel
variable {Dim : ℕ} {K : Type*} [Field K] [LinearOrder K]
variable {p : Pools Dim K} {n fuel i : ℕ}

theorem descend_fuel (std : StdAlgorithm K) (points : PointStore Dim K) (query : Point Dim K)
    (kMax : ℕ) (minSqDist : K) (s : Best Dim K) (h : p.Shallow n i) (hfuel : n ≤ fuel) :
    descend std p points query kMax fuel i minSqDist s =
      descend std p points query kMax n i minSqDist s := by
  induction n generalizing fuel i minSqDist s with
  | zero => exact h.elim
  | succ n ih =>
    obtain ⟨fuel, rfl⟩ : ∃ m, fuel = m + 1 := ⟨fuel - 1, by omega⟩
    rw [descend, descend]
    split_ifs
    · rfl
    cases hi : (p.node i).body with
    | leaf => rfl
    | internal dim split left right =>
      obtain ⟨hl, hr⟩ := h.children hi
      have hle : n ≤ fuel := by omega
      by_cases hdiff : query dim - split < 0
      · simp only [hdiff, ↓reduceIte, ih _ _ hl hle, ih _ _ hr hle]
      · simp only [hdiff, ↓reduceIte, ih _ _ hl hle, ih _ _ hr hle]

theorem collectDescend_fuel (points : PointStore Dim K) (query : Point Dim K) (sqRadius : K)
    (h : p.Shallow n i) (hfuel : n ≤ fuel) :
    collectDescend p points query sqRadius fuel i = collectDescend p points query sqRadius n i := by
  induction n generalizing fuel i with
  | zero => exact h.elim
  | succ n ih =>
    obtain ⟨fuel, rfl⟩ : ∃ m, fuel = m + 1 := ⟨fuel - 1, by omega⟩
    rw [collectDescend, collectDescend]
    split_ifs
    · rfl
    cases hi : (p.node i).body with
    | leaf => rfl
    | internal dim split left right =>
      obtain ⟨hl, hr⟩ := h.children hi
      have hle : n ≤ fuel := by omega
      by_cases hdiff : query dim - split < 0
      · simp only [hdiff, ↓reduceIte, ih hl hle, ih hr hle]
      · simp only [hdiff, ↓reduceIte, ih hl hle, ih hr hle]

theorem anyWithinDescend_fuel (points : PointStore Dim K) (query : Point Dim K) (sqRadius : K)
    (h : p.Shallow n i) (hfuel : n ≤ fuel) :
    anyWithinDescend p points query sqRadius fuel i =
      anyWithinDescend p points query sqRadius n i := by
  induction n generalizing fuel i with
  | zero => exact h.elim
  | succ n ih =>
    obtain ⟨fuel, rfl⟩ : ∃ m, fuel = m + 1 := ⟨fuel - 1, by omega⟩
    rw [anyWithinDescend, anyWithinDescend]
    split_ifs
    · rfl
    cases hi : (p.node i).body with
    | leaf => rfl
    | internal dim split left right =>
      obtain ⟨hl, hr⟩ := h.children hi
      have hle : n ≤ fuel := by omega
      by_cases hdiff : query dim - split < 0
      · simp only [hdiff, ↓reduceIte, ih hl hle, ih hr hle]
      · simp only [hdiff, ↓reduceIte, ih hl hle, ih hr hle]

end SearchKernel
end Copse

import Copse.SearchTraversal

set_option autoImplicit false

namespace Copse.SearchKernel
open BoundedSelection PointStore

variable {Dim : ℕ} {K : Type*} [Field K] [LinearOrder K]

def candidates (points : PointStore Dim K) (query : Point Dim K) (bound : WithTop K) (l : List ℕ) :
    List (HeapEntry K) :=
  (within points query bound l).map (fun i => ⟨(points.point i).sqDist query, i⟩)

/-- The search state after the candidates `all`. -/
structure Kept (kMax : ℕ) (bound : WithTop K) (s : Best Dim K) (all : List (HeapEntry K)) : Prop where
  heap : IsHeap HeapEntry.sqDist s.heap
  selects : Selects HeapEntry.sqDist kMax s.heap all
  below : ∀ e ∈ all, (e.sqDist : WithTop K) < bound
  open_worst : s.heap.length < kMax → s.worst = bound
  full_worst : s.heap.length = kMax → s.worst = front s.heap bound

section
variable {points : PointStore Dim K} {query : Point Dim K} {kMax : ℕ} {bound : WithTop K}
  {s : Best Dim K} {all all' : List (HeapEntry K)} {std : StdAlgorithm K}

theorem candidates_append (l l' : List ℕ) :
    candidates points query bound (l ++ l') =
      candidates points query bound l ++ candidates points query bound l' := by
  rw [candidates, within_append, List.map_append, candidates, candidates]

theorem candidates_perm {l l' : List ℕ} (h : l.Perm l') :
    (candidates points query bound l).Perm (candidates points query bound l') :=
  (h.filter _).map _

section
omit [Field K]

theorem Kept.start (kMax : ℕ) (hk : 0 < kMax) (bound : WithTop K) (axis : Fin Dim → K) :
    Kept kMax bound ⟨[], bound, axis⟩ [] :=
  ⟨isHeap_nil, Selects.nil kMax, by simp, fun _ => rfl, fun h => absurd h hk.ne⟩

theorem Kept.perm (h : Kept kMax bound s all) (hp : all.Perm all') : Kept kMax bound s all' :=
  ⟨h.heap, h.selects.perm (List.Perm.refl _) hp, fun e he => h.below e (hp.mem_iff.mpr he),
    h.open_worst, h.full_worst⟩

theorem Kept.axis (h : Kept kMax bound s all) (axis : Fin Dim → K) :
    Kept kMax bound { s with minSqAxisDist := axis } all :=
  ⟨h.heap, h.selects, h.below, h.open_worst, h.full_worst⟩

theorem Kept.length_le (h : Kept kMax bound s all) : s.heap.length ≤ kMax := by
  have hl := h.selects.length_eq
  omega

omit [LinearOrder K] in
theorem front_cons (e : HeapEntry K) (h : List (HeapEntry K)) (b : WithTop K) :
    front (e :: h) b = (e.sqDist : WithTop K) := rfl

theorem Kept.le_worst (h : Kept kMax bound s all) (full : s.heap.length = kMax) :
    ∀ e ∈ s.heap, (e.sqDist : WithTop K) ≤ s.worst := by
  intro e he
  rw [h.full_worst full]
  cases hheap : s.heap with
  | nil => simp [hheap] at he
  | cons x rest =>
    rw [hheap] at he
    have hx := h.heap
    rw [hheap] at hx
    rw [front_cons, WithTop.coe_le_coe]
    exact hx.le_front e he

theorem Kept.worst_le (h : Kept kMax bound s all) (hk : 0 < kMax) : s.worst ≤ bound := by
  rcases Nat.lt_or_ge s.heap.length kMax with hlt | hge
  · exact (h.open_worst hlt).le
  · have hfull : s.heap.length = kMax := le_antisymm h.length_le hge
    rw [h.full_worst hfull]
    cases hheap : s.heap with
    | nil =>
      rw [hheap, List.length_nil] at hfull
      omega
    | cons x rest =>
      have hx : x ∈ s.heap := by rw [hheap]; exact List.mem_cons_self
      exact (h.below x (h.selects.subperm x hx)).le

theorem Kept.lt_worst_iff (h : Kept kMax bound s all) (hk : 0 < kMax) (m : K) :
    (m : WithTop K) < s.worst ↔
      (m : WithTop K) < bound ∧ all.countP (fun e => decide (e.sqDist ≤ m)) < kMax := by
  rcases Nat.lt_or_ge s.heap.length kMax with hlt | hge
  · have hlen := h.selects.length_eq
    have hcount : all.countP (fun e => decide (e.sqDist ≤ m)) ≤ all.length := List.countP_le_length
    have hfew : all.countP (fun e => decide (e.sqDist ≤ m)) < kMax := by omega
    rw [h.open_worst hlt]
    exact (and_iff_left hfew).symm
  · have hfull : s.heap.length = kMax := le_antisymm h.length_le hge
    constructor
    · intro hm
      refine ⟨hm.trans_le (h.worst_le hk), ?_⟩
      rw [h.full_worst hfull] at hm
      cases hheap : s.heap with
      | nil =>
        rw [hheap, List.length_nil] at hfull
        omega
      | cons x rest =>
        rw [hheap, front_cons, WithTop.coe_lt_coe] at hm
        have hx : x ∈ s.heap := by rw [hheap]; exact List.mem_cons_self
        exact h.selects.countP_lt hx hm
    · rintro ⟨-, hcount⟩
      by_contra hm
      have hall : ∀ e ∈ s.heap, e.sqDist ≤ m := fun e he =>
        WithTop.coe_le_coe.mp ((h.le_worst hfull e he).trans (not_lt.mp hm))
      exact absurd (h.selects.le_countP hfull hall) (not_le.mpr hcount)

/-- More entries can only lower the worst distance. -/
theorem Kept.worst_anti {s' : Best Dim K} (h : Kept kMax bound s all) (hk : 0 < kMax)
    (h' : Kept kMax bound s' (all' ++ all)) : s'.worst ≤ s.worst := by
  by_contra hlt
  rw [not_le] at hlt
  obtain ⟨m, hm⟩ := WithTop.ne_top_iff_exists.mp hlt.ne_top
  rw [← hm] at hlt
  obtain ⟨hbound, hcount⟩ := (h'.lt_worst_iff hk m).mp hlt
  rw [List.countP_append] at hcount
  have hself := (h.lt_worst_iff hk m).mpr ⟨hbound, by omega⟩
  exact absurd hself (hm ▸ lt_irrefl _)

theorem Kept.skip (h : Kept kMax bound s all) (es : List (HeapEntry K))
    (hes : ∀ e ∈ es, s.worst ≤ (e.sqDist : WithTop K) ∧ (e.sqDist : WithTop K) < bound) :
    Kept kMax bound s (es ++ all) := by
  refine ⟨h.heap, ?_, ?_, h.open_worst, h.full_worst⟩
  · rcases Nat.lt_or_ge s.heap.length kMax with hlt | hge
    · have hnil : es = [] := by
        refine List.eq_nil_iff_forall_not_mem.mpr (fun e he => ?_)
        obtain ⟨hw, hb⟩ := hes e he
        rw [h.open_worst hlt] at hw
        exact absurd hb (not_lt.mpr hw)
      rw [hnil]
      exact h.selects
    · have hfull : s.heap.length = kMax := le_antisymm h.length_le hge
      refine h.selects.skip_all es hfull (fun e he x hx => ?_)
      exact WithTop.coe_le_coe.mp ((h.le_worst hfull x hx).trans (hes e he).1)
  · intro e he
    rcases List.mem_append.mp he with he | he
    · exact (hes e he).2
    · exact h.below e he

theorem pushed (std : StdAlgorithm K) (h : Kept kMax bound s all) (e : HeapEntry K) :
    IsHeap HeapEntry.sqDist (std.pushHeap (s.heap ++ [e])) ∧
      (std.pushHeap (s.heap ++ [e])).Perm (e :: s.heap) := by
  have hdrop : IsHeap HeapEntry.sqDist (s.heap ++ [e]).dropLast := by
    rw [List.dropLast_concat]
    exact h.heap
  exact ⟨std.pushHeap_heap _ hdrop,
    (std.pushHeap_perm _ hdrop).trans (List.perm_append_singleton e s.heap)⟩

theorem popped (std : StdAlgorithm K) {h : List (HeapEntry K)} (hh : IsHeap HeapEntry.sqDist h)
    (hne : h ≠ []) :
    ∃ w ∈ h, (w :: (std.popHeap h).dropLast).Perm h ∧
      IsHeap HeapEntry.sqDist (std.popHeap h).dropLast ∧
      ∀ y ∈ (std.popHeap h).dropLast, y.sqDist ≤ w.sqDist := by
  cases h with
  | nil => exact absurd rfl hne
  | cons w rest =>
    have hperm := std.popHeap_perm _ hh
    have hlast := std.popHeap_last w rest hh
    have hsplit : (std.popHeap (w :: rest)).dropLast ++ [w] = std.popHeap (w :: rest) :=
      List.dropLast_append_getLast? w hlast
    have hw : (w :: (std.popHeap (w :: rest)).dropLast).Perm (w :: rest) := by
      refine (List.perm_append_singleton w _).symm.trans ?_
      rw [hsplit]
      exact hperm
    refine ⟨w, List.mem_cons_self, hw, std.popHeap_heap _ hh, fun y hy => ?_⟩
    exact hh.le_front y (hw.mem_iff.mp (List.mem_cons_of_mem _ hy))

theorem Kept.offer (h : Kept kMax bound s all) (std : StdAlgorithm K) (hk : 0 < kMax) (e : HeapEntry K)
    (he : (e.sqDist : WithTop K) < s.worst) :
    Kept kMax bound (offer std kMax e s) (e :: all) := by
  obtain ⟨hheap, hperm⟩ := pushed std h e
  have hbelow : ∀ x ∈ e :: all, (x.sqDist : WithTop K) < bound :=
    List.forall_mem_cons.mpr ⟨he.trans_le (h.worst_le hk), h.below⟩
  have hlen : (std.pushHeap (s.heap ++ [e])).length = s.heap.length + 1 := by
    rw [hperm.length_eq, List.length_cons]
  have hne : std.pushHeap (s.heap ++ [e]) ≠ [] := by
    rw [← List.length_pos_iff_ne_nil]
    omega
  simp only [SearchKernel.offer, hlen]
  rcases Nat.lt_or_ge s.heap.length kMax with hlt | hge
  · have hselects : Selects HeapEntry.sqDist kMax (std.pushHeap (s.heap ++ [e])) (e :: all) :=
      (h.selects.add e hlt).perm hperm (List.Perm.refl _)
    rw [if_neg (by omega)]
    split_ifs with hfull
    · refine ⟨hheap, hselects, hbelow, fun hl => ?_, fun _ => ?_⟩
      · dsimp only at hl
        omega
      · dsimp only
        cases hp : std.pushHeap (s.heap ++ [e]) with
        | nil => exact absurd hp hne
        | cons x rest => rfl
    · refine ⟨hheap, hselects, hbelow, fun _ => h.open_worst hlt, fun hl => ?_⟩
      dsimp only at hl
      omega
  · have hfull : s.heap.length = kMax := le_antisymm h.length_le hge
    rw [if_pos (by omega)]
    obtain ⟨w, -, hw, hheap', hmax⟩ := popped std hheap hne
    have hselects := h.selects.replace hfull (hw.trans hperm) hmax
    have hlen' : (std.popHeap (std.pushHeap (s.heap ++ [e]))).dropLast.length = kMax := by
      have hl := hw.length_eq
      rw [List.length_cons] at hl
      omega
    refine ⟨hheap', hselects, hbelow, fun hl => ?_, fun _ => ?_⟩
    · dsimp only at hl
      omega
    · dsimp only
      cases hp : (std.popHeap (std.pushHeap (s.heap ++ [e]))).dropLast with
      | nil =>
        rw [hp, List.length_nil] at hlen'
        omega
      | cons x rest => rfl

theorem offer_axis (e : HeapEntry K) :
    (offer std kMax e s).minSqAxisDist = s.minSqAxisDist := by
  simp only [offer]
  split_ifs <;> rfl

end

theorem scanLeaf_axis (es : List BucketEntry) (s : Best Dim K) :
    (scanLeaf std points query kMax es s).minSqAxisDist = s.minSqAxisDist := by
  induction es generalizing s with
  | nil => rfl
  | cons e es ih =>
    simp only [scanLeaf]
    split_ifs
    · exact ih s
    · exact ih s
    · rw [ih, offer_axis]

theorem mem_candidates {l : List ℕ} {e : HeapEntry K} (he : e ∈ candidates points query bound l) :
    e.index ∈ l ∧ e.sqDist = (points.point e.index).sqDist query ∧
      (e.sqDist : WithTop K) < bound := by
  obtain ⟨i, hi, rfl⟩ := List.mem_map.mp he
  obtain ⟨hl, hb⟩ := mem_within.mp hi
  exact ⟨hl, rfl, hb⟩

theorem candidates_single {i : ℕ} (h : ((points.point i).sqDist query : WithTop K) < bound) :
    candidates points query bound [i] = [⟨(points.point i).sqDist query, i⟩] := by
  simp [candidates, within, h]

theorem candidates_cons_perm (i : ℕ) (l : List ℕ) (all : List (HeapEntry K)) :
    (candidates points query bound l ++ (candidates points query bound [i] ++ all)).Perm
      (candidates points query bound (i :: l) ++ all) := by
  rw [← List.append_assoc, ← candidates_append]
  exact (candidates_perm (List.perm_append_singleton i l)).append_right all

theorem scanLeaf_kept (hk : 0 < kMax) (es : List BucketEntry) (h : Kept kMax bound s all) :
    Kept kMax bound (scanLeaf std points query kMax es s)
      (candidates points query bound ((es.filter points.valid).map BucketEntry.index) ++ all) := by
  induction es generalizing s all with
  | nil => exact h
  | cons e es ih =>
    cases hv : points.valid e with
    | false =>
      rw [List.filter_cons_of_neg (by simp [hv])]
      simp only [scanLeaf, hv, Bool.not_false, ↓reduceIte]
      exact ih h
    | true =>
      rw [List.filter_cons_of_pos hv, List.map_cons]
      simp only [scanLeaf, hv, Bool.not_true, Bool.false_eq_true, ↓reduceIte]
      split_ifs with hworst
      · have hskip := h.skip (candidates points query bound [e.index]) (fun x hx => by
          obtain ⟨hi, hdist, hb⟩ := mem_candidates hx
          rw [List.mem_singleton] at hi
          rw [hi] at hdist
          exact ⟨hdist ▸ hworst, hb⟩)
        exact (ih hskip).perm (candidates_cons_perm _ _ _)
      · have hlt := not_le.mp hworst
        have hoffer := h.offer std hk ⟨(points.point e.index).sqDist query, e.index⟩ hlt
        refine (ih hoffer).perm (List.Perm.trans ?_ (candidates_cons_perm _ _ _))
        rw [candidates_single (hlt.trans_le (h.worst_le hk))]
        exact List.Perm.refl _

end

section
variable {p : Pools Dim K} {points : PointStore Dim K} {query : Point Dim K} {kMax : ℕ}
  {bound : WithTop K} {std : StdAlgorithm K}

/-- The per-axis distances are lower bounds for the valid points of the tree. -/
def AxisBound (points : PointStore Dim K) (query : Point Dim K) (axis : Fin Dim → K)
    (t : Tree Dim K) : Prop :=
  ∀ i ∈ t.validIn points, ∀ j,
    axis j ≤ (points.point i j - query j) * (points.point i j - query j)

theorem AxisBound.le_sqDist [IsStrictOrderedRing K] {axis : Fin Dim → K} {t : Tree Dim K}
    (h : AxisBound points query axis t) :
    ∀ i ∈ t.validIn points, ∑ j, axis j ≤ (points.point i).sqDist query :=
  fun i hi => Finset.sum_le_sum (fun j _ => h i hi j)

theorem descend_leaf {id offset cap bboxIdx : ℕ} {live total : ℤ} {es : List BucketEntry}
    {bbox : BBox Dim K} (fuel : ℕ) (minSqDist : K) (s : Best Dim K)
    (h : (Tree.leaf id live total offset cap bboxIdx es bbox).Rep p) (hid : id ≠ invalid) :
    descend std p points query kMax (fuel + 1) id minSqDist s =
      scanLeaf std points query kMax es s := by
  simp only [descend, hid, ↓reduceIte, h.leaf_body, h.view_eq]

/-- What follows the visit of the near child. -/
def descendFar (std : StdAlgorithm K) (p : Pools Dim K) (points : PointStore Dim K)
    (query : Point Dim K) (kMax fuel : ℕ) (dim : Fin Dim) (diff : K) (farChild : ℕ) (minSqDist : K)
    (s : Best Dim K) : Best Dim K :=
  let farMinSqDist := minSqDist - s.minSqAxisDist dim + diff * diff
  if (farMinSqDist : WithTop K) < s.worst then
    let r := descend std p points query kMax fuel farChild farMinSqDist
      { s with minSqAxisDist := Function.update s.minSqAxisDist dim (diff * diff) }
    { r with minSqAxisDist := Function.update r.minSqAxisDist dim (s.minSqAxisDist dim) }
  else s

theorem descend_node {id : ℕ} {live total : ℤ} {dim : Fin Dim} {split : K} {left right : Tree Dim K}
    (fuel : ℕ) (minSqDist : K) (s : Best Dim K)
    (h : (Tree.node id live total dim split left right).Rep p) (hid : id ≠ invalid) :
    descend std p points query kMax (fuel + 1) id minSqDist s =
      descendFar std p points query kMax fuel dim (query dim - split)
        (farOf query dim split left right).id minSqDist
        (descend std p points query kMax fuel (nearOf query dim split left right).id minSqDist s) := by
  simp only [descend, hid, ↓reduceIte, h.node_body, nearOf_id dim split left right,
    farOf_id dim split left right]
  rfl

/-- The shared array of axis distances is restored, whatever the pools hold. -/
theorem descend_axis (std : StdAlgorithm K) (p : Pools Dim K) (points : PointStore Dim K)
    (query : Point Dim K) (kMax fuel i : ℕ) (minSqDist : K) (s : Best Dim K) :
    (descend std p points query kMax fuel i minSqDist s).minSqAxisDist = s.minSqAxisDist := by
  induction fuel generalizing i minSqDist s with
  | zero => rfl
  | succ fuel ih =>
    unfold descend
    by_cases hi : i = invalid
    · simp only [hi, ↓reduceIte]
    simp only [hi, ↓reduceIte]
    cases (p.node i).body with
    | leaf => exact scanLeaf_axis _ s
    | internal dim split left right =>
      dsimp only
      generalize (if query dim - split < 0 then left else right) = nearChild
      generalize (if query dim - split < 0 then right else left) = farChild
      have hnear := ih nearChild minSqDist s
      split_ifs
      · dsimp only
        rw [hnear, ih]
        dsimp only
        rw [Function.update_idem, Function.update_eq_self]
      · exact hnear

variable [IsStrictOrderedRing K]

theorem AxisBound.far {id : ℕ} {live total : ℤ} {dim : Fin Dim} {split : K} {left right : Tree Dim K}
    {axis : Fin Dim → K} (hp : (Tree.node id live total dim split left right).Placed points)
    (h : AxisBound points query axis (farOf query dim split left right)) :
    AxisBound points query
      (Function.update axis dim ((query dim - split) * (query dim - split)))
      (farOf query dim split left right) := by
  intro i hi j
  by_cases hj : j = dim
  · subst hj
    rw [Function.update_self]
    exact (far_beyond query hp i hi).axis_le
  · rw [Function.update_of_ne hj]
    exact h i hi j

omit [LinearOrder K] [IsStrictOrderedRing K] in
theorem sum_update (axis : Fin Dim → K) (dim : Fin Dim) (d : K) :
    ∑ j, Function.update axis dim d j = (∑ j, axis j) - axis dim + d := by
  rw [Finset.sum_update_of_mem (Finset.mem_univ dim),
    ← Finset.add_sum_erase Finset.univ axis (Finset.mem_univ dim), Finset.sdiff_singleton_eq_erase]
  ring

/-- The descent adds exactly the candidates of the tree, whatever it pruned. -/
theorem descend_kept (std : StdAlgorithm K) (hk : 0 < kMax) {t : Tree Dim K} (h : t.Rep p) (fit : p.Fit)
    (hp : t.Placed points) (fuel : ℕ) (hfuel : t.height < fuel) (minSqDist : K) {s : Best Dim K}
    {all : List (HeapEntry K)} (hs : Kept kMax bound s all) (hsum : minSqDist = ∑ j, s.minSqAxisDist j)
    (hbound : AxisBound points query s.minSqAxisDist t) :
    Kept kMax bound (descend std p points query kMax fuel t.id minSqDist s)
      (candidates points query bound (t.validIn points) ++ all) := by
  induction fuel generalizing t minSqDist s all with
  | zero => omega
  | succ fuel ih =>
    have hid := h.id_valid fit
    cases t with
    | leaf id live total offset cap bboxIdx es bbox =>
      rw [Tree.id_leaf, descend_leaf _ _ _ h hid]
      exact scanLeaf_kept hk es hs
    | node id live total dim split left right =>
      simp only [Tree.height] at hfuel
      rw [Tree.id_node, descend_node _ _ _ h hid]
      have hperm := near_far_validIn points query dim split left right
      have hboundL : AxisBound points query s.minSqAxisDist left :=
        fun i hi => hbound i (by rw [Tree.validIn_node]; exact List.mem_append_left _ hi)
      have hboundR : AxisBound points query s.minSqAxisDist right :=
        fun i hi => hbound i (by rw [Tree.validIn_node]; exact List.mem_append_right _ hi)
      obtain ⟨hnear, hfar⟩ := near_far query dim split
        (P := fun u => u.Rep p ∧ u.Placed points ∧ u.height < fuel ∧
          AxisBound points query s.minSqAxisDist u)
        ⟨h.left, hp.2.2.1, by omega, hboundL⟩ ⟨h.right, hp.2.2.2, by omega, hboundR⟩
      have haxis := descend_axis std p points query kMax fuel
        (nearOf query dim split left right).id minSqDist s
      have hkept := ih hnear.1 hnear.2.1 hnear.2.2.1 minSqDist hs hsum hnear.2.2.2
      generalize descend std p points query kMax fuel (nearOf query dim split left right).id minSqDist
        s = s₁ at haxis hkept ⊢
      have hfarBound : AxisBound points query s₁.minSqAxisDist (farOf query dim split left right) :=
        haxis ▸ hfar.2.2.2
      have htight := AxisBound.far hp hfarBound
      have hfarSum : minSqDist - s₁.minSqAxisDist dim + (query dim - split) * (query dim - split) =
          ∑ j, Function.update s₁.minSqAxisDist dim ((query dim - split) * (query dim - split)) j := by
        rw [sum_update, hsum, haxis]
      have hall : (candidates points query bound
          ((farOf query dim split left right).validIn points) ++
          (candidates points query bound ((nearOf query dim split left right).validIn points) ++
            all)).Perm
          (candidates points query bound
            ((Tree.node id live total dim split left right).validIn points) ++ all) := by
        rw [← List.append_assoc, ← candidates_append, Tree.validIn_node]
        exact (candidates_perm (List.perm_append_comm.trans hperm)).append_right all
      simp only [descendFar]
      split_ifs with hclose
      · have hmoved := hkept.axis
          (Function.update s₁.minSqAxisDist dim ((query dim - split) * (query dim - split)))
        exact ((ih hfar.1 hfar.2.1 hfar.2.2.1 _ hmoved hfarSum htight).axis _).perm hall
      · -- every point beyond the plane is at least `worst` away
        refine (hkept.skip _ (fun e he => ?_)).perm hall
        obtain ⟨hi, hdist, hb⟩ := mem_candidates he
        refine ⟨(not_lt.mp hclose).trans ?_, hb⟩
        rw [hfarSum, hdist, WithTop.coe_le_coe]
        exact htight.le_sqDist _ hi

end
end Copse.SearchKernel

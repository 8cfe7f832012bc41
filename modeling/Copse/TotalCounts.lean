import Copse.LiveCounts

set_option autoImplicit false

namespace Copse
open PointStore TreeBuilder TransitionRuns

namespace Tree
variable {Dim : ℕ} {K : Type*}

def slots : Tree Dim K → Finset ℕ
  | leaf _ _ _ offset cap _ _ _ => Finset.Ico offset (offset + cap)
  | node _ _ _ _ _ left right => left.slots ∪ right.slots

theorem mem_slots {t : Tree Dim K} {i : ℕ} : i ∈ t.slots ↔ Addr.slot i ∈ t.addrs := by
  induction t with
  | leaf id live total offset cap bboxIdx es bbox =>
    rw [slots, Finset.mem_Ico, addrs, Set.mem_union, mem_leafAddrs_slot]
    simp
  | node id live total dim split left right ihl ihr =>
    rw [slots, Finset.mem_union, ihl, ihr]
    simp [addrs]

theorem Rep.entries_le_slots {p : Pools Dim K} {t : Tree Dim K} (h : t.Rep p) :
    t.entries.length ≤ t.slots.card := by
  induction t with
  | leaf id live total offset cap bboxIdx es bbox =>
    rw [slots, Nat.card_Ico, Nat.add_sub_cancel_left]
    exact h.2.1
  | node id live total dim split left right ihl ihr =>
    obtain ⟨-, -, -, hd, hl, hr⟩ := h
    have hslots : Disjoint left.slots right.slots :=
      Finset.disjoint_left.mpr
        (fun i hi hi' => Set.disjoint_left.mp hd (mem_slots.mp hi) (mem_slots.mp hi'))
    rw [slots, Finset.card_union_of_disjoint hslots, entries, List.length_append]
    exact Nat.add_le_add (ihl hl) (ihr hr)

theorem Rep.entries_length_le {p : Pools Dim K} {t : Tree Dim K} (h : t.Rep p) :
    t.entries.length ≤ p.leafBuckets.data.length := by
  have hsub : t.slots ⊆ Finset.range p.leafBuckets.data.length := by
    intro i hi
    rw [Finset.mem_range]
    exact Pools.read_slot_ne_none.mp (h.present _ (mem_slots.mp hi))
  have hcard := Finset.card_le_card hsub
  rw [Finset.card_range] at hcard
  exact h.entries_le_slots.trans hcard

/-- The total count is the number of entries, stale ones included. -/
def TotalCounted (c : Counter) (t : Tree Dim K) : Prop := t.total = c.wrap t.entries.length

theorem totalCounted_dropLive {c : Counter} {t : Tree Dim K} :
    t.dropLive.All (TotalCounted c) ↔ t.All (TotalCounted c) := by
  have hroot : ∀ u : Tree Dim K, TotalCounted c u.dropLive ↔ TotalCounted c u := by
    intro u
    rw [TotalCounted, TotalCounted, total_dropLive, entries_dropLive]
  induction t with
  | leaf id live total offset cap bboxIdx es bbox =>
    exact hroot (leaf id live total offset cap bboxIdx es bbox)
  | node id live total dim split left right ihl ihr =>
    exact and_congr (hroot (node id live total dim split left right)) (and_congr ihl ihr)

theorem totalCounted_of_dropLive {c : Counter} {t t' : Tree Dim K} (h : t'.dropLive = t.dropLive)
    (hc : t.All (TotalCounted c)) : t'.All (TotalCounted c) :=
  totalCounted_dropLive.mp (h ▸ totalCounted_dropLive.mpr hc)

variable [NeZero Dim] [Field K] [LinearOrder K]

/-- The leaf that an insertion splits, if it has to, holds no stale entry. -/
def SplitsClean (points : PointStore Dim K) (index : ℕ) : Tree Dim K → Prop
  | leaf _ _ _ _ cap _ es _ => es.length + 1 = cap → ∀ e ∈ es, points.valid e = true
  | node _ _ _ dim split left right =>
    if points.point index dim < split then left.SplitsClean points index
    else right.SplitsClean points index

/-- The nodes that a sweep rebuilds hold no stale entry. -/
def SweepsClean (b : TreeBuilder K) (points : PointStore Dim K) (visit : ℕ → Bool) :
    Tree Dim K → Prop
  | leaf .. => True
  | t@(node _ _ _ _ _ left right) =>
    if b.violates t = true then ∀ e ∈ t.entries, points.valid e = true
    else (visit left.id = true → left.SweepsClean b points visit) ∧
      (visit right.id = true → right.SweepsClean b points visit)

def SweepsCleanBelow (b : TreeBuilder K) (points : PointStore Dim K) (visit : ℕ → Bool) :
    Tree Dim K → Prop
  | leaf .. => True
  | t@(node _ _ _ _ _ left right) =>
    b.violates t = false → (visit left.id = true → left.SweepsClean b points visit) ∧
      (visit right.id = true → right.SweepsClean b points visit)

end Tree

namespace TreeBuilder
variable {Dim : ℕ} {K : Type*} [Field K] [LinearOrder K]

section
variable {c : Counter} {B : ℕ} {b : TreeBuilder K} {points : PointStore Dim K} {index : ℕ}
variable {t t' : Tree Dim K}

theorem Built.totalCounted {indices : List ℕ} (h : Built c points B indices t) :
    t.All (Tree.TotalCounted c) := by
  refine h.all (fun l u hu _ _ => ?_)
  rw [Tree.TotalCounted, hu.entries_perm.length_eq, List.length_map]
  exact hu.counts.2

theorem Rebuilt.entries_length (h : Rebuilt c points B t t')
    (clean : ∀ e ∈ t.entries, points.valid e = true) : t'.entries.length = t.entries.length := by
  rw [h.built.entries_perm.length_eq, List.length_map, Tree.validIn, List.length_map,
    List.filter_eq_self.mpr clean]

theorem Inserted.totalCounted (h : Inserted b points index t t')
    (hlive : points.isLive index = true) (hc : t.All (Tree.TotalCounted b.env.counter))
    (clean : t.SplitsClean points index) :
    t'.All (Tree.TotalCounted b.env.counter) ∧ t'.entries.length = t.entries.length + 1 := by
  have hroot : ∀ {u u' : Tree Dim K}, Tree.TotalCounted b.env.counter u →
      u'.entries.length = u.entries.length + 1 → u'.total = b.env.counter.wrap (u.total + 1) →
      Tree.TotalCounted b.env.counter u' := by
    intro u u' hu hlen hu'
    rw [Tree.TotalCounted, hu', hu, hlen, Counter.wrap_wrap_add]
    push_cast
    rfl
  induction h with
  | push id live total offset cap bboxIdx es bbox _ =>
    have hlen : (es ++ [stamp points index]).length = es.length + 1 := by simp
    exact ⟨hroot hc.root hlen rfl, hlen⟩
  | split id live total offset cap bboxIdx es bbox t' full rebuilt =>
    refine ⟨rebuilt.built.totalCounted, (rebuilt.entries_length (fun e he => ?_)).trans
      (by simp [Tree.entries])⟩
    rcases List.mem_append.mp he with he | he
    · exact clean full e he
    · rw [List.mem_singleton.mp he, stamp_valid, hlive]
  | left id live total dim split left right left' side inserted ih =>
    simp only [Tree.SplitsClean, side, ↓reduceIte] at clean
    obtain ⟨hcl, hlen⟩ := ih hc.2.1 clean
    have hboth : (left'.entries ++ right.entries).length =
        (left.entries ++ right.entries).length + 1 := by
      rw [List.length_append, List.length_append, hlen]
      omega
    exact ⟨⟨hroot hc.root hboth rfl, hcl, hc.2.2⟩, hboth⟩
  | right id live total dim split left right right' side inserted ih =>
    simp only [Tree.SplitsClean, not_lt.mpr side, ↓reduceIte] at clean
    obtain ⟨hcr, hlen⟩ := ih hc.2.2 clean
    have hboth : (left.entries ++ right'.entries).length =
        (left.entries ++ right.entries).length + 1 := by
      rw [List.length_append, List.length_append, hlen]
      omega
    exact ⟨⟨hroot hc.root hboth rfl, hc.2.1, hcr⟩, hboth⟩

theorem Inserted.totalCounted_leaf {id offset cap bboxIdx : ℕ} {live total : ℤ}
    {es : List BucketEntry} {bbox : BBox Dim K}
    (h : Inserted b points index (.leaf id live total offset cap bboxIdx es bbox) t')
    (hc : total = b.env.counter.wrap es.length) : t'.All (Tree.TotalCounted b.env.counter) := by
  cases h with
  | push =>
    change b.env.counter.wrap (total + 1) = _
    rw [hc, Counter.wrap_wrap_add]
    simp [Tree.entries]
  | split _ _ _ _ _ _ _ _ t' full rebuilt => exact rebuilt.built.totalCounted

/-- What a node counts is what triggers a rebuild of it, so sweeping its children
without loss does not trigger one. -/
theorem violates_congr {id : ℕ} {live total : ℤ} {dim : Fin Dim} {split : K}
    {left right left' right' : Tree Dim K} (hl : left'.total = left.total)
    (hr : right'.total = right.total) :
    b.violates (.node id live total dim split left' right') =
      b.violates (.node id live total dim split left right) := by
  simp only [violates, hl, hr]

theorem Swept.totalCounted {visit : ℕ → Bool} {called : Bool} (h : Swept b points visit called t t')
    (hc : t.All (Tree.TotalCounted b.env.counter))
    (clean : called = true → t.SweepsClean b points visit) :
    t'.All (Tree.TotalCounted b.env.counter) ∧ t'.entries.length = t.entries.length := by
  have htotal : ∀ {u u' : Tree Dim K}, u.All (Tree.TotalCounted b.env.counter) →
      u'.All (Tree.TotalCounted b.env.counter) ∧ u'.entries.length = u.entries.length →
      u'.total = u.total := by
    intro u u' hu hu'
    rw [hu'.1.root, hu'.2, ← hu.root]
  induction h with
  | skip t => exact ⟨hc, rfl⟩
  | leaf => exact ⟨hc, rfl⟩
  | rebuild t t' trigger rebuilt =>
    have hall := clean rfl
    cases t with
    | leaf => simp [violates] at trigger
    | node id live total dim split left right =>
      rw [Tree.SweepsClean, if_pos trigger] at hall
      exact ⟨rebuilt.built.totalCounted, rebuilt.entries_length hall⟩
  | keep id live total dim split left right left' right' before hl hr _ ihl ihr =>
    have hall := clean rfl
    rw [Tree.SweepsClean, if_neg (by simp [before])] at hall
    obtain ⟨hcl, hlenl⟩ := ihl hc.2.1 hall.1
    obtain ⟨hcr, hlenr⟩ := ihr hc.2.2 hall.2
    have hboth : (left'.entries ++ right'.entries).length =
        (left.entries ++ right.entries).length := by
      rw [List.length_append, List.length_append, hlenl, hlenr]
    refine ⟨⟨?_, hcl, hcr⟩, hboth⟩
    rw [Tree.TotalCounted, Tree.entries, hboth]
    exact hc.root
  | again id live total dim split left right left' right' t' before hl hr after _ ihl ihr =>
    have hall := clean rfl
    rw [Tree.SweepsClean, if_neg (by simp [before])] at hall
    rw [violates_congr (htotal hc.2.1 (ihl hc.2.1 hall.1)) (htotal hc.2.2 (ihr hc.2.2 hall.2)),
      before] at after
    cases after

theorem Swept.totalCounted_root {visit : ℕ → Bool} {called : Bool}
    (h : Swept b points visit called t t') (hc : t.All (Tree.TotalCounted b.env.counter))
    (clean : t.SweepsCleanBelow b points visit) : t'.All (Tree.TotalCounted b.env.counter) := by
  cases h with
  | skip => exact hc
  | leaf => exact hc
  | rebuild _ _ _ rebuilt => exact rebuilt.built.totalCounted
  | keep id live total dim split left right left' right' before hl hr _ =>
    obtain ⟨hcl, hlenl⟩ := hl.totalCounted hc.2.1 (clean before).1
    obtain ⟨hcr, hlenr⟩ := hr.totalCounted hc.2.2 (clean before).2
    refine ⟨?_, hcl, hcr⟩
    rw [Tree.TotalCounted, Tree.entries, List.length_append, hlenl, hlenr, ← List.length_append]
    exact hc.root
  | again _ _ _ _ _ _ _ _ _ _ _ _ _ _ rebuilt => exact rebuilt.built.totalCounted

end
end TreeBuilder
end Copse

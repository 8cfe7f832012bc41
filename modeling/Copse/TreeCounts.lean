import Copse.KDTreeEntries

set_option autoImplicit false

namespace Copse
open PointStore TreeBuilder

namespace Tree
variable {Dim : ℕ} {K : Type*}

/-- `P` holds of the tree and of every subtree. -/
def All (P : Tree Dim K → Prop) : Tree Dim K → Prop
  | t@(leaf ..) => P t
  | t@(node _ _ _ _ _ left right) => P t ∧ left.All P ∧ right.All P

def IfAny (P : Tree Dim K → Prop) : Option (Tree Dim K) → Prop
  | none => True
  | some t => P t

section
variable {P Q : Tree Dim K → Prop} {t u : Tree Dim K} {d : ℕ}

theorem All.root (h : t.All P) : P t := by
  cases t with
  | leaf => exact h
  | node => exact h.1

theorem All.sub (h : t.All P) (hs : t.Sub d u) : u.All P := by
  induction hs with
  | refl t => exact h
  | left id live total dim split _ ih => exact ih h.2.1
  | right id live total dim split _ ih => exact ih h.2.2

theorem all_of_sub (h : ∀ d u, t.Sub d u → P u) : t.All P := by
  induction t with
  | leaf => exact h 0 _ (.refl _)
  | node id live total dim split left right ihl ihr =>
    refine ⟨h 0 _ (.refl _), ihl (fun d u hs => ?_), ihr (fun d u hs => ?_)⟩
    · exact h (d + 1) u (.left id live total dim split hs)
    · exact h (d + 1) u (.right id live total dim split hs)

theorem All.imp (h : t.All P) (hPQ : ∀ d u, t.Sub d u → P u → Q u) : t.All Q :=
  all_of_sub (fun d u hs => hPQ d u hs (h.sub hs).root)

theorem Sub.entries_sublist (h : t.Sub d u) : u.entries.Sublist t.entries := by
  induction h with
  | refl t => exact List.Sublist.refl _
  | left id live total dim split _ ih => exact ih.trans (List.sublist_append_left _ _)
  | right id live total dim split _ ih => exact ih.trans (List.sublist_append_right _ _)

variable [Field K] {points points' : PointStore Dim K}

theorem Sub.validIn_sublist (h : t.Sub d u) (points : PointStore Dim K) :
    (u.validIn points).Sublist (t.validIn points) :=
  (h.entries_sublist.filter _).map _

theorem validIn_length (points : PointStore Dim K) (t : Tree Dim K) :
    (t.validIn points).length = t.entries.countP points.valid := by
  rw [validIn, List.length_map, List.countP_eq_length_filter]

theorem Rep.below_counts (points : PointStore Dim K) {p : Pools Dim K} (h : t.Rep p)
    (hP : t.All P) {i : ℕ}
    (hi : p.Below t.id d i) :
    ∃ u, t.Sub d u ∧ u.All P ∧ u.Rep p ∧ p.node i = u.header ∧
      collectLiveIndicesInSubtree points p.nodes.length p i = u.validIn points := by
  obtain ⟨u, hs, rfl⟩ := h.below_iff.mp hi
  have hu := hs.rep h
  have hheight := hu.height_lt
  exact ⟨u, hs, hP.sub hs, hu, hu.node_eq,
    collect_eq points hu _ (by omega)⟩

end
end Tree

namespace TreeBuilder
variable {Dim : ℕ} {K : Type*} [Field K] [LinearOrder K]

theorem Built.all {c : Counter} {points : PointStore Dim K} {B : ℕ} {P : Tree Dim K → Prop}
    {indices : List ℕ} {t : Tree Dim K} (h : Built c points B indices t)
    (hP : ∀ l u, Built c points B l u → l.length ≤ indices.length → (∀ i ∈ l, i ∈ indices) → P u) :
    t.All P := by
  induction h with
  | leaf id offset bboxIdx indices small =>
    exact hP indices _ (.leaf id offset bboxIdx indices small) le_rfl (fun _ hi => hi)
  | node id dim split indices lo hi left right large perm half below above pivot hl hr ihl ihr =>
    have hlen := perm.length_eq
    rw [List.length_append] at hlen
    refine ⟨?_, ihl ?_, ihr ?_⟩
    · exact hP indices _ (.node id dim split indices lo hi left right large perm half below above
        pivot hl hr) le_rfl (fun _ hi => hi)
    · exact fun l u hu hle hmem => hP l u hu (by omega)
        (fun i hi => perm.mem_iff.mp (List.mem_append_left _ (hmem i hi)))
    · exact fun l u hu hle hmem => hP l u hu (by omega)
        (fun i hi => perm.mem_iff.mp (List.mem_append_right _ (hmem i hi)))

end TreeBuilder
end Copse

import Copse.TreeShape
import Copse.PointStoreEffects
import Copse.Region

set_option autoImplicit false

namespace Copse.Tree

variable {Dim : ℕ} {K : Type*} [Field K] [LinearOrder K]

def validIn (points : PointStore Dim K) (t : Tree Dim K) : List ℕ :=
  (t.entries.filter points.valid).map BucketEntry.index

/-- Points lie inside their leaf box and on their side of every split above them. -/
def Placed (points : PointStore Dim K) : Tree Dim K → Prop
  | t@(leaf _ _ _ _ _ _ _ bbox) => ∀ i ∈ t.validIn points, bbox.Mem (points.point i)
  | node _ _ _ dim split left right =>
    (∀ i ∈ left.validIn points, points.point i dim ≤ split) ∧
    (∀ i ∈ right.validIn points, split ≤ points.point i dim) ∧
    left.Placed points ∧ right.Placed points

/-- Buckets have the capacity of the configuration and are not full. -/
def Shape (B : ℕ) : Tree Dim K → Prop
  | leaf _ _ _ _ cap _ entries _ => cap = 2 * B ∧ entries.length < 2 * B
  | node _ _ _ _ _ left right => left.Shape B ∧ right.Shape B

/-- Every entry names a slot of the store, with a stamp the slot has had. -/
def Stamped (points : PointStore Dim K) (t : Tree Dim K) : Prop :=
  ∀ e ∈ t.entries, e.index < points.capacity ∧ e.gen ≤ points.stampCount e.index

section
variable {points points' : PointStore Dim K} {t t' left right : Tree Dim K}

section
omit [LinearOrder K]

@[simp] theorem validIn_node (points : PointStore Dim K) (id : ℕ) (live total : ℤ) (dim : Fin Dim)
    (split : K) (left right : Tree Dim K) :
    (node id live total dim split left right).validIn points =
      left.validIn points ++ right.validIn points := by
  simp [validIn, entries]

omit [Field K] in
@[simp] theorem stamped_node (points : PointStore Dim K) (id : ℕ) (live total : ℤ) (dim : Fin Dim)
    (split : K) (left right : Tree Dim K) :
    (node id live total dim split left right).Stamped points ↔
      left.Stamped points ∧ right.Stamped points :=
  List.forall_mem_append

theorem validIn_leaf (points : PointStore Dim K) (id : ℕ) (live total : ℤ) (offset cap bboxIdx : ℕ)
    (es : List BucketEntry) (bbox : BBox Dim K) :
    (leaf id live total offset cap bboxIdx es bbox).validIn points =
      (es.filter points.valid).map BucketEntry.index := rfl

end

theorem Placed.mem_left {id : ℕ} {live total : ℤ} {dim : Fin Dim} {split : K}
    (h : (node id live total dim split left right).Placed points) {b : BBox Dim K}
    (hin : ∀ i ∈ (node id live total dim split left right).validIn points, b.Mem (points.point i)) :
    ∀ i ∈ left.validIn points, (b.left dim split).Mem (points.point i) := by
  intro i hi
  refine (hin i ?_).left (h.1 i hi)
  rw [validIn_node]
  exact List.mem_append_left _ hi

theorem Placed.mem_right {id : ℕ} {live total : ℤ} {dim : Fin Dim} {split : K}
    (h : (node id live total dim split left right).Placed points) {b : BBox Dim K}
    (hin : ∀ i ∈ (node id live total dim split left right).validIn points, b.Mem (points.point i)) :
    ∀ i ∈ right.validIn points, (b.right dim split).Mem (points.point i) := by
  intro i hi
  refine (hin i ?_).right (h.2.1 i hi)
  rw [validIn_node]
  exact List.mem_append_right _ hi

section
omit [LinearOrder K]

theorem mem_validIn {i : ℕ} :
    i ∈ t.validIn points ↔ ∃ e ∈ t.entries, points.valid e = true ∧ e.index = i := by
  simp [validIn, and_assoc]

theorem live_of_mem_validIn {i : ℕ} (h : i ∈ t.validIn points) : points.isLive i = true := by
  obtain ⟨e, -, hv, rfl⟩ := mem_validIn.mp h
  exact ((points.valid_iff e).mp hv).2

theorem validIn_congr (h : ∀ e ∈ t.entries, points'.valid e = points.valid e) :
    t.validIn points' = t.validIn points := by
  rw [validIn, validIn, List.filter_congr h]

theorem validIn_eq_of_entries (h : t'.entries = t.entries) :
    t'.validIn points = t.validIn points := by
  rw [validIn, validIn, h]

theorem validIn_release (points : PointStore Dim K) (i : ℕ) (t : Tree Dim K) :
    t.validIn (points.release i) = (t.validIn points).filter (fun j => decide (j ≠ i)) := by
  have hfun : (points.release i).valid =
      fun e => decide (e.index ≠ i) && points.valid e := by
    funext e
    rw [points.release_valid, Bool.and_comm]
  rw [validIn, validIn, List.filter_map, hfun, ← List.filter_filter]
  rfl

/-- No entry of the tree became valid, and valid ones kept their point. -/
def Fewer (points points' : PointStore Dim K) (t : Tree Dim K) : Prop :=
  ∀ e ∈ t.entries, points'.valid e = true →
    points.valid e = true ∧ points'.point e.index = points.point e.index

theorem Fewer.of_left {id : ℕ} {live total : ℤ} {dim : Fin Dim} {split : K}
    (h : Fewer points points' (node id live total dim split left right)) :
    Fewer points points' left := fun e he => h e (List.mem_append_left _ he)

theorem Fewer.of_right {id : ℕ} {live total : ℤ} {dim : Fin Dim} {split : K}
    (h : Fewer points points' (node id live total dim split left right)) :
    Fewer points points' right := fun e he => h e (List.mem_append_right _ he)

theorem Fewer.mem (h : Fewer points points' t) {i : ℕ} (hi : i ∈ t.validIn points') :
    i ∈ t.validIn points ∧ points'.point i = points.point i := by
  obtain ⟨e, he, hv, rfl⟩ := mem_validIn.mp hi
  exact ⟨mem_validIn.mpr ⟨e, he, (h e he hv).1, rfl⟩, (h e he hv).2⟩

end

theorem Placed.fewer (h : t.Placed points) (hf : Fewer points points' t) : t.Placed points' := by
  induction t with
  | leaf id live total offset cap bboxIdx es bbox =>
    intro i hi
    rw [(hf.mem hi).2]
    exact h i (hf.mem hi).1
  | node id live total dim split left right ihl ihr =>
    obtain ⟨hle, hge, hl, hr⟩ := h
    refine ⟨?_, ?_, ihl hl hf.of_left, ihr hr hf.of_right⟩
    · intro i hi
      rw [(hf.of_left.mem hi).2]
      exact hle i (hf.of_left.mem hi).1
    · intro i hi
      rw [(hf.of_right.mem hi).2]
      exact hge i (hf.of_right.mem hi).1

omit [LinearOrder K]

theorem fewer_release (points : PointStore Dim K) (i : ℕ) (t : Tree Dim K) :
    Fewer points (points.release i) t := by
  intro e _ hv
  rw [points.release_valid, Bool.and_eq_true] at hv
  exact ⟨hv.1, points.release_point i _⟩

section acquire
open PointStore
variable {window free : List ℕ}

/-- After an acquire, every older entry of the acquired slot is stale. -/
theorem acquire_valid (hr : Ring points window free) (p : Point Dim K)
    (fit : (points.acquire p).1.StampsFit) (hs : t.Stamped points) :
    ∀ e ∈ t.entries, (points.acquire p).1.valid e =
      (points.valid e && decide (e.index ≠ (points.acquire p).2)) := by
  intro e he
  have fit' : points.StampsFit := fun i => (acquire_stampCount_le p hr i).trans_lt (fit i)
  rw [Bool.eq_iff_iff, Bool.and_eq_true, valid_iff, valid_iff, generation_eq fit,
    generation_eq fit', acquire_isLive p hr, decide_eq_true_eq]
  by_cases hi : e.index = (points.acquire p).2
  · have hlt := acquire_stampCount_self p hr
    have hle := (hs e he).2
    rw [hi] at hle ⊢
    constructor
    · rintro ⟨hg, -⟩
      omega
    · rintro ⟨-, hn⟩
      exact absurd rfl hn
  · rw [acquire_stampCount p hr, if_neg hi]
    simp [hi]

theorem validIn_acquire (hr : Ring points window free) (p : Point Dim K)
    (fit : (points.acquire p).1.StampsFit) (hs : t.Stamped points) :
    t.validIn (points.acquire p).1 =
      (t.validIn points).filter (fun j => decide (j ≠ (points.acquire p).2)) := by
  rw [validIn, List.filter_congr (acquire_valid hr p fit hs), validIn, List.filter_map]
  rw [List.filter_filter]
  congr 2
  funext e
  exact Bool.and_comm _ _

theorem fewer_acquire (hr : Ring points window free) (p : Point Dim K)
    (fit : (points.acquire p).1.StampsFit) (hs : t.Stamped points) :
    Fewer points (points.acquire p).1 t := by
  intro e he hv
  rw [acquire_valid hr p fit hs e he, Bool.and_eq_true, decide_eq_true_eq] at hv
  exact ⟨hv.1, by rw [acquire_point p hr, if_neg hv.2]⟩

omit [Field K] in
theorem Stamped.acquire (hs : t.Stamped points) (hr : Ring points window free) (p : Point Dim K) :
    t.Stamped (points.acquire p).1 := by
  intro e he
  rw [acquire_capacity]
  exact ⟨(hs e he).1, (hs e he).2.trans (acquire_stampCount_le p hr _)⟩

end acquire
end
end Copse.Tree

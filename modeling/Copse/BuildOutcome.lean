import Copse.TotalCounts
import Copse.TreePartition
import Mathlib.Algebra.Order.Floor.Div

set_option autoImplicit false

namespace Copse
open PointStore TreeBuilder

namespace BBox
variable {Dim : ℕ} {K : Type*} [LinearOrder K]

/-- The box holds the points, and every box that does covers it. -/
def Tight (b : BBox Dim K) (xs : List (Point Dim K)) : Prop :=
  (∀ x ∈ xs, b.Mem x) ∧ ∀ b' : BBox Dim K, (∀ x ∈ xs, b'.Mem x) → b'.Covers b

theorem covers_empty (b : BBox Dim K) : b.Covers BBox.empty := fun _ => ⟨le_top, bot_le⟩

theorem Covers.expanded {b b' : BBox Dim K} {x : Point Dim K} (h : b'.Covers b) (hx : b'.Mem x) :
    b'.Covers (b.expand x) :=
  fun i => ⟨le_min (h i).1 (hx i).1, max_le (h i).2 (hx i).2⟩

end BBox

namespace TreeBuilder
variable {Dim : ℕ} [NeZero Dim] {K : Type*} [Field K] [LinearOrder K]

/-- What a caller may rely on after a build over `indices`. -/
structure Balanced (points : PointStore Dim K) (B : ℕ) (indices : List ℕ) (t : Tree Dim K) :
    Prop where
  stamped : ∀ pos e, t.At pos e → e.index ∈ indices ∧ e.gen = points.generation e.index
  once : ∀ i ∈ indices, ∃! pos, ∃ e, t.At pos e ∧ e.index = i
  leaves : ∀ d id live total offset cap bboxIdx entries bbox,
    t.Sub d (.leaf id live total offset cap bboxIdx entries bbox) →
      entries.length ≤ B ∧ (indices ≠ [] → entries ≠ []) ∧
        bbox.Tight (entries.map (fun e => points.point e.index))
  splits : ∀ d id live total dim split left right,
    t.Sub d (.node id live total dim split left right) →
      (∀ e ∈ left.entries, points.point e.index dim ≤ split) ∧
        ∀ e ∈ right.entries, split ≤ points.point e.index dim
  counts : ∀ d u, t.Sub d u → u.live = u.entries.length ∧ u.total = u.entries.length
  depth : ∀ d u k, t.Sub d u → indices.length ⌈/⌉ 2 ^ k ≤ B → d ≤ k

section
variable {env : Env K} {c : Counter} {points : PointStore Dim K} {B d : ℕ} {indices : List ℕ}
variable {p : Pools Dim K} {t u : Tree Dim K}

omit [NeZero Dim] in
theorem foldl_expand_covered {b b' : BBox Dim K} (h : b'.Covers b)
    (hin : ∀ i ∈ indices, b'.Mem (points.point i)) :
    b'.Covers (indices.foldl (fun b i => b.expand (points.point i)) b) := by
  induction indices generalizing b with
  | nil => exact h
  | cons i is ih =>
    have hi := hin i List.mem_cons_self
    exact ih (h.expanded hi) (fun j hj => hin j (List.mem_cons_of_mem _ hj))

omit [NeZero Dim] in
theorem bboxOf_tight (points : PointStore Dim K) (indices : List ℕ) :
    (bboxOf points indices).Tight (indices.map points.point) := by
  refine ⟨List.forall_mem_map.mpr (fun i hi => mem_bboxOf hi), fun b' hin => ?_⟩
  exact foldl_expand_covered b'.covers_empty (List.forall_mem_map.mp hin)

/-- Every recursive call is over fewer slots, so fuel for the number of slots is enough. -/
theorem buildRecursive_fuel (hpos : 0 < B) (fuel fuel' : ℕ) (p : Pools Dim K) (indices : List ℕ)
    (h : indices.length ≤ fuel) (h' : indices.length ≤ fuel') :
    buildRecursive env points B fuel p indices = buildRecursive env points B fuel' p indices := by
  induction fuel generalizing fuel' p indices with
  | zero =>
    have small : indices.length ≤ B := by omega
    rw [buildRecursive_small _ _ small, buildRecursive_small _ _ small]
  | succ fuel ih =>
    rcases Nat.lt_or_ge B indices.length with large | small
    · have hlen := (parted_perm env points indices (by omega)).length_eq
      cases fuel' with
      | zero => omega
      | succ fuel' =>
        have hlo : ((partedOf env points indices).take (indices.length / 2)).length <
            indices.length := by
          rw [List.length_take]
          omega
        have hhi : ((partedOf env points indices).drop (indices.length / 2)).length <
            indices.length := by
          rw [List.length_drop]
          omega
        rw [buildRecursive_large _ _ large, buildRecursive_large _ _ large]
        dsimp only
        rw [ih fuel' p.pushNode _ (by omega) (by omega), ih fuel' _ _ (by omega) (by omega)]
    · rw [buildRecursive_small _ _ small, buildRecursive_small _ _ small]

section
omit [NeZero Dim]

theorem Built.sub (h : Built c points B indices t) (hs : t.Sub d u) :
    ∃ l, Built c points B l u ∧ l.length ≤ indices.length := by
  have hall := h.all (P := fun u => ∃ l, Built c points B l u ∧ l.length ≤ indices.length)
    (fun l u hu hle _ => ⟨l, hu, hle⟩)
  exact (hall.sub hs).root

theorem Built.entries_ne_nil (h : Built c points B indices t) (hpos : 0 < B) (hne : indices ≠ [])
    (hs : t.Sub d u) : u.entries ≠ [] := by
  have here : ∀ {l : List ℕ} {v : Tree Dim K}, Built c points B l v → l ≠ [] → v.entries ≠ [] := by
    intro l v hv hl hnil
    have hlen := hv.entries_perm.length_eq
    rw [hnil, List.length_map] at hlen
    exact hl (List.length_eq_zero_iff.mp hlen.symm)
  induction h generalizing d with
  | leaf id offset bboxIdx indices small =>
    cases hs
    exact here (.leaf id offset bboxIdx indices small) hne
  | node id dim split indices lo hi left right large perm half below above pivot hl hr ihl ihr =>
    have hlen := perm.length_eq
    rw [List.length_append] at hlen
    cases hs with
    | refl =>
      exact here (.node id dim split indices lo hi left right large perm half below above pivot
        hl hr) hne
    | left _ _ _ _ _ hs => exact ihl (List.ne_nil_of_length_pos (by omega)) hs
    | right _ _ _ _ _ hs => exact ihr (List.ne_nil_of_length_pos (by omega)) hs

/-- The halves are the two roundings of `n / 2`, so `k` halvings leave at most `⌈n / 2 ^ k⌉`. -/
theorem Built.depth_le (h : Built c points B indices t) (hs : t.Sub d u) {k : ℕ}
    (hk : indices.length ≤ 2 ^ k * B) : d ≤ k := by
  induction h generalizing d k with
  | leaf =>
    cases hs
    exact Nat.zero_le _
  | node id dim split indices lo hi left right large perm half below above pivot _ _ ihl ihr =>
    have hlen := perm.length_eq
    rw [List.length_append] at hlen
    cases k with
    | zero => omega
    | succ k =>
      rw [pow_succ, mul_comm (2 ^ k) 2, mul_assoc] at hk
      cases hs with
      | refl => exact Nat.zero_le _
      | left _ _ _ _ _ hs => exact Nat.succ_le_succ (ihl hs (by omega))
      | right _ _ _ _ _ hs => exact Nat.succ_le_succ (ihr hs (by omega))

theorem Built.balanced (h : Built c points B indices t) (hpos : 0 < B) (hnodup : indices.Nodup)
    (hrep : t.Rep p) (fit : p.Fit) : Balanced points B indices t := by
  have hmem : ∀ {e}, e ∈ t.entries → ∃ i ∈ indices, stamp points i = e :=
    fun he => List.mem_map.mp (h.entries_perm.mem_iff.mp he)
  have hindex : indices.map (BucketEntry.index ∘ stamp points) = indices := List.map_id indices
  refine ⟨?_, ?_, ?_, ?_, ?_, ?_⟩
  · intro pos e he
    obtain ⟨i, hi, rfl⟩ := hmem he.mem
    exact ⟨hi, rfl⟩
  · intro i hi
    have hd : ((t.entries.filter (fun _ => true)).map BucketEntry.index).Nodup := by
      rw [List.filter_true, (h.entries_perm.map _).nodup_iff, List.map_map, hindex]
      exact hnodup
    obtain ⟨pos, hpos⟩ := Tree.exists_at (h.entries_perm.mem_iff.mpr (List.mem_map_of_mem hi))
    refine ⟨pos, ⟨_, hpos, rfl⟩, ?_⟩
    rintro pos' ⟨e, he, hi'⟩
    exact he.unique_of hd hpos rfl rfl hi'
  · intro d id live total offset cap bboxIdx entries bbox hs
    refine ⟨?_, fun hne => h.entries_ne_nil hpos hne hs, ?_⟩
    · obtain ⟨l, hl, -⟩ := h.sub hs
      cases hl with
      | leaf _ _ _ _ small => rwa [List.length_map]
    · obtain ⟨l, hl, -⟩ := h.sub hs
      cases hl with
      | leaf =>
        rw [List.map_map]
        exact bboxOf_tight points l
  · intro d id live total dim split left right hs
    obtain ⟨l, hl, -⟩ := h.sub hs
    cases hl with
    | node _ _ _ _ lo hi _ _ _ _ _ below above _ hlo hhi =>
      refine ⟨fun e he => ?_, fun e he => ?_⟩
      · obtain ⟨i, hi, rfl⟩ := List.mem_map.mp (hlo.entries_perm.mem_iff.mp he)
        exact below i hi
      · obtain ⟨i, hi, rfl⟩ := List.mem_map.mp (hhi.entries_perm.mem_iff.mp he)
        exact above i hi
  · intro d u hs
    obtain ⟨l, hl, -⟩ := h.sub hs
    have hlen : u.entries.length = l.length := by
      rw [hl.entries_perm.length_eq, List.length_map]
    have hfit : u.entries.length < 2 ^ 32 := (hs.rep hrep).entries_length_le.trans_lt fit.slots
    have hwrap : c.wrap l.length = l.length := c.wrap_of_fits (by omega) (by omega)
    rw [hl.counts.1, hl.counts.2, hlen, hwrap]
    exact ⟨rfl, rfl⟩
  · intro d u k hs hk
    exact h.depth_le hs ((ceilDiv_le_iff_le_mul (by positivity)).mp hk)

end

/-- A build over distinct slots ends in a balanced tree in fresh cells. -/
theorem build_balanced (hpos : 0 < B) (hB : 2 * B ≤ 65535) (p : Pools Dim K)
    (hnodup : indices.Nodup)
    (fit : (buildRecursive env points B indices.length p indices).1.Fit) :
    (∀ fuel, indices.length ≤ fuel →
      buildRecursive env points B fuel p indices =
        buildRecursive env points B indices.length p indices) ∧
    ∃ t, (buildRecursive env points B indices.length p indices).2 = t.id ∧
      Appended p (buildRecursive env points B indices.length p indices).1 t ∧
      Balanced points B indices t := by
  refine ⟨fun fuel hfuel => buildRecursive_fuel hpos _ _ _ _ hfuel le_rfl, ?_⟩
  obtain ⟨t, hid, built, app⟩ := buildRecursive_spec hpos (by omega) _ p indices le_rfl fit
  exact ⟨t, hid, app, built.balanced hpos hnodup app.rep fit⟩

end

def stacked : PointStore 2 ℚ :=
  [![1, 1], ![1, 1], ![1, 1]].foldl (fun points x => (points.acquire x).1)
    (KDTreeImpl.start (KDTreeImpl.plane 3 (1 / 4))).points

theorem build_balanced_stacked :
    ∃ t, Appended ⟨[], ⟨[]⟩, []⟩
      (buildRecursive KDTreeImpl.wordEnv stacked 1 3 ⟨[], ⟨[]⟩, []⟩ [0, 1, 2]).1 t ∧
      Balanced stacked 1 [0, 1, 2] t := by
  have fit : (buildRecursive KDTreeImpl.wordEnv stacked 1 3 ⟨[], ⟨[]⟩, []⟩ [0, 1, 2]).1.Fit :=
    ⟨by decide +kernel, by decide +kernel, by decide +kernel⟩
  have hnodup : [0, 1, 2].Nodup := by decide
  obtain ⟨t, -, app, balanced⟩ := (build_balanced (by decide) (by decide) _ hnodup fit).2
  exact ⟨t, app, balanced⟩

end TreeBuilder
end Copse

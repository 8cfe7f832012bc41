import Copse.DepthBounds
import Copse.Violators

set_option autoImplicit false

/-!
# The potential of a tree

Partial rebuilds are paid for by what happened since the rebuilt nodes were
made: entries that went to one side of a split, and entries whose slots were
released. Counters are exact here, so the counts are the numbers themselves.
-/
namespace Copse
open TreeBuilder

namespace Tree
variable {Dim : ℕ} {K : Type*}

/-- How far a node is from the one a build would have made of its counts. -/
def debt (B : ℕ) : Tree Dim K → ℤ
  | leaf _ _ _ _ _ _ entries _ => max 0 ((entries.length : ℤ) - B)
  | node _ live total _ _ left right =>
    max 0 (max left.total right.total - (total + 1) / 2) + (total - live)

def potential (B : ℕ) : Tree Dim K → ℤ
  | t@(leaf ..) => t.debt B
  | t@(node _ _ _ _ _ left right) => t.debt B + (left.potential B + right.potential B)

/-- The total count bounds the entries and the live count; children are only made of more than a
bucket. -/
structure Accounted (B : ℕ) (t : Tree Dim K) : Prop where
  entries : (t.entries.length : ℤ) ≤ t.total
  live : t.live ≤ t.total
  large : 0 < t.height → (B : ℤ) < t.total

section
variable {B : ℕ} {t t' : Tree Dim K}

theorem Accounted.debt_nonneg (h : t.Accounted B) : 0 ≤ t.debt B := by
  have hlive := h.live
  cases t with
  | leaf => exact le_max_left _ _
  | node id live total =>
    simp only [Tree.live, Tree.total] at hlive
    simp only [debt]
    omega

theorem potential_nonneg (h : t.All (Accounted B)) : 0 ≤ t.potential B := by
  induction t with
  | leaf => exact h.root.debt_nonneg
  | node _ _ _ _ _ _ _ ihl ihr =>
    have hroot := h.root.debt_nonneg
    have hl := ihl h.2.1
    have hr := ihr h.2.2
    simp only [potential]
    omega

theorem debt_le_potential (h : t.All (Accounted B)) : t.debt B ≤ t.potential B := by
  cases t with
  | leaf => exact le_rfl
  | node =>
    have hl := potential_nonneg h.2.1
    have hr := potential_nonneg h.2.2
    simp only [potential]
    omega

theorem debt_node_le {id : ℕ} {live total : ℤ} {dim : Fin Dim} {split : K}
    {left right left' right' : Tree Dim K} (hl : left'.total ≤ left.total)
    (hr : right'.total ≤ right.total) :
    (node id live total dim split left' right').debt B ≤
      (node id live total dim split left right).debt B := by
  simp only [debt]
  omega

theorem debt_node_succ {id : ℕ} {live total : ℤ} {dim : Fin Dim} {split : K}
    {left right left' right' : Tree Dim K} (hl : left'.total ≤ left.total + 1)
    (hr : right'.total ≤ right.total + 1) :
    (node id (live + 1) (total + 1) dim split left' right').debt B ≤
      (node id live total dim split left right).debt B + 1 := by
  simp only [debt]
  omega

theorem Accounted.node_le {id : ℕ} {live total : ℤ} {dim : Fin Dim} {split : K}
    {left right left' right' : Tree Dim K} (h : (node id live total dim split left right).Accounted B)
    (hl : left'.entries.length ≤ left.entries.length)
    (hr : right'.entries.length ≤ right.entries.length) :
    (node id live total dim split left' right').Accounted B ∧
      (node id live total dim split left' right').entries.length ≤
        (node id live total dim split left right).entries.length := by
  have hle : (node id live total dim split left' right').entries.length ≤
      (node id live total dim split left right).entries.length := by
    simp only [Tree.entries, List.length_append]
    omega
  refine ⟨⟨?_, h.live, fun _ => h.large (Nat.succ_pos _)⟩, hle⟩
  exact (Int.ofNat_le.mpr hle).trans h.entries

theorem Accounted.node_succ {id : ℕ} {live total : ℤ} {dim : Fin Dim} {split : K}
    {left right left' right' : Tree Dim K} (h : (node id live total dim split left right).Accounted B)
    (hle : left'.entries.length + right'.entries.length ≤
      left.entries.length + right.entries.length + 1) :
    (node id (live + 1) (total + 1) dim split left' right').Accounted B ∧
      (node id (live + 1) (total + 1) dim split left' right').entries.length ≤
        (node id live total dim split left right).entries.length + 1 := by
  obtain ⟨hentries, hlive, hlarge⟩ := h
  have hlarge' := hlarge (Nat.succ_pos _)
  simp only [Tree.entries, Tree.total, Tree.live, List.length_append] at hentries hlive hlarge'
  refine ⟨⟨?_, ?_, fun _ => ?_⟩, ?_⟩
  all_goals
    simp only [Tree.entries, Tree.total, Tree.live, List.length_append]
    omega

theorem debt_node_sub {id : ℕ} {live total k : ℤ} {dim : Fin Dim} {split : K}
    {left right left' right' : Tree Dim K} (hl : left'.total = left.total)
    (hr : right'.total = right.total) :
    (node id (live + -k) total dim split left' right').debt B =
      (node id live total dim split left right).debt B + k := by
  simp only [debt, hl, hr]
  omega

theorem height_dropLive (t : Tree Dim K) : t.dropLive.height = t.height := by
  induction t with
  | leaf => rfl
  | node _ _ _ _ _ _ _ ihl ihr => simp only [dropLive, height, ihl, ihr]

theorem total_of_dropLive (h : t'.dropLive = t.dropLive) : t'.total = t.total := by
  rw [← total_dropLive, h, total_dropLive]

/-- Taking a count of entries off every node above them adds to the potential once for each level. -/
theorem Discounted.potential_le {gone : BucketEntry → Bool} (h : t.Discounted .exact gone t') :
    t'.potential B ≤ t.potential B + t.entries.countP gone * t.height := by
  induction h with
  | untouched t =>
    exact le_add_of_nonneg_right (mul_nonneg (Int.natCast_nonneg _) (Int.natCast_nonneg _))
  | leaf => exact le_add_of_nonneg_right (mul_nonneg (Int.natCast_nonneg _) (Int.natCast_nonneg _))
  | node id live total dim split left right left' right' dl dr ihl ihr =>
    obtain ⟨n, hn⟩ : ∃ n, n = left.entries.countP gone + right.entries.countP gone := ⟨_, rfl⟩
    have hdebt : (Tree.node id (live + -(n : ℤ)) total dim split left' right').debt B =
        (Tree.node id live total dim split left right).debt B + n :=
      debt_node_sub (total_of_dropLive dl.dropLive) (total_of_dropLive dr.dropLive)
    have hleft : (left.entries.countP gone : ℤ) * left.height ≤
        left.entries.countP gone * (max left.height right.height : ℕ) := by
      gcongr
      exact le_max_left _ _
    have hright : (right.entries.countP gone : ℤ) * right.height ≤
        right.entries.countP gone * (max left.height right.height : ℕ) := by
      gcongr
      exact le_max_right _ _
    rw [← hn]
    simp only [addLive, withCounts, Counter.wrap, potential, height, Tree.live, Tree.total,
      Tree.entries, List.countP_append, ← hn]
    have hsum : (n : ℤ) * ((max left.height right.height + 1 : ℕ) : ℤ) =
        left.entries.countP gone * (max left.height right.height : ℕ) +
          right.entries.countP gone * (max left.height right.height : ℕ) + n := by
      rw [hn]
      push_cast
      ring
    rw [hdebt, hsum]
    omega

theorem potential_tombstone [LT K] [DecidableLT K] (x : Point Dim K) (t : Tree Dim K) :
    (t.tombstone .exact x).potential B ≤ t.potential B + t.height := by
  induction t with
  | leaf => exact le_add_of_nonneg_right (Int.natCast_nonneg _)
  | node id live total dim split left right ihl ihr =>
    have hl := total_of_dropLive (dropLive_tombstone .exact x left)
    have hr := total_of_dropLive (dropLive_tombstone .exact x right)
    rw [tombstone]
    split_ifs
    · have hdebt : (node id (live + -1) total dim split (left.tombstone .exact x) right).debt B =
          (node id live total dim split left right).debt B + 1 := debt_node_sub hl rfl
      simp only [addLive, withCounts, Counter.wrap, potential, height, Tree.live, Tree.total]
      omega
    · have hdebt : (node id (live + -1) total dim split left (right.tombstone .exact x)).debt B =
          (node id live total dim split left right).debt B + 1 := debt_node_sub rfl hr
      simp only [addLive, withCounts, Counter.wrap, potential, height, Tree.live, Tree.total]
      omega

end

section
variable [LinearOrder K] {B : ℕ} {t t' : Tree Dim K}

omit [LinearOrder K] in
theorem Accounted.of_dropLive (h : t.Accounted B) (hd : t'.dropLive = t.dropLive)
    (hlive : t'.live ≤ t.live) : t'.Accounted B := by
  have htotal := total_of_dropLive hd
  refine ⟨?_, ?_, fun hpos => ?_⟩
  · rw [entries_of_dropLive hd, htotal]
    exact h.entries
  · rw [htotal]
    exact hlive.trans h.live
  · rw [htotal]
    refine h.large ?_
    rwa [← height_dropLive, ← hd, height_dropLive]

omit [LinearOrder K] in
theorem Discounted.accounted {gone : BucketEntry → Bool} (h : t.Discounted .exact gone t')
    (ha : t.All (Accounted B)) : t'.All (Accounted B) := by
  have hroot : ∀ u u' : Tree Dim K, u.Discounted .exact gone u' → u.Accounted B →
      u'.Accounted B := by
    intro u u' hd hu
    refine hu.of_dropLive hd.dropLive ?_
    cases hd with
    | untouched => exact le_rfl
    | leaf | node =>
      rw [addLive, live_withCounts, Counter.wrap]
      simp only [Tree.live]
      omega
  induction h with
  | untouched => exact ha
  | leaf => exact hroot _ _ (.leaf ..) ha
  | node id live total dim split left right left' right' dl dr ihl ihr =>
    exact ⟨hroot _ _ (.node id live total dim split left right left' right' dl dr) ha.root,
      ihl ha.2.1, ihr ha.2.2⟩

theorem accounted_tombstone (x : Point Dim K) (h : t.All (Accounted B)) :
    (t.tombstone .exact x).All (Accounted B) := by
  have hroot : ∀ u : Tree Dim K, u.Accounted B → (u.tombstone .exact x).Accounted B := by
    intro u hu
    refine hu.of_dropLive (dropLive_tombstone _ x u) ?_
    rw [live_tombstone, Counter.wrap]
    omega
  induction t with
  | leaf => exact hroot _ h
  | node id live total dim split left right ihl ihr =>
    have hnode := hroot _ h.root
    rw [tombstone] at hnode ⊢
    split_ifs at hnode ⊢
    · exact ⟨hnode, ihl h.2.1, h.2.2⟩
    · exact ⟨hnode, h.2.1, ihr h.2.2⟩

end

/-- How many entries the insertion of a slot makes a full leaf hand to its rebuild. -/
def splitEntries [Field K] [LinearOrder K] (points : PointStore Dim K) (index : ℕ) : Tree Dim K → ℕ
  | leaf _ _ _ _ cap _ es _ => if es.length + 1 = cap then es.length + 1 else 0
  | node _ _ _ dim split left right =>
    if points.point index dim < split then left.splitEntries points index
    else right.splitEntries points index

end Tree

namespace TreeBuilder
variable {Dim : ℕ} {K : Type*} [Field K] [LinearOrder K]

/-- What a rebuild may cost for each entry it reads, in the units of the potential. -/
structure Rate (b : TreeBuilder K) (c : K) : Prop where
  nonneg : 0 ≤ c
  tombstones : c ≤ b.tombstoneThreshold
  halves : 3 * c ≤ 2 * b.alpha - 1
  odd : ∀ n, b.HalvesWithin n

section
variable {B : ℕ} {b : TreeBuilder K} {points points' : PointStore Dim K} {index : ℕ} {c : K}
variable {t t' : Tree Dim K} {indices : List ℕ}

theorem Rate.debt_of_violates [IsStrictOrderedRing K] (hr : b.Rate c) (h : t.Accounted b.leafBucketSize)
    (hv : b.violates t = true) : c * (t.total : K) ≤ (t.debt b.leafBucketSize : K) := by
  cases t with
  | leaf => cases hv
  | node id live total dim split left right =>
    have hlarge : (b.leafBucketSize : ℤ) < total := h.large (Nat.succ_pos _)
    have hlive : live ≤ total := h.live
    have hpos : (0 : K) < total := by exact_mod_cast (Int.natCast_nonneg _).trans_lt hlarge
    obtain ⟨m, hm⟩ : ∃ m, m = max left.total right.total := ⟨_, rfl⟩
    rw [violates, if_neg (by omega), Bool.or_eq_true, decide_eq_true_iff, Bool.and_eq_true,
      decide_eq_true_iff, decide_eq_true_iff, ← hm] at hv
    simp only [Tree.debt, ← hm]
    change c * (total : K) ≤ _
    rcases hv with hv | ⟨-, hv⟩
    · -- one side holds more than its share; an odd count has to be over by a whole entry
      have hgap : c * total ≤ ((m - (total + 1) / 2 : ℤ) : K) := by
        rcases Int.even_or_odd' total with ⟨k, rfl | rfl⟩
        · rw [show m - (2 * k + 1) / 2 = m - k by omega]
          push_cast at hv hpos ⊢
          nlinarith [hr.nonneg, hr.halves]
        · rw [show m - (2 * k + 1 + 1) / 2 = m - (k + 1) by omega]
          obtain ⟨n, rfl⟩ : ∃ n : ℕ, k = n := ⟨k.toNat, by omega⟩
          have hodd := hr.odd (2 * n + 1) n (by omega) le_rfl
          push_cast at hv hodd hpos
          have hover : (n : ℤ) + 2 ≤ m := by
            have hlt : ((n : K) + 1) < m := hodd.trans_lt hv
            have hlt' : ((n : ℤ) + 1) < m := by exact_mod_cast hlt
            omega
          have hover' : (n : K) + 2 ≤ m := by exact_mod_cast hover
          push_cast
          nlinarith [hr.halves]
      have hle : m - (total + 1) / 2 ≤ max 0 (m - (total + 1) / 2) + (total - live) := by omega
      exact hgap.trans (by exact_mod_cast hle)
    · have hle : total - live ≤ max 0 (m - (total + 1) / 2) + (total - live) := by omega
      calc c * total ≤ b.tombstoneThreshold * total :=
            mul_le_mul_of_nonneg_right hr.tombstones hpos.le
        _ ≤ ((total - live : ℤ) : K) := (le_div_iff₀ hpos).mp hv
        _ ≤ _ := by exact_mod_cast hle

/-- What a violator has put aside covers reading its entries, at least one. -/
theorem Rate.covers [IsStrictOrderedRing K] (hr : b.Rate c)
    (ha : t.All (Tree.Accounted b.leafBucketSize)) (hv : b.violates t = true) :
    c * ((max 1 t.entries.length : ℕ) : K) ≤ (t.potential b.leafBucketSize : K) := by
  have hlarge : (b.leafBucketSize : ℤ) < t.total := by
    cases t with
    | leaf => cases hv
    | node => exact ha.root.large (Nat.succ_pos _)
  have hentries : ((max 1 t.entries.length : ℕ) : ℤ) ≤ t.total := by
    have hle := ha.root.entries
    omega
  have hentries' : ((max 1 t.entries.length : ℕ) : K) ≤ (t.total : K) := by exact_mod_cast hentries
  have hdebt : (t.debt b.leafBucketSize : K) ≤ (t.potential b.leafBucketSize : K) := by
    exact_mod_cast Tree.debt_le_potential ha
  calc c * ((max 1 t.entries.length : ℕ) : K) ≤ c * (t.total : K) :=
        mul_le_mul_of_nonneg_left hentries' hr.nonneg
    _ ≤ (t.debt b.leafBucketSize : K) := hr.debt_of_violates ha.root hv
    _ ≤ (t.potential b.leafBucketSize : K) := hdebt

theorem Built.potential_eq (h : Built .exact points B indices t) : t.potential B = 0 := by
  induction h with
  | leaf id offset bboxIdx indices small =>
    simp only [Tree.potential, Tree.debt, List.length_map]
    omega
  | node id dim split indices lo hi left right large perm half _ _ _ hl hr ihl ihr =>
    have hlen := perm.length_eq
    have hlive := hl.counts.1
    have hlive' := hr.counts.1
    rw [List.length_append] at hlen
    simp only [Tree.potential, Tree.debt, ihl, ihr, hl.exact_total, hr.exact_total, hlive, hlive',
      Counter.wrap]
    omega

theorem Built.accounted (h : Built .exact points B indices t) :
    t.All (Tree.Accounted B) := by
  refine h.all (fun l u hu _ _ => ?_)
  have hlen := hu.entries_perm.length_eq
  have htotal := hu.exact_total
  rw [List.length_map] at hlen
  refine ⟨?_, ?_, ?_⟩
  · rw [hlen, htotal]
  · rw [hu.counts.1, htotal]
    exact le_rfl
  · intro hheight
    cases hu with
    | leaf => exact absurd hheight (lt_irrefl 0)
    | node _ _ _ _ _ _ _ _ large =>
      rw [htotal]
      exact_mod_cast large

theorem Rebuilt.entries_le (h : Rebuilt .exact points B t t') :
    t'.entries.length ≤ t.entries.length ∧ t'.total ≤ t.entries.length := by
  have hlen := h.built.entries_perm.length_eq
  have hle := List.countP_le_length (p := points.valid) (l := t.entries)
  have hvalid := Tree.validIn_length points t
  rw [List.length_map] at hlen
  rw [h.built.exact_total]
  omega

/-- The rebuild of a violator spends all of its potential. -/
theorem Rate.pays [IsStrictOrderedRing K] (hr : b.Rate c) (hexact : b.env.counter = .exact)
    (ha : t.All (Tree.Accounted b.leafBucketSize)) (hv : b.violates t = true)
    (rebuilt : Rebuilt b.env.counter points b.leafBucketSize t t') :
    c * ((max 1 t.entries.length : ℕ) : K) + (t'.potential b.leafBucketSize : K) ≤
      (t.potential b.leafBucketSize : K) := by
  rw [hexact] at rebuilt
  rw [rebuilt.built.potential_eq, Int.cast_zero, add_zero]
  exact hr.covers ha hv

theorem Swept.accounted {visit : ℕ → Bool} {called : Bool} (h : Swept b points visit called t t')
    (hexact : b.env.counter = .exact) (ha : t.All (Tree.Accounted b.leafBucketSize)) :
    t'.All (Tree.Accounted b.leafBucketSize) ∧ t'.total ≤ t.total ∧
      t'.entries.length ≤ t.entries.length := by
  induction h with
  | skip | leaf => exact ⟨ha, le_rfl, le_rfl⟩
  | rebuild t t' _ rebuilt =>
    rw [hexact] at rebuilt
    have hle := rebuilt.entries_le
    exact ⟨rebuilt.built.accounted, hle.2.trans ha.root.entries, hle.1⟩
  | keep id live total dim split left right left' right' _ _ _ _ ihl ihr =>
    obtain ⟨hal, -, hel⟩ := ihl ha.2.1
    obtain ⟨har, -, her⟩ := ihr ha.2.2
    obtain ⟨hroot, hle⟩ := ha.root.node_le hel her
    exact ⟨⟨hroot, hal, har⟩, le_rfl, hle⟩
  | again id live total dim split left right left' right' t' _ _ _ _ rebuilt ihl ihr =>
    obtain ⟨hal, -, hel⟩ := ihl ha.2.1
    obtain ⟨har, -, her⟩ := ihr ha.2.2
    obtain ⟨hroot, hle⟩ := ha.root.node_le hel her
    rw [hexact] at rebuilt
    have hle' := rebuilt.entries_le
    exact ⟨rebuilt.built.accounted, hle'.2.trans hroot.entries, hle'.1.trans hle⟩

theorem Inserted.accounted (h : Inserted b points index t t') (hexact : b.env.counter = .exact)
    (ha : t.All (Tree.Accounted b.leafBucketSize)) :
    t'.All (Tree.Accounted b.leafBucketSize) ∧ t'.total ≤ t.total + 1 ∧
      t'.entries.length ≤ t.entries.length + 1 := by
  induction h with
  | push id live total offset cap bboxIdx es bbox room =>
    obtain ⟨he, hlive, -⟩ : (Tree.leaf id live total offset cap bboxIdx es bbox).Accounted _ := ha
    rw [hexact]
    simp only [Tree.entries, Tree.total, Tree.live] at he hlive
    refine ⟨⟨?_, ?_, fun hpos => absurd hpos (lt_irrefl 0)⟩, ?_, ?_⟩
    · simp only [Tree.entries, Tree.total, Counter.wrap, List.length_append, List.length_singleton]
      omega
    · simp only [Tree.live, Tree.total, Counter.wrap]
      omega
    · exact le_rfl
    · simp [Tree.entries]
  | split id live total offset cap bboxIdx es bbox t' full rebuilt =>
    have he : (es.length : ℤ) ≤ total := ha.root.entries
    rw [hexact] at rebuilt
    obtain ⟨hle, hle'⟩ := rebuilt.entries_le
    simp only [Tree.entries, List.length_append, List.length_singleton] at hle hle'
    refine ⟨rebuilt.built.accounted, ?_, hle⟩
    simp only [Tree.total] at hle' ⊢
    omega
  | left id live total dim split left right left' side inserted ih =>
    obtain ⟨hleft, -, hlen⟩ := ih ha.2.1
    have hle : left'.entries.length + right.entries.length ≤
        left.entries.length + right.entries.length + 1 := by omega
    obtain ⟨hnode, hlen'⟩ := ha.root.node_succ hle
    rw [hexact]
    exact ⟨⟨hnode, hleft, ha.2.2⟩, le_rfl, hlen'⟩
  | right id live total dim split left right right' side inserted ih =>
    obtain ⟨hright, -, hlen⟩ := ih ha.2.2
    have hle : left.entries.length + right'.entries.length ≤
        left.entries.length + right.entries.length + 1 := by omega
    obtain ⟨hnode, hlen'⟩ := ha.root.node_succ hle
    rw [hexact]
    exact ⟨⟨hnode, ha.2.1, hright⟩, le_rfl, hlen'⟩

/-- The descent of an insertion adds one to the debt of each node on it, and a full bucket has
kept half of what its split reads. -/
theorem Inserted.potential_le (h : Inserted b points index t t') (hexact : b.env.counter = .exact)
    (hs : t.Shape b.leafBucketSize) (ha : t.All (Tree.Accounted b.leafBucketSize)) :
    (t.splitEntries points index : ℤ) + 2 * t'.potential b.leafBucketSize ≤
      2 * (t.potential b.leafBucketSize + (t.height + 1)) := by
  induction h with
  | push id live total offset cap bboxIdx es bbox room =>
    simp only [Tree.splitEntries, room.ne, ↓reduceIte, Tree.potential, Tree.debt, Tree.height,
      List.length_append, List.length_singleton]
    omega
  | split id live total offset cap bboxIdx es bbox t' full rebuilt =>
    obtain ⟨rfl, -⟩ := hs
    rw [hexact] at rebuilt
    rw [rebuilt.built.potential_eq]
    simp only [Tree.splitEntries, full, ↓reduceIte, Tree.potential, Tree.debt, Tree.height]
    omega
  | left id live total dim split left right left' side inserted ih =>
    have hrest := ih hs.1 ha.2.1
    have htotal := (inserted.accounted hexact ha.2.1).2.1
    have hdebt : (Tree.node id (live + 1) (total + 1) dim split left' right).debt b.leafBucketSize ≤
        (Tree.node id live total dim split left right).debt b.leafBucketSize + 1 :=
      Tree.debt_node_succ htotal (by omega)
    simp only [hexact, Counter.wrap, Tree.splitEntries, side, ↓reduceIte, Tree.potential, Tree.height]
    omega
  | right id live total dim split left right right' side inserted ih =>
    have hrest := ih hs.2 ha.2.2
    have htotal := (inserted.accounted hexact ha.2.2).2.1
    have hdebt : (Tree.node id (live + 1) (total + 1) dim split left right').debt b.leafBucketSize ≤
        (Tree.node id live total dim split left right).debt b.leafBucketSize + 1 :=
      Tree.debt_node_succ (by omega) htotal
    simp only [hexact, Counter.wrap, Tree.splitEntries, not_lt.mpr side, ↓reduceIte, Tree.potential,
      Tree.height]
    omega

end
end TreeBuilder
end Copse

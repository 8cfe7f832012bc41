import Copse.MemoryGrowth
import Copse.OccupancyAge

set_option autoImplicit false

namespace Copse
open PointStore TreeBuilder TransitionRuns

namespace Pools
variable {Dim : ℕ} {K : Type*}

/-- Whether trees with `n` leaves in all can be appended and no index wraps. -/
def Allows (B n : ℕ) (p : Pools Dim K) : Prop := ∀ p' : Pools Dim K, GrownBy B n p p' → p'.Fit

section
variable {p p' : Pools Dim K} {B n m : ℕ}

theorem Allows.rest (h : p.Allows B (n + m)) (hg : GrownBy B n p p') : p'.Allows B m :=
  fun p'' hg' => h p'' (hg.trans hg')

theorem Allows.fit (h : p.Allows B n) : p.Fit := h p ((GrownBy.refl B p).mono (Nat.zero_le _))

theorem allows_clear (hB : 0 < B) (hn : 2 * B * n < 2 ^ 32) :
    (Pools.clear : Pools Dim K).Allows B n := by
  intro p' hg
  obtain ⟨hnodes, hboxes, hslots⟩ := hg
  have hle : 2 * n ≤ 2 * B * n := Nat.mul_le_mul_right n (by omega)
  simp only [Pools.clear, List.length_nil, Nat.zero_add] at hnodes hboxes hslots
  exact ⟨by omega, by omega, by omega⟩

end
end Pools

namespace TreeBuilder
variable {Dim : ℕ} [NeZero Dim] {K : Type*} [Field K] [LinearOrder K]

section
variable {b : TreeBuilder K} {points : PointStore Dim K} {index : ℕ} {visit : ℕ → Bool} {c : K}
variable {p : Pools Dim K} {t : Tree Dim K}

omit [NeZero Dim] in
theorem splitEntries_le {B : ℕ} (hs : t.Shape B) (ha : t.All (Tree.Accounted B)) :
    (t.splitEntries points index : ℤ) ≤ 2 * (t.potential B + (t.height + 1)) := by
  induction t with
  | leaf id live total offset cap bboxIdx es bbox =>
    obtain ⟨rfl, hlen⟩ := hs
    simp only [Tree.splitEntries, Tree.potential, Tree.debt, Tree.height]
    split_ifs <;> omega
  | node id live total dim split left right ihl ihr =>
    have hleft := ihl hs.1 ha.2.1
    have hright := ihr hs.2 ha.2.2
    have hl := Tree.potential_nonneg ha.2.1
    have hr := Tree.potential_nonneg ha.2.2
    have hdebt : 0 ≤ (Tree.node id live total dim split left right).debt B := by
      have hlive : live ≤ total := ha.root.live
      simp only [Tree.debt]
      omega
    simp only [Tree.splitEntries, Tree.potential, Tree.height]
    split_ifs <;> omega

variable [IsStrictOrderedRing K]

/-- Whatever `x` pays for at the rate `c` can be appended. -/
def Backed (B : ℕ) (c x : K) (p : Pools Dim K) : Prop := ∀ n : ℕ, c * (n : K) ≤ x → p.Allows B n

section backed
variable {B n : ℕ} {x y : K} {q : Pools Dim K}

omit [NeZero Dim] in
theorem Backed.fit (h : Backed B c x p) (hx : 0 ≤ x) : p.Fit :=
  (h 0 (by simpa using hx)).fit

omit [NeZero Dim] in
theorem Backed.spend (h : Backed B c x p) (hg : Pools.GrownBy B n p q) (hle : c * (n : K) + y ≤ x) :
    Backed B c y q :=
  fun m hm => (h (n + m) (by rw [Nat.cast_add, mul_add]; linarith)).rest hg

theorem Backed.rebuilt (hr : b.Rate c) (hpos : 0 < b.leafBucketSize) (h : t.Rep p)
    (ha : t.All (Tree.Accounted b.leafBucketSize)) (hv : b.violates t = true)
    (room : Backed b.leafBucketSize c (t.potential b.leafBucketSize : K) p) :
    (b.rebuildAt points p t.id).Fit := by
  refine room _ ?_ _ (rebuildAt_grownBy hpos p t.id)
  rw [scanned_eq h]
  exact hr.covers ha hv

omit [NeZero Dim] in
theorem potential_children {id : ℕ} {live total : ℤ} {dim : Fin Dim} {split : K}
    {left right : Tree Dim K}
    (ha : (Tree.node id live total dim split left right).All (Tree.Accounted B)) :
    (left.potential B : K) + (right.potential B : K) ≤
        ((Tree.node id live total dim split left right).potential B : K) ∧
      (0 : K) ≤ (left.potential B : K) ∧ (0 : K) ≤ (right.potential B : K) := by
  have hdebt := ha.root.debt_nonneg
  refine ⟨?_, ?_, ?_⟩
  · rw [Tree.potential]
    exact_mod_cast (by omega)
  · exact_mod_cast Tree.potential_nonneg ha.2.1
  · exact_mod_cast Tree.potential_nonneg ha.2.2

end backed

/-- A sweep stays within what the potential allows to append. -/
theorem sweep_fits (hr : b.Rate c) (hexact : b.env.counter = .exact)
    (hpos : 0 < b.leafBucketSize) (hB : 2 * b.leafBucketSize < 2 ^ 16) (h : t.Rep p)
    (hs : t.Shape b.leafBucketSize) (ha : t.All (Tree.Accounted b.leafBucketSize)) (fuel : ℕ)
    (hfuel : t.height < fuel)
    (room : Backed b.leafBucketSize c (t.potential b.leafBucketSize : K) p) :
    (b.sweep points visit fuel p t.id).Fit := by
  induction fuel generalizing p t with
  | zero => omega
  | succ fuel ih =>
    have hpot : (0 : K) ≤ (t.potential b.leafBucketSize : K) := by
      exact_mod_cast Tree.potential_nonneg ha
    have hvalid := h.id_valid (room.fit hpot)
    have hvio := isViolator_eq b h
    cases t with
    | leaf id live total offset cap bboxIdx es bbox =>
      rw [sweep_leaf_eq fuel hvalid h hs]
      exact room.fit hpot
    | node id live total dim split left right =>
      simp only [Tree.id_node] at hvalid hvio ⊢
      simp only [Tree.height] at hfuel
      rw [sweep_internal fuel hvalid h.node_body, hvio]
      cases before : b.violates (.node id live total dim split left right) with
      | true =>
        rw [if_pos rfl]
        exact room.rebuilt hr hpos h ha before
      | false =>
        rw [if_neg Bool.false_ne_true, sweepAgain]
        have child : ∀ {q : Pools Dim K} {u : Tree Dim K}, u.Rep q → u.Shape b.leafBucketSize →
            u.All (Tree.Accounted b.leafBucketSize) → u.height < fuel →
            Backed b.leafBucketSize c (u.potential b.leafBucketSize : K) q →
            Pools.GrownBy b.leafBucketSize (b.childReads points visit fuel q u.id) q
              (b.sweepChild points visit fuel q u.id) ∧
            ∃ u', SweepPaid b points visit c (visit u.id) (b.childReads points visit fuel q u.id) q u
              (b.sweepChild points visit fuel q u.id) u' := fun hu hsu hau hfu hroom =>
          ⟨sweepChild_grownBy (sweep_grownBy hpos fuel) _ _, sweepChild_paid hu fuel (fun _ =>
            sweep_amortized hr hexact hpos hB hu hsu hau fuel hfu (ih hu hsu hau hfu hroom))⟩
        obtain ⟨hsum, hleft, hright⟩ := potential_children (K := K) ha
        obtain ⟨hgl, left', hl⟩ := child h.left hs.1 ha.2.1 (by omega)
          (room.spend (.refl _ p) (by rw [Nat.cast_zero, mul_zero]; linarith))
        have hleft' : (0 : K) ≤ (left'.potential b.leafBucketSize : K) := by
          exact_mod_cast Tree.potential_nonneg (hl.swept.accounted hexact ha.2.1).1
        obtain ⟨hgr, right', hright'⟩ := child (h.update_left hl.update).rep.right hs.2 ha.2.2
          (by omega) (room.spend hgl (by linarith [hl.paid]))
        -- both children paid for what they appended, so the node still pays for a last rebuild
        obtain ⟨hup, hall, hpaid⟩ := SweepPaid.node hexact h ha hl hright'
        have room' := room.spend (hgl.trans hgr) hpaid
        have hvio' := isViolator_eq b hup.rep
        rw [Tree.id_node] at hvio'
        rw [hvio']
        cases after : b.violates (.node id live total dim split left' right') with
        | true =>
          rw [if_pos rfl]
          exact room'.rebuilt hr hpos hup.rep hall after
        | false => exact room'.fit (by exact_mod_cast Tree.potential_nonneg hall)

end
end TreeBuilder

namespace PointStore
variable {Dim : ℕ} {K : Type*} [Field K] {s : PointStore Dim K} {window free l : List ℕ}

theorem create_unused {c : ℕ} (h : PointStore.create c = .ok s) :
    s.live = 0 ∧ ∀ j, s.stampCount j = 0 := by
  unfold PointStore.create at h
  split at h
  · cases h
  · injection h with h
    rw [← h]
    refine ⟨rfl, fun j => ?_⟩
    rw [stampCount, List.getD_eq_getElem?_getD, List.getElem?_replicate]
    split_ifs <;> rfl

omit [Field K] in
theorem releaseAll_live (h : Ring s window free) (hl : ∀ i ∈ l, s.isLive i = true) (hd : l.Nodup) :
    (s.releaseAll l).live + l.length = s.live := by
  have hlive : ∀ (l : List ℕ) (s : PointStore Dim K), (s.releaseAll l).live = s.live - l.length := by
    intro l
    induction l with
    | nil => exact fun s => rfl
    | cons i l ih =>
      intro s
      have hone : (s.release i).live = s.live - 1 := by
        rw [release]
        split_ifs <;> rfl
      have hrest := ih (s.release i)
      rw [hone] at hrest
      rw [List.length_cons]
      exact hrest.trans (by omega)
  have hle : l.length ≤ window.length :=
    (hd.subperm (fun i hi => (h.isLive_iff i).mp (hl i hi))).length_le
  have hwindow := h.live
  rw [hlive]
  omega

end PointStore

def Op.arrivals {Dim : ℕ} {K : Type*} : Op Dim K → ℕ
  | .insert batch => batch.length
  | _ => 0

namespace KDTreeImpl
variable {Dim : ℕ} [NeZero Dim] {K : Type*} [Field K] [LinearOrder K]

section
variable {env : Env K} {cfg : Config K} {s : KDTreeImpl Dim K} {o : Option (Tree Dim K)} {c : K}
variable {H N x : ℕ} {a : Action Dim K}

/-- Each point that an action brings may be handled twice: as it comes and as it goes. -/
theorem act_size (hs : Sound s o) (ready : s.Ready a) (hn : (s.act env a).NoWrap) :
    (s.act env a).size + s.handled env a ≤ s.size + 2 * a.arrivals ∧
      (s.act env a).size ≤ s.size + a.arrivals := by
  obtain ⟨window, free, hring⟩ := hs.ring
  cases a with
  | insertPoint x =>
    cases hx : s.accepts x with
    | false =>
      rw [act_rejected env hx, handled, hx, if_neg Bool.false_ne_true]
      exact ⟨Nat.le_add_right _ _, Nat.le_add_right _ _⟩
    | true =>
      rw [size, act_accepted env hx, PointStore.size, acquire_live, handled, if_pos hx,
        Action.arrivals, size, PointStore.size]
      split_ifs <;> omega
  | removeIndex i =>
    have hone : ∀ j ∈ [i], s.points.isLive j = true := List.forall_mem_singleton.mpr ready
    have hlive := releaseAll_live hring hone (List.nodup_singleton i)
    exact ⟨hlive.le, (Nat.le_add_right _ _).trans hlive.le⟩
  | deleteRegion rg =>
    cases o with
    | none =>
      rw [act, handled, deleteRegion_vacant env.counter rg hs.reads]
      exact ⟨le_rfl, le_rfl⟩
    | some t =>
      have holds : Holds s t := hs.reads
      obtain ⟨-, -, -, hpoints, hcount⟩ := deleteRegion_holds env.counter rg hs hn
      have hhit : ∀ i ∈ s.hitSlots rg t, s.points.isLive i = true :=
        fun i hi => (holds.complete i).mpr (mem_hitSlots.mp hi).1
      have hlive := releaseAll_live hring hhit (hitSlots_nodup rg holds)
      rw [act, handled, hcount, size, hpoints]
      exact ⟨hlive.le, (Nat.le_add_right _ _).trans hlive.le⟩
  | sweepFull =>
    rw [act, size, sweepFull_points]
    exact ⟨le_rfl, le_rfl⟩
  | sweep =>
    rw [act, size, sweep_points]
    exact ⟨le_rfl, le_rfl⟩
  | rebuildAll =>
    rw [act, size, rebuildAll_points]
    exact ⟨le_rfl, le_rfl⟩

theorem act_stampCount (h : ∃ window free, Ring s.points window free) (j : ℕ) :
    (s.act env a).points.stampCount j ≤ s.points.stampCount j + 2 * a.arrivals := by
  obtain ⟨window, free, hring⟩ := h
  cases a with
  | insertPoint x =>
    cases hx : s.accepts x with
    | false =>
      rw [act_rejected env hx]
      exact Nat.le_add_right _ _
    | true =>
      rw [act_accepted env hx, acquire_stampCount x hring, Action.arrivals]
      split_ifs <;> omega
  | removeIndex i => exact (release_stampCount _ _ _).le
  | deleteRegion rg =>
    rw [act, deleteRegion]
    split_ifs
    · exact le_rfl
    · obtain ⟨l, hl⟩ := (deleteRecurse_after env.counter rg s.pools.nodes.length s.pools s.points
        s.root s.rootBBox s.modifiedNodes).points
      dsimp only
      rw [hl, releaseAll_stampCount]
      exact le_rfl
  | sweepFull =>
    rw [act, sweepFull_points]
    exact le_rfl
  | sweep =>
    rw [act, sweep_points]
    exact le_rfl
  | rebuildAll =>
    rw [act, rebuildAll_points]
    exact le_rfl

variable [IsStrictOrderedRing K]

theorem insertPoint_reads_le (hc : 2 * c ≤ 1) (h : Audited cfg s o) (x : Point Dim K)
    (hH : s.DepthWithin H) : c * (s.rebuildReads env (.insertPoint x) : K) ≤
      ((H : K) + 1) + potentialOf cfg.leafBucketSize o := by
  obtain rfl : s.cfg = cfg := h.config
  have hpot := h.potential_nonneg
  have hlevels : (0 : K) ≤ (H : K) + 1 := by positivity
  rw [rebuildReads, partialRebuilds]
  split_ifs with hx
  · cases o with
    | none => exact absurd h.sound.reads.root hx.2
    | some t =>
      have holds : Holds s t := h.sound.reads
      have hread : (((s.builder env).insertRebuilds (s.points.acquire x).1 (s.points.acquire x).2
          s.pools.nodes.length s.pools t.id).map scanned).sum = _ :=
        insertRebuilds_scanned holds.rep holds.shape h.sound.small h.sound.noWrap.pools _
          holds.height_lt
      have hle : (t.splitEntries (s.points.acquire x).1 (s.points.acquire x).2 : K) ≤
          2 * ((t.potential s.cfg.leafBucketSize : K) + ((t.height : K) + 1)) := by
        exact_mod_cast splitEntries_le holds.shape h.accounted
      have hheight : (t.height : K) ≤ H := by exact_mod_cast holds.height_le hH
      rw [← holds.root, hread]
      simp only [potentialOf] at hpot ⊢
      nlinarith
  · simp only [List.map_nil, List.sum_nil, Nat.cast_zero, mul_zero]
    linarith

theorem act_fits (hexact : env.counter = .exact) (hr : (s.builder env).Rate c) (hc : 2 * c ≤ 1)
    (h : Audited cfg s o) (hH : s.DepthWithin H)
    (room : ∀ n : ℕ, c * n ≤ ((H : K) + 1 + c) * (a.arrivals : K) +
      potentialOf cfg.leafBucketSize o → s.pools.Allows cfg.leafBucketSize n)
    (hclear : (Pools.clear : Pools Dim K).Allows cfg.leafBucketSize s.size) :
    (s.act env a).pools.Fit := by
  obtain rfl : s.cfg = cfg := h.config
  have hpos := h.sound.pos
  have hpot := h.potential_nonneg
  have kept : ∀ p, Pools.GrownBy s.cfg.leafBucketSize 0 s.pools p → p.Fit := by
    intro p hp
    refine room 0 ?_ p hp
    have hlevels : (0 : K) ≤ ((H : K) + 1 + c) * (a.arrivals : K) :=
      mul_nonneg (by linarith [hr.nonneg, (Nat.cast_nonneg H : (0 : K) ≤ H)]) (Nat.cast_nonneg _)
    rw [Nat.cast_zero, mul_zero]
    linarith
  have swept : ∀ visit, s.root ≠ invalid →
      ((s.builder env).sweep s.points visit s.pools.nodes.length s.pools s.root).Fit := by
    intro visit hroot
    cases o with
    | none => exact absurd h.sound.reads.root hroot
    | some t =>
      have holds : Holds s t := h.sound.reads
      rw [← holds.root]
      refine sweep_fits hr hexact hpos h.sound.small holds.rep holds.shape h.accounted _
        holds.height_lt (fun n hn => room n (hn.trans ?_))
      exact le_add_of_nonneg_left (mul_nonneg
        (by linarith [hr.nonneg, (Nat.cast_nonneg H : (0 : K) ≤ H)]) (Nat.cast_nonneg _))
  cases a with
  | insertPoint x =>
    have hreads : c * (s.rebuildReads env (.insertPoint x) : K) ≤ _ :=
      insertPoint_reads_le hc h x hH
    refine room _ ?_ _ (act_grownBy hpos (fun heq => by cases heq))
    simp only [Action.arrivals, Nat.cast_add, Nat.cast_one]
    linarith
  | removeIndex i => exact kept _ (tombstoneIndex_grownBy _ _ _ _ _ _)
  | deleteRegion rg =>
    rw [act, deleteRegion]
    split_ifs
    · exact kept _ (.refl _ _)
    · exact kept _ (deleteRecurse_grownBy _ rg _ _ _ _ _ _)
  | sweepFull =>
    rw [act, sweepFull_pools]
    split_ifs with hroot
    · exact kept _ (.refl _ _)
    · exact swept _ hroot
  | sweep =>
    rw [act, sweep_pools]
    split_ifs with hvacant
    · exact kept _ (.refl _ _)
    · exact swept _ (not_or.mp hvacant).1
  | rebuildAll => exact hclear _ (rebuildAll_grownBy hpos)

end

/-- The account of a run that may bring `N` points in all: its pools come from `n` leaves, it has
brought `i` points and `x` more may come. -/
structure Solvent (cfg : Config K) (c : K) (H N n i x : ℕ) (s : KDTreeImpl Dim K)
    (o : Option (Tree Dim K)) : Prop where
  audited : Audited cfg s o
  grown : Pools.GrownBy cfg.leafBucketSize n Pools.clear s.pools
  paid : c * (n : K) + potentialOf cfg.leafBucketSize o + ((H : K) + 1) * (s.size : K) ≤
    (2 * ((H : K) + 1) + c) * (i : K)
  stamps : ∀ j, s.points.stampCount j ≤ 2 * i
  size : s.size ≤ i
  left : i + x ≤ N

/-- Whether a run that may bring `x` more points can pay for them. -/
def CanPay (cfg : Config K) (c : K) (H N x : ℕ) (s : KDTreeImpl Dim K) : Prop :=
  ∃ o n i, Solvent cfg c H N n i x s o

section
variable {env : Env K} {cfg : Config K} {s : KDTreeImpl Dim K} {o : Option (Tree Dim K)} {c : K}
variable {H N n i x : ℕ} {a : Action Dim K} [IsStrictOrderedRing K]

theorem Solvent.spends (hexact : env.counter = .exact)
    (hr : TreeBuilder.Rate ⟨env, cfg.leafBucketSize, cfg.alpha, cfg.tombstoneThreshold⟩ c)
    (hc : 2 * c ≤ 1) (hN : 2 * N < 2 ^ 32)
    (hroom : ∀ n : ℕ, c * n ≤ (2 * ((H : K) + 1) + c) * (N : K) →
      (Pools.clear : Pools Dim K).Allows cfg.leafBucketSize n)
    (h : Solvent cfg c H N n i (a.arrivals + x) s o) (ready : s.Ready a) (hH : s.DepthWithin H) :
    (s.act env a).NoWrap ∧ ∃ o' n', Solvent cfg c H N n' (i + a.arrivals) x (s.act env a) o' := by
  obtain rfl : s.cfg = cfg := h.audited.config
  have hlevels : (0 : K) ≤ (H : K) + 1 := by positivity
  have hrate : (0 : K) ≤ 2 * ((H : K) + 1) + c := by linarith [hr.nonneg]
  have hsize : (s.size : K) ≤ (i : K) := by exact_mod_cast h.size
  have hsize0 : (0 : K) ≤ (s.size : K) := Nat.cast_nonneg _
  have hleft : ((i : K) + (a.arrivals : K)) ≤ (N : K) := by
    have hle : i + a.arrivals ≤ N := by
      have := h.left
      omega
    exact_mod_cast hle
  have harrivals : (0 : K) ≤ (a.arrivals : K) := Nat.cast_nonneg _
  have hpot := h.audited.potential_nonneg
  have htotal : (2 * ((H : K) + 1) + c) * ((i : K) + (a.arrivals : K)) ≤
      (2 * ((H : K) + 1) + c) * (N : K) := mul_le_mul_of_nonneg_left hleft hrate
  have hpaid := h.paid
  have hstamps : ∀ j, (s.act env a).points.stampCount j ≤ 2 * (i + a.arrivals) := by
    intro j
    have hstamp : (s.act env a).points.stampCount j ≤ _ := act_stampCount h.audited.sound.ring j
    have hj := h.stamps j
    omega
  have hn : (s.act env a).NoWrap := by
    refine ⟨?_, fun j => ?_, ?_⟩
    · rw [(act_cfg env a).2]
      exact h.audited.sound.noWrap.capacity
    · have hstamp := hstamps j
      have hle := h.left
      omega
    · refine act_fits hexact hr hc h.audited hH (fun m hm => (hroom (n + m) ?_).rest h.grown)
        (hroom s.size ?_)
      · rw [Nat.cast_add, mul_add]
        nlinarith
      · nlinarith [hr.nonneg]
  refine ⟨hn, ?_⟩
  obtain ⟨hheld, hgrown⟩ := act_size h.audited.sound ready hn
  have hsize' := h.size
  by_cases ha : a = .rebuildAll
  · subst ha
    obtain ⟨o', ho', hzero⟩ := rebuildAll_audited hexact h.audited hn
    have hsame : (s.act env .rebuildAll).size = s.size := by
      rw [act, KDTreeImpl.size, rebuildAll_points, KDTreeImpl.size]
    refine ⟨o', s.size, ho', rebuildAll_grownBy h.audited.sound.pos, ?_, hstamps, ?_, ?_⟩
    · have hcost := mul_le_mul_of_nonneg_left hsize (add_nonneg hr.nonneg hlevels)
      have hrest := mul_nonneg hlevels ((Nat.cast_nonneg i : (0 : K) ≤ (i : K)))
      rw [hzero, hsame, show Action.rebuildAll.arrivals = 0 from rfl, Nat.add_zero]
      linarith
    · exact hgrown.trans (Nat.add_le_add_right hsize' _)
    · have hle := h.left
      omega
  · obtain ⟨o', ho', hpay⟩ := act_paid hexact hr hc h.audited ready hn hH
    have hheld' : ((s.act env a).size : K) + (s.handled env a : K) ≤
        (s.size : K) + 2 * (a.arrivals : K) := by exact_mod_cast hheld
    have hcost := mul_le_mul_of_nonneg_left hheld' hlevels
    refine ⟨o', n + (s.rebuildReads env a + a.arrivals), ho',
      h.grown.trans (act_grownBy h.audited.sound.pos ha), ?_, hstamps, ?_, ?_⟩
    · push_cast
      linarith
    · exact hgrown.trans (Nat.add_le_add_right hsize' _)
    · have hle := h.left
      omega

omit [IsStrictOrderedRing K] in
theorem removeIndex_noWrap (h : s.NoWrap) (i : ℕ) : (s.removeIndex env i).NoWrap := by
  have hgrown : Pools.GrownBy 0 0 s.pools (s.removeIndex env i).pools :=
    tombstoneIndex_grownBy _ _ _ _ _ _
  obtain ⟨hnodes, hboxes, hslots⟩ := hgrown
  obtain ⟨hnodes', hslots', hboxes'⟩ := h.pools
  refine ⟨?_, fun j => ?_, ⟨by omega, by omega, by omega⟩⟩
  · rw [show s.removeIndex env i = s.act env (.removeIndex i) from rfl, (act_cfg env _).2]
    exact h.capacity
  · exact (release_stampCount _ i j).trans_lt (h.stamps j)

omit [IsStrictOrderedRing K] in
theorem removeSteps_noWrap (queries : List (Point Dim K)) (h : s.NoWrap) :
    ∀ m ∈ removeSteps env s queries, (m.1.act env m.2).NoWrap := by
  have kept : ∀ m ∈ removeSteps env s queries, m.1.NoWrap → (m.1.act env m.2).NoWrap := by
    intro m hm hn
    obtain ⟨i, hi⟩ := mem_removeSteps hm
    rw [hi]
    exact removeIndex_noWrap hn i
  exact fun m hm => kept m hm (((removeSteps_chain queries).invariant kept h).1 m hm)

theorem steps_prepared (op : Op Dim K) (hs : Sound s o) : ∀ m ∈ s.steps env op, m.1.Ready m.2 := by
  intro m hm
  cases ha : m.2 with
  | removeIndex i =>
    have htakes := steps_takes hm
    rw [ha] at htakes
    cases op with
    | remove queries =>
      rcases List.mem_append.mp hm with hloop | hclose
      · have hready := removeSteps_ready queries ⟨o, hs⟩ (removeSteps_noWrap queries hs.noWrap) m hloop
        rwa [ha] at hready
      · rw [mem_closing hclose] at ha
        cases ha
    | _ => simp [Op.Takes] at htakes
  | _ => trivial

theorem steps_arrivals (op : Op Dim K) :
    ((s.steps env op).map (fun m => m.2.arrivals)).sum = op.arrivals := by
  cases op with
  | insert batch =>
    have hclosing : ((closing (insertLoop env s batch) .sweepFull).map
        (fun m => m.2.arrivals)).sum = 0 := by
      rw [closing]
      split_ifs <;> rfl
    rw [steps, List.map_append, List.sum_append, map_stepsOf, hclosing, List.map_map]
    simp [Function.comp_def, Action.arrivals, Op.arrivals]
  | _ =>
    refine List.sum_eq_zero (fun k hk => ?_)
    obtain ⟨m, hm, rfl⟩ := List.mem_map.mp hk
    have htakes := steps_takes hm
    cases ha : m.2 with
    | insertPoint x =>
      rw [ha] at htakes
      simp [Op.Takes] at htakes
    | _ => rfl

omit [NeZero Dim] in
theorem Fresh.solvent (h : Fresh cfg s) (hB : 2 * cfg.leafBucketSize ≤ 65535)
    (hcap : cfg.capacity < 2 ^ 32) (N : ℕ) : Solvent cfg c H N 0 0 N s none := by
  obtain ⟨hlive, hstamps⟩ := create_unused h.points
  have hn : s.NoWrap := by
    refine ⟨(create_capacity h.points).trans_lt hcap, fun j => ?_, ?_⟩
    · rw [hstamps]
      exact Nat.two_pow_pos 32
    · rw [h.pools]
      exact ⟨Nat.two_pow_pos 32, Nat.two_pow_pos 32, Nat.two_pow_pos 32⟩
  refine ⟨⟨h.sound hB hn, h.config, trivial⟩, ?_, ?_, fun j => (hstamps j).le, hlive.le,
    (Nat.zero_add N).le⟩
  · rw [h.pools]
    exact .refl _ _
  · rw [size, PointStore.size, hlive, potentialOf]
    simp

theorem slots_lt {slots n limit : ℕ} {M : K} (hc : 0 ≤ c)
    (hM : (slots : K) * M < c * (limit : K)) (hn : c * (n : K) ≤ M) : slots * n < limit := by
  by_contra hlarge
  have hlarge' : (limit : K) ≤ (slots : K) * (n : K) := by exact_mod_cast not_lt.mp hlarge
  have hover := mul_le_mul_of_nonneg_left hlarge' hc
  have hcost := mul_le_mul_of_nonneg_left hn (Nat.cast_nonneg slots : (0 : K) ≤ _)
  rw [mul_left_comm] at hover
  exact absurd (hM.trans_le (hover.trans hcost)) (lt_irrefl _)

omit [NeZero Dim]

theorem few_fit (hr : TreeBuilder.Rate ⟨env, cfg.leafBucketSize, cfg.alpha, cfg.tombstoneThreshold⟩ c)
    (hpos : 0 < cfg.leafBucketSize)
    (hfew : ((2 * cfg.leafBucketSize : ℕ) : K) * ((2 * ((H : K) + 1) + c) * (N : K)) <
      c * ((2 ^ 32 : ℕ) : K)) :
    2 * N < 2 ^ 32 ∧ ∀ n : ℕ, c * n ≤ (2 * ((H : K) + 1) + c) * (N : K) →
      (Pools.clear : Pools Dim K).Allows cfg.leafBucketSize n := by
  refine ⟨?_, fun n hn => Pools.allows_clear hpos (slots_lt hr.nonneg hfew hn)⟩
  have hmul : N ≤ cfg.leafBucketSize * N := Nat.le_mul_of_pos_left _ hpos
  have hlt : 2 * cfg.leafBucketSize * N < 2 ^ 32 := by
    refine slots_lt hr.nonneg hfew ?_
    have hcost : (0 : K) ≤ (2 * ((H : K) + 1)) * (N : K) := by positivity
    linarith
  rw [Nat.mul_assoc] at hlt
  omega

theorem Solvent.pools (h : Solvent cfg c H N n i x s o) (hc : 0 ≤ c) :
    s.pools.nodes.length ≤ 2 * n ∧ s.pools.leafBBoxes.length ≤ n ∧
      s.pools.leafBuckets.data.length ≤ 2 * cfg.leafBucketSize * n ∧
      c * (n : K) ≤ (2 * ((H : K) + 1) + c) * (N : K) := by
  obtain ⟨hnodes, hboxes, hdata⟩ := h.grown
  have hleft : (i : K) ≤ (N : K) := by
    have hle := h.left
    exact_mod_cast (by omega : i ≤ N)
  have hpaid := h.paid
  have hpot := h.audited.potential_nonneg
  have hH0 : (0 : K) ≤ (H : K) := Nat.cast_nonneg H
  have hmul := mul_le_mul_of_nonneg_left hleft (show 0 ≤ 2 * ((H : K) + 1) + c by linarith)
  have hsize : (0 : K) ≤ ((H : K) + 1) * (s.size : K) := by positivity
  simp only [Pools.clear, List.length_nil, Nat.zero_add] at hnodes hboxes hdata
  refine ⟨hnodes, hboxes, hdata, ?_⟩
  linarith

end
end KDTreeImpl
end Copse

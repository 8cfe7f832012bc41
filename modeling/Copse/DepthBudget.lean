import Copse.PoolBudget
import Copse.DepthBounds

set_option autoImplicit false

namespace Copse
open PointStore TreeBuilder TransitionRuns

namespace Tree
variable {Dim : ℕ} {K : Type*} [Field K] [LinearOrder K]

/-- The count of an internal node grows with its height like the powers of `r`, up to `k` levels
too many. -/
def Weighted (r : K) (k : ℕ) : Tree Dim K → Prop
  | leaf .. => True
  | node _ _ total _ _ left right => r ^ max left.height right.height ≤ r ^ k * (total : K)

section
variable {r : K} {k m B : ℕ} {t t' : Tree Dim K}

theorem weighted_dropLive : t.dropLive.All (Weighted r k) ↔ t.All (Weighted r k) := by
  induction t with
  | leaf => exact Iff.rfl
  | node id live total dim split left right ihl ihr =>
    refine and_congr ?_ (and_congr ihl ihr)
    simp only [Weighted, height_dropLive]

theorem weighted_of_dropLive (h : t'.dropLive = t.dropLive) (hw : t.All (Weighted r k)) :
    t'.All (Weighted r k) := weighted_dropLive.mp (h ▸ weighted_dropLive.mpr hw)

omit [Field K] [LinearOrder K] in
theorem Accounted.populated (h : t.All (Accounted B)) : t.All Populated := by
  refine h.imp (fun d u _ hu => ?_)
  cases u with
  | leaf => trivial
  | node =>
    have hlarge := hu.large (Nat.succ_pos _)
    simp only [Populated, Tree.total] at hlarge ⊢
    omega

variable [IsStrictOrderedRing K]

theorem Weighted.total_pos {id : ℕ} {live total : ℤ} {dim : Fin Dim} {split : K}
    {left right : Tree Dim K} (hr : 0 < r)
    (h : (node id live total dim split left right).Weighted r k) : 0 < total := by
  have hpos : (0 : K) < r ^ k * (total : K) := (pow_pos hr _).trans_le h
  exact_mod_cast pos_of_mul_pos_right hpos (pow_nonneg hr.le k)

theorem Weighted.mono (hr : 1 ≤ r) (hkm : k ≤ m) (h : t.Weighted r k) : t.Weighted r m := by
  cases t with
  | leaf => trivial
  | node id live total dim split left right =>
    have htotal : (0 : K) ≤ (total : K) := by
      exact_mod_cast (h.total_pos (zero_lt_one.trans_le hr)).le
    exact le_trans (α := K) h (mul_le_mul_of_nonneg_right (pow_le_pow_right₀ hr hkm) htotal)

omit [Field K] [LinearOrder K] [IsStrictOrderedRing K] in
theorem Sub.depth_le {d : ℕ} (h : t.Sub d t') : d ≤ t.height := by
  induction h with
  | refl t => exact Nat.zero_le _
  | left id live total dim split _ ih =>
    simp only [height]
    omega
  | right id live total dim split _ ih =>
    simp only [height]
    omega

theorem All.pow_depth_le (hr : 1 ≤ r) (h : t.All (Weighted r k)) {d : ℕ} (hs : t.Sub (d + 1) t') :
    r ^ d ≤ r ^ k * (t.total : K) := by
  have hdepth := hs.depth_le
  cases t with
  | leaf =>
    rw [height] at hdepth
    omega
  | node id live total dim split left right =>
    have hroot : r ^ max left.height right.height ≤ r ^ k * (total : K) := h.root
    exact (pow_le_pow_right₀ hr (Nat.le_of_succ_le_succ hdepth)).trans hroot

end
end Tree

namespace TreeBuilder
variable {Dim : ℕ} [NeZero Dim] {K : Type*} [Field K] [LinearOrder K] [IsStrictOrderedRing K]

section
variable {B k : ℕ} {b : TreeBuilder K} {points : PointStore Dim K} {index d : ℕ} {r : K}
variable {t t' u : Tree Dim K} {indices : List ℕ}

section
omit [NeZero Dim]

omit [IsStrictOrderedRing K] in
theorem Built.height_le_one {c : Counter} (h : Built c points B indices t)
    (hlen : indices.length ≤ 2 * B) : t.height ≤ 1 := by
  have flat : ∀ {l : List ℕ} {u : Tree Dim K}, Built c points B l u → l.length ≤ B →
      u.height = 0 := by
    intro l u hu hl
    cases hu with
    | leaf => rfl
    | node _ _ _ _ _ _ _ _ large => omega
  cases h with
  | leaf => exact Nat.zero_le 1
  | node id dim split _ lo hi left right large perm half _ _ _ hl hr =>
    have hsum := perm.length_eq
    rw [List.length_append] at hsum
    rw [Tree.height, flat hl (by omega), flat hr (by omega)]
    exact le_rfl

theorem Built.weighted (hpos : 0 < B) (hr : 1 < r) (hr2 : r ≤ 2)
    (h : Built .exact points B indices t) : t.All (Tree.Weighted r k) := by
  refine h.all (fun l u hu _ _ => ?_)
  cases u with
  | leaf => trivial
  | node id live total dim split left right =>
    obtain ⟨v, hv⟩ := (Tree.node id live total dim split left right).exists_sub_height
    have hlt := hu.pow_depth_lt hpos hv
    have htotal : total = l.length := hu.exact_total
    have hcount : r ^ max left.height right.height ≤ (total : K) := by
      calc r ^ max left.height right.height ≤ 2 ^ max left.height right.height :=
            pow_le_pow_left₀ (zero_le_one.trans hr.le) hr2 _
        _ ≤ (l.length : K) := by exact_mod_cast hlt.le
        _ = (total : K) := by rw [htotal, Int.cast_natCast]
    have hzero : Tree.Weighted r 0 (.node id live total dim split left right) := by
      rw [Tree.Weighted, pow_zero, one_mul]
      exact hcount
    exact hzero.mono hr.le (Nat.zero_le k)

omit [IsStrictOrderedRing K] in
theorem Inserted.height_le (h : Inserted b points index t t') (hs : t.Shape b.leafBucketSize) :
    t'.height ≤ t.height + 1 := by
  induction h with
  | push => exact Nat.zero_le 1
  | split id live total offset cap bboxIdx es bbox t' full rebuilt =>
    obtain ⟨rfl, -⟩ := hs
    refine rebuilt.built.height_le_one ?_
    rw [Tree.validIn_length]
    refine List.countP_le_length.trans ?_
    rw [Tree.entries, List.length_append, List.length_singleton]
    omega
  | left id live total dim split left right left' side inserted ih =>
    have hleft := ih hs.1
    simp only [Tree.height]
    omega
  | right id live total dim split left right right' side inserted ih =>
    have hright := ih hs.2
    simp only [Tree.height]
    omega

theorem Inserted.weighted (h : Inserted b points index t t') (hexact : b.env.counter = .exact)
    (hpos : 0 < b.leafBucketSize) (hs : t.Shape b.leafBucketSize) (hr : 1 < r) (hr2 : r ≤ 2)
    (hw : t.All (Tree.Weighted r k)) : t'.All (Tree.Weighted r (k + 1)) := by
  have relax : ∀ {u : Tree Dim K}, u.All (Tree.Weighted r k) → u.All (Tree.Weighted r (k + 1)) :=
    fun hu => hu.imp (fun _ _ _ hv => hv.mono hr.le (Nat.le_succ k))
  have deepen : ∀ {h h' : ℕ} {total : ℤ}, h' ≤ h + 1 → r ^ h ≤ r ^ k * (total : K) →
      r ^ h' ≤ r ^ (k + 1) * ((total + 1 : ℤ) : K) := by
    intro h h' total hle hroot
    have hr0 : (0 : K) ≤ r := zero_le_one.trans hr.le
    calc r ^ h' ≤ r ^ (h + 1) := pow_le_pow_right₀ hr.le hle
      _ = r ^ h * r := pow_succ r h
      _ ≤ r ^ k * (total : K) * r := mul_le_mul_of_nonneg_right hroot hr0
      _ = r ^ (k + 1) * (total : K) := by ring
      _ ≤ r ^ (k + 1) * ((total + 1 : ℤ) : K) := by
        gcongr
        exact le_add_of_nonneg_right zero_le_one
  induction h with
  | push => trivial
  | split id live total offset cap bboxIdx es bbox t' full rebuilt =>
    have built := rebuilt.built
    rw [hexact] at built
    exact built.weighted hpos hr hr2
  | left id live total dim split left right left' side inserted ih =>
    have hheight := inserted.height_le hs.1
    refine ⟨?_, ih hs.1 hw.2.1, relax hw.2.2⟩
    rw [hexact]
    exact deepen (by omega) hw.root
  | right id live total dim split left right right' side inserted ih =>
    have hheight := inserted.height_le hs.2
    refine ⟨?_, relax hw.2.1, ih hs.2 hw.2.2⟩
    rw [hexact]
    exact deepen (by omega) hw.root

end

theorem ratio_bounds {α : K} (halpha : 1 / 2 < α ∧ α < 1) : 0 < α ∧ 1 < 1 / α ∧ 1 / α ≤ 2 := by
  have hapos : 0 < α := half_pos one_pos |>.trans halpha.1
  rw [lt_div_iff₀ hapos, div_le_iff₀ hapos]
  exact ⟨hapos, by linarith [halpha.2], by linarith [halpha.1]⟩

omit [NeZero Dim] in
theorem Swept.weighted {visit : ℕ → Bool} {called : Bool} (h : Swept b points visit called t t')
    (hexact : b.env.counter = .exact) (hpos : 0 < b.leafBucketSize)
    (halpha : 1 / 2 < b.alpha ∧ b.alpha < 1) (hp : t.All Tree.Populated)
    (hw : (called = true ∧ ∀ i, visit i = true) ∨ t.All (Tree.Weighted (1 / b.alpha) 0)) :
    t'.All (Tree.Weighted (1 / b.alpha) 0) := by
  obtain ⟨hapos, hr, hr2⟩ := ratio_bounds halpha
  induction h with
  | skip t => exact hw.resolve_left (fun hall => by cases hall.1)
  | leaf => trivial
  | rebuild t t' _ rebuilt => exact (hexact ▸ rebuilt.built).weighted hpos hr hr2
  | again id live total dim split left right left' right' t' _ _ _ _ rebuilt _ _ =>
    exact (hexact ▸ rebuilt.built).weighted hpos hr hr2
  | keep id live total dim split left right left' right' _ _ _ after ihl ihr =>
    have hpop : 1 ≤ total := hp.root
    obtain ⟨hlw, hrw⟩ := total_le_of_kept hpop after
    have hleft := ihl hp.2.1 (hw.imp (fun hall => ⟨hall.2 _, hall.2⟩) (fun hw => hw.2.1))
    have hright := ihr hp.2.2 (hw.imp (fun hall => ⟨hall.2 _, hall.2⟩) (fun hw => hw.2.2))
    have child : ∀ {v : Tree Dim K}, (v.total : K) ≤ b.alpha * total →
        v.All (Tree.Weighted (1 / b.alpha) 0) → (1 / b.alpha) ^ v.height ≤ (total : K) := by
      intro v hv hvw
      cases v with
      | leaf =>
        rw [Tree.height, pow_zero]
        exact_mod_cast hpop
      | node id live total' dim split left right =>
        have hroot : (1 / b.alpha) ^ max left.height right.height ≤
            (1 / b.alpha) ^ 0 * (total' : K) := hvw.root
        rw [pow_zero, one_mul] at hroot
        rw [Tree.height, pow_succ, mul_one_div, div_le_iff₀ hapos, mul_comm (total : K)]
        exact hroot.trans hv
    refine ⟨?_, hleft, hright⟩
    rw [Tree.Weighted, pow_zero, one_mul]
    rcases le_total left'.height right'.height with hle | hle
    · rw [max_eq_right hle]
      exact child hrw hright
    · rw [max_eq_left hle]
      exact child hlw hleft

end
end TreeBuilder

namespace KDTreeImpl
variable {Dim : ℕ} [NeZero Dim] {K : Type*} [Field K] [LinearOrder K]

/-- What a tree that took in `i` points may count and how deep it may be: `k` levels too many. -/
def Settled (cfg : Config K) (k i : ℕ) : Option (Tree Dim K) → Prop :=
  Tree.IfAny (fun t => t.All (Tree.Accounted cfg.leafBucketSize) ∧
    t.All (Tree.Weighted (1 / cfg.alpha) k) ∧ t.total ≤ i)

section
variable {env : Env K} {cfg : Config K} {s : KDTreeImpl Dim K} {o o' : Option (Tree Dim K)}
variable {k m i H : ℕ} {a : Action Dim K} [IsStrictOrderedRing K]

section
omit [NeZero Dim]

theorem Settled.mono {j : ℕ} (accepted : Accepted cfg) (h : Settled cfg k i o) (hkm : k ≤ m)
    (hij : i ≤ j) : Settled cfg m j o := by
  cases o with
  | none => trivial
  | some t =>
    obtain ⟨ha, hw, htotal⟩ : _ ∧ _ ∧ t.total ≤ (i : ℤ) := h
    obtain ⟨-, hr, -⟩ := ratio_bounds accepted.alpha
    refine ⟨ha, hw.imp (fun _ _ _ hu => hu.mono hr.le hkm), htotal.trans ?_⟩
    exact_mod_cast hij

theorem Settled.pow_depth_le (accepted : Accepted cfg) (hs : Sound s o) (h : Settled cfg k i o)
    {d j : ℕ} (hj : s.pools.Below s.root (d + 1) j) :
    (1 / cfg.alpha) ^ d ≤ (1 / cfg.alpha) ^ k * (i : K) := by
  obtain ⟨-, hr, -⟩ := ratio_bounds accepted.alpha
  cases o with
  | none =>
    rw [hs.reads.root] at hj
    cases (Pools.below_invalid hs.noWrap.pools hj).1
  | some t =>
    have holds : Holds s t := hs.reads
    obtain ⟨-, hw, htotal⟩ : _ ∧ t.All (Tree.Weighted (1 / cfg.alpha) k) ∧ t.total ≤ (i : ℤ) := h
    rw [← holds.root] at hj
    obtain ⟨u, hu, -⟩ := holds.rep.below_iff.mp hj
    have htotal' : (t.total : K) ≤ (i : K) := by exact_mod_cast htotal
    exact (hw.pow_depth_le hr.le hu).trans
      (mul_le_mul_of_nonneg_left htotal' (pow_nonneg (zero_le_one.trans hr.le) k))

theorem Settled.depthWithin (accepted : Accepted cfg) (hs : Sound s o) (h : Settled cfg k i o)
    (hH : (1 / cfg.alpha) ^ k * (i : K) < (1 / cfg.alpha) ^ H) : s.DepthWithin H := by
  obtain ⟨-, hr, -⟩ := ratio_bounds accepted.alpha
  intro d j hj
  cases d with
  | zero => exact Nat.zero_le H
  | succ d => exact (pow_lt_pow_iff_right₀ hr).mp ((h.pow_depth_le accepted hs hj).trans_lt hH)

theorem settled_of_swept {points : PointStore Dim K} {visit : ℕ → Bool} {called : Bool}
    {t t' : Tree Dim K} (hexact : env.counter = .exact) (accepted : Accepted cfg)
    (hcfg : s.cfg = cfg) (swept : Swept (s.builder env) points visit called t t') (hk : (called = true ∧ ∀ j, visit j = true) ∨ k = 0) (h : Settled cfg k i (some t)) :
    Settled cfg 0 i (some t') := by
  subst hcfg
  obtain ⟨ha, hw, htotal⟩ : _ ∧ _ ∧ t.total ≤ (i : ℤ) := h
  obtain ⟨ha', htotal', -⟩ := swept.accounted hexact ha
  refine ⟨ha', ?_, htotal'.trans htotal⟩
  refine swept.weighted hexact accepted.leafBucketSize accepted.alpha (Tree.Accounted.populated ha)
    (hk.imp_right (fun hzero => ?_))
  rwa [hzero] at hw

end

theorem act_settled (hexact : env.counter = .exact) (accepted : Accepted cfg) (hcfg : s.cfg = cfg)
    (hs : Sound s o) (hev : Evolved env s a o o') (hs' : Sound (s.act env a) o')
    (h : Settled cfg k i o) (hsize : s.size ≤ i) (hk : a = .sweep → k = 0) :
    Settled cfg (k + a.arrivals) (i + a.arrivals) o' := by
  subst hcfg
  obtain ⟨-, hr, hr2⟩ := ratio_bounds accepted.alpha
  have hpos := accepted.leafBucketSize
  cases hev with
  | rejected x => exact h.mono accepted (Nat.le_succ k) (Nat.le_succ i)
  | first x t' _ built =>
    rw [hexact] at built
    refine ⟨built.accounted, built.weighted hpos hr hr2, ?_⟩
    rw [built.exact_total, List.length_singleton, Action.arrivals]
    omega
  | inserted x t t' _ inserted =>
    obtain ⟨ha, hw, htotal⟩ : _ ∧ _ ∧ t.total ≤ (i : ℤ) := h
    have holds : Holds s t := hs.reads
    obtain ⟨ha', htotal', -⟩ := inserted.accounted hexact ha
    refine ⟨ha', inserted.weighted hexact hpos holds.shape hr hr2 hw, ?_⟩
    rw [Action.arrivals]
    push_cast
    omega
  | tombstoned j t =>
    obtain ⟨ha, hw, htotal⟩ : _ ∧ _ ∧ t.total ≤ (i : ℤ) := h
    have hdrop := t.dropLive_tombstone env.counter (s.points.point j)
    rw [hexact] at hdrop ⊢
    exact ⟨Tree.accounted_tombstone _ ha, Tree.weighted_of_dropLive hdrop hw,
      (Tree.total_of_dropLive hdrop).trans_le htotal⟩
  | missing => trivial
  | discounted rg t t' discounted =>
    obtain ⟨ha, hw, htotal⟩ : _ ∧ _ ∧ t.total ≤ (i : ℤ) := h
    rw [hexact] at discounted
    exact ⟨discounted.accounted ha, Tree.weighted_of_dropLive discounted.dropLive hw,
      (Tree.total_of_dropLive discounted.dropLive).trans_le htotal⟩
  | idleFull => trivial
  | idle => trivial
  | sweptFull t t' swept =>
    have hzero : Settled s.cfg 0 i (some t') := settled_of_swept hexact accepted rfl swept (.inl ⟨rfl, fun _ => rfl⟩) h
    exact hzero.mono accepted (Nat.zero_le _) le_rfl
  | swept called t t' swept =>
    obtain rfl := hk rfl
    exact settled_of_swept hexact accepted rfl swept (.inr rfl) h
  | emptied => trivial
  | rebuilt _ window t' live built =>
    have holds' : Holds (s.act env .rebuildAll) t' := hs'.reads
    have hpoints : (s.act env .rebuildAll).points = s.points := rebuildAll_points env s
    have hlive : ∀ j ∈ window, s.points.isLive j = true := fun j hj => (live j).mp hj
    have hnodup : window.Nodup := by
      have hvalid := holds'.nodup
      rw [hpoints] at hvalid
      exact (built.validIn_perm hlive).nodup_iff.mp hvalid
    obtain ⟨order, free, hring⟩ := hs.ring
    have hlen : window.length ≤ order.length :=
      (hnodup.subperm (fun j hj => (hring.isLive_iff j).mp (hlive j hj))).length_le
    have hsize' : order.length ≤ i := hring.live.symm.le.trans hsize
    rw [hexact] at built
    refine ⟨built.accounted, built.weighted hpos hr hr2, ?_⟩
    rw [built.exact_total]
    exact_mod_cast hlen.trans hsize'

end
end KDTreeImpl
end Copse

import Copse.KDTreePools
import Copse.TotalCounts
import Copse.DepthBounds

set_option autoImplicit false

namespace Copse
open PointStore TreeBuilder TransitionRuns

namespace TreeBuilder
variable {Dim : ℕ} [NeZero Dim] {K : Type*} [Field K] [LinearOrder K]

def Settled (b : TreeBuilder K) (t : Tree Dim K) : Prop := b.violates t = false

/-- The larger half of every odd build of at most `n` points is within alpha. -/
def HalvesWithin (b : TreeBuilder K) (n : ℕ) : Prop :=
  ∀ k, b.leafBucketSize < 2 * k + 1 → 2 * k + 1 ≤ n →
    ((k + 1 : ℕ) : K) ≤ b.alpha * ((2 * k + 1 : ℕ) : K)

section
variable {b : TreeBuilder K} {points : PointStore Dim K} {visit : ℕ → Bool} {called : Bool}
variable {t t' : Tree Dim K} {indices : List ℕ} {n : ℕ}

theorem HalvesWithin.mono {m : ℕ} (h : b.HalvesWithin n) (hle : m ≤ n) : b.HalvesWithin m :=
  fun k hk hkm => h k hk (hkm.trans hle)

omit [NeZero Dim] in
theorem settled_node {id : ℕ} {live total : ℤ} {dim : Fin Dim} {split : K} {left right : Tree Dim K}
    (hlive : total ≤ live) (hmax : ((max left.total right.total : ℤ) : K) ≤ b.alpha * (total : K)) :
    b.Settled (.node id live total dim split left right) := by
  rw [Settled, violates]
  split_ifs
  · rfl
  · rw [decide_eq_false (not_lt.mpr hmax), decide_eq_false (not_lt.mpr hlive)]
    rfl

theorem sweep_idle {p : Pools Dim K} (h : t.Rep p) (hs : t.Shape b.leafBucketSize)
    (hok : t.All b.Settled) (fuel : ℕ) : b.sweep points visit fuel p t.id = p := by
  induction fuel generalizing t with
  | zero => rfl
  | succ fuel ih =>
    by_cases hid : t.id = invalid
    · simp only [sweep, hid, ↓reduceIte]
    · have hvio : b.isViolator p t.id = false := (isViolator_eq b h).trans hok.root
      cases t with
      | leaf id live total offset cap bboxIdx es bbox => exact sweep_leaf_eq fuel hid h hs
      | node id live total dim split left right =>
        have child : ∀ u : Tree Dim K, b.sweep points visit fuel p u.id = p →
            b.sweepChild points visit fuel p u.id = p := by
          intro u hu
          unfold sweepChild
          split_ifs
          · exact hu
          · rfl
        have hl := child left (ih h.left hs.1 hok.2.1)
        have hr := child right (ih h.right hs.2 hok.2.2)
        rw [sweep_internal fuel hid h.node_body, hvio, hl, hr, sweepAgain, hvio]
        rfl

variable [IsStrictOrderedRing K]

theorem halvesWithin_of_least {m : ℕ} (halpha : 1 / 2 < b.alpha)
    (hm : m = (b.leafBucketSize + 1) / 2)
    (h : ((m + 1 : ℕ) : K) ≤ b.alpha * ((2 * m + 1 : ℕ) : K)) (n : ℕ) : b.HalvesWithin n := by
  intro k hk _
  obtain ⟨j, rfl⟩ : ∃ j, k = m + j := ⟨k - m, by omega⟩
  have hj : (j : K) ≤ b.alpha * (2 * j) := by
    have := mul_le_mul_of_nonneg_right halpha.le (by positivity : (0 : K) ≤ 2 * j)
    linarith
  push_cast at h ⊢
  linarith

omit [NeZero Dim]

theorem Built.settled {c : Counter} (h : Built c points b.leafBucketSize indices t)
    (halpha : 1 / 2 < b.alpha) (hhalf : b.HalvesWithin indices.length)
    (hn : indices.length < 2 ^ 32) : t.All b.Settled := by
  refine h.all (fun l u hu hle _ => ?_)
  have hcounts := hu.counts
  cases hu with
  | leaf => rfl
  | node id dim split _ lo hi left right large perm half below above pivot hl hr =>
    have hlen := perm.length_eq
    rw [List.length_append] at hlen
    have fits : ∀ {k : ℕ}, k ≤ l.length → c.wrap (k : ℤ) = k :=
      fun hk => c.wrap_of_fits (by omega) (by omega)
    rw [fits le_rfl] at hcounts
    obtain ⟨hlive, htotal⟩ := hcounts
    refine settled_node (htotal.trans hlive.symm).le ?_
    change c.wrap (left.total + right.total) = (l.length : ℤ) at htotal
    rw [htotal, hl.counts.2, hr.counts.2, fits (by omega), fits (by omega),
      max_eq_right (by omega)]
    by_cases hodd : l.length = 2 * lo.length
    · have hhi : hi.length = lo.length := by omega
      have := mul_le_mul_of_nonneg_right halpha.le (by positivity : (0 : K) ≤ 2 * lo.length)
      rw [hhi, hodd]
      push_cast
      linarith
    · have hlo : l.length = 2 * lo.length + 1 := by omega
      have hhi : hi.length = lo.length + 1 := by omega
      rw [hhi, hlo]
      exact_mod_cast hhalf lo.length (by omega) (by omega)

theorem Swept.settled (h : Swept b points visit called t t') (hcalled : called = true)
    (hvisit : ∀ i, visit i = true) (halpha : 1 / 2 < b.alpha)
    (hhalf : b.HalvesWithin (t.validIn points).length)
    (hn : (t.validIn points).length < 2 ^ 32) : t'.All b.Settled := by
  induction h with
  | skip => cases hcalled
  | leaf => rfl
  | rebuild t t' _ rebuilt => exact rebuilt.built.settled halpha hhalf hn
  | keep id live total dim split left right left' right' _ _ _ after ihl ihr =>
    rw [Tree.validIn_node, List.length_append] at hhalf hn
    exact ⟨after, ihl (hvisit _) (hhalf.mono (by omega)) (by omega),
      ihr (hvisit _) (hhalf.mono (by omega)) (by omega)⟩
  | again id live total dim split left right left' right' t' _ hl hr _ rebuilt _ _ =>
    have hlen := (hl.renewed.perm.append hr.renewed.perm).length_eq
    rw [← Tree.validIn_node points id live total dim split left' right',
      ← Tree.validIn_node points id live total dim split left right] at hlen
    exact rebuilt.built.settled halpha (hlen ▸ hhalf) (hlen ▸ hn)

end
end TreeBuilder

namespace KDTreeImpl
variable {Dim : ℕ} [NeZero Dim] {K : Type*} [Field K] [LinearOrder K]

/-- No node in use is a violator, and a sweep that starts here changes nothing. -/
structure Quiet (env : Env K) (s : KDTreeImpl Dim K) : Prop where
  noViolator : ∀ {d i : ℕ}, s.pools.Below s.root d i →
    (s.builder env).isViolator s.pools i = false
  sweepFull : s.maybePartialRebuildFull env = s
  sweep : ∀ (visit : ℕ → Bool) (fuel : ℕ),
    (s.builder env).sweep s.points visit fuel s.pools s.root = s.pools

/-- A build of `2 * leastHalf + 1` points is the smallest odd build with two children. -/
def leastHalf (cfg : Config K) : ℕ := (cfg.leafBucketSize + 1) / 2

section
variable {env : Env K} {cfg : Config K} {s : KDTreeImpl Dim K} {t : Tree Dim K}

omit [NeZero Dim] in
theorem isViolator_below_invalid (b : TreeBuilder K) {p : Pools Dim K} (fit : p.Fit) {d i : ℕ}
    (h : p.Below invalid d i) : b.isViolator p i = false := by
  rw [isViolator, (Pools.below_invalid fit h).2, Pools.node_invalid fit]

theorem quiet_of_invalid (env : Env K) (hroot : s.root = invalid) (fit : s.pools.Fit)
    (hclear : s.modifiedNodes = []) : Quiet env s := by
  have hsame : { s with modifiedNodes := [] } = s := by rw [← hclear]
  refine ⟨fun hi => ?_, ?_, ?_⟩
  · exact isViolator_below_invalid _ fit (hroot ▸ hi)
  · rw [maybePartialRebuildFull, if_pos hroot, hsame]
  · intro visit fuel
    cases fuel with
    | zero => rfl
    | succ fuel => rw [TreeBuilder.sweep, if_pos hroot]

theorem Planted.quiet (env : Env K) (h : Planted s t) (hok : t.All (s.builder env).Settled)
    (hclear : s.modifiedNodes = []) : Quiet env s := by
  have hsame : { s with modifiedNodes := [] } = s := by rw [← hclear]
  have hidle : ∀ (visit : ℕ → Bool) (fuel : ℕ),
      (s.builder env).sweep s.points visit fuel s.pools s.root = s.pools := by
    intro visit fuel
    rw [← h.root]
    exact sweep_idle h.rep h.shape hok fuel
  refine ⟨?_, ?_, hidle⟩
  · intro d i hi
    obtain ⟨u, hs, rfl⟩ := h.rep.below_iff.mp (h.root ▸ hi)
    exact (isViolator_eq _ (hs.rep h.rep)).trans (hok.sub hs).root
  · unfold maybePartialRebuildFull TreeBuilder.sweepFull
    rw [hsame]
    dsimp only
    rw [hidle]
    split_ifs <;> rfl

omit [NeZero Dim] [LinearOrder K] in
theorem Planted.validIn_lt (h : Planted s t) (fit : s.pools.Fit) (points : PointStore Dim K) :
    (t.validIn points).length < 2 ^ 32 := by
  have hentries := h.rep.entries_length_le
  have hslots := fit.slots
  have hvalid := List.countP_le_length (p := points.valid) (l := t.entries)
  rw [Tree.validIn_length]
  omega

variable [IsStrictOrderedRing K]

theorem Planted.sweepFull_quiet (h : Planted s t) (hpos : 0 < s.cfg.leafBucketSize)
    (hB : 2 * s.cfg.leafBucketSize < 2 ^ 16) (halpha : 1 / 2 < s.cfg.alpha)
    (hroot : s.root ≠ invalid) (fit : (s.maybePartialRebuildFull env).pools.Fit)
    (hhalf : (s.builder env).HalvesWithin (t.validIn s.points).length) :
    Quiet env (s.maybePartialRebuildFull env) := by
  have heq : s.maybePartialRebuildFull env =
      { s with
        modifiedNodes := []
        pools := (s.builder env).sweep s.points (fun _ => true) s.pools.nodes.length s.pools
          s.root } := by
    rw [maybePartialRebuildFull, if_neg hroot]
    rfl
  rw [heq] at fit ⊢
  rw [← h.root] at fit
  have hn := h.validIn_lt (fit.of_grown (sweep_grown _ _ _)) s.points
  obtain ⟨t', swept, hup⟩ := sweep_spec (b := s.builder env) hpos hB h.rep h.shape _ h.height_lt fit
  rw [h.root] at hup
  exact Planted.quiet env ⟨hup.rep, hup.id_eq.trans h.root, swept.renewed.shape hpos h.shape⟩
    (swept.settled rfl (fun _ => rfl) halpha hhalf hn) rfl

/-- With an alpha that admits the larger half of every build, or a capacity too small for an odd
build with children, an insertion that accepted a point leaves nothing to rebuild. -/
theorem insert_quiet (hB : 2 * cfg.leafBucketSize ≤ 65535) (h : PoolsReachable env cfg s)
    (batch : List (Point Dim K)) (fit : (s.insert env batch).1.pools.Fit)
    (haccepted : 0 < (s.insert env batch).2)
    (hhalf : ((leastHalf cfg + 1 : ℕ) : K) ≤ cfg.alpha * ((2 * leastHalf cfg + 1 : ℕ) : K) ∨
      cfg.capacity < 2 * leastHalf cfg + 1 ∧ Reachable env cfg s ∧ (s.insert env batch).1.NoWrap) :
    Quiet env (s.insert env batch).1 := by
  obtain ⟨hlast, heq⟩ := insert_closing haccepted
  obtain ⟨hcfg, hfit, hshaped⟩ := h.shaped hB
  have hmid : (insertLoop env s batch).1.cfg = cfg ∧ Shaped (insertLoop env s batch).1 :=
    (steps_shaped hB hcfg hshaped (show (s.apply env (.insert batch)).1.pools.Fit from fit)).1 _ hlast
  have hpos := hcfg.2.leafBucketSize
  have halpha := hcfg.2.alpha.1
  rw [heq] at fit ⊢
  by_cases hroot : (insertLoop env s batch).1.root = invalid
  · have hstay : (insertLoop env s batch).1.maybePartialRebuildFull env =
        { (insertLoop env s batch).1 with modifiedNodes := [] } := by
      rw [maybePartialRebuildFull, if_pos hroot]
    rw [hstay] at fit ⊢
    exact quiet_of_invalid env hroot fit rfl
  have settles : ∀ t, Planted (insertLoop env s batch).1 t →
      (⟨env, cfg.leafBucketSize, cfg.alpha, cfg.tombstoneThreshold⟩ : TreeBuilder K).HalvesWithin
        (t.validIn (insertLoop env s batch).1.points).length →
      Quiet env ((insertLoop env s batch).1.maybePartialRebuildFull env) := by
    intro t ht hhalf
    exact ht.sweepFull_quiet (hmid.1 ▸ hpos) (by rw [hmid.1]; omega) (hmid.1 ▸ halpha) hroot fit
      (by rw [builder, hmid.1]; exact hhalf)
  rcases hhalf with hleast | ⟨hsmall, hreach, hn⟩
  · obtain ⟨t, ht⟩ := hmid.2.resolve_left hroot
    exact settles t ht (halvesWithin_of_least halpha rfl hleast _)
  · obtain ⟨o, hs⟩ := hreach.sound hB
    obtain ⟨o₁, hs₁⟩ : ∃ o₁, Sound (insertLoop env s batch).1 o₁ :=
      steps_sound hs (show (s.apply env (.insert batch)).1.NoWrap from hn) _ hlast
    cases o₁ with
    | none =>
      have hvacant : Vacant (insertLoop env s batch).1 := hs₁.reads
      exact absurd hvacant.root hroot
    | some t =>
      have holds : Holds (insertLoop env s batch).1 t := hs₁.reads
      obtain ⟨window, free, hring⟩ := hs₁.ring
      have hlen := hring.length_add
      have hlive := hring.live
      have hsize := hs₁.size_eq
      have hcap := (insertLoop_cfg env s batch).2.trans hreach.config.2.2
      rw [size, PointStore.size] at hsize
      refine settles t ⟨holds.rep, holds.root, holds.shape⟩ (fun k hk hkn => ?_)
      change cfg.leafBucketSize < 2 * k + 1 at hk
      unfold leastHalf at hsmall
      omega

theorem insert_quiet_plane :
    Quiet wordEnv ((start (plane 3 (1 / 4)) : KDTreeImpl 2 ℚ).insert wordEnv
      [![0, 0], ![1, 0], ![2, 0]]).1 := by
  have hstart : Reachable wordEnv (plane 3 (1 / 4))
      (run wordEnv (start (plane 3 (1 / 4))) [] : KDTreeImpl 2 ℚ) :=
    reachable_run (plane_accepted (by decide) (by norm_num)) (by decide +kernel)
  exact insert_quiet (by decide) hstart.poolsReachable _ (noWrap_of_fits (by decide +kernel)).pools
    (by decide +kernel) (Or.inl (by norm_num [leastHalf, plane]))

def narrow : Config ℚ := { plane 3 (1 / 4) with alpha := 3 / 5 }

def narrowRun : KDTreeImpl 2 ℚ :=
  (insert wordEnv (start narrow) [![0, 0], ![1, 0], ![2, 0]]).1

/-- The root that the sweep has just built is a violator, and the next sweep builds again. -/
theorem insert_violator_plane :
    Accepted narrow ∧ Reachable wordEnv narrow (start narrow : KDTreeImpl 2 ℚ) ∧
      0 < (insert wordEnv (start narrow : KDTreeImpl 2 ℚ) [![0, 0], ![1, 0], ![2, 0]]).2 ∧
      narrowRun.pools.Below narrowRun.root 0 narrowRun.root ∧
      (narrowRun.builder wordEnv).isViolator narrowRun.pools narrowRun.root = true ∧
      (narrowRun.maybePartialRebuildFull wordEnv).pools.nodes.length ≠
        narrowRun.pools.nodes.length := by
  have haccepted : Accepted narrow :=
    ⟨by decide, by norm_num [narrow, plane], by decide, by norm_num [narrow],
      by norm_num [narrow, plane]⟩
  have hstart : Reachable wordEnv narrow (run wordEnv (start narrow) [] : KDTreeImpl 2 ℚ) :=
    reachable_run haccepted (by decide +kernel)
  exact ⟨haccepted, hstart, by decide +kernel, .refl _, by decide +kernel, by decide +kernel⟩

end
end KDTreeImpl
end Copse

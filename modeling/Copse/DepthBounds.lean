import Copse.LiveCounts

set_option autoImplicit false

namespace Copse
open PointStore TreeBuilder TransitionRuns

namespace Tree
variable {Dim : ℕ} {K : Type*}

def Populated : Tree Dim K → Prop
  | leaf .. => True
  | node _ _ total _ _ _ _ => 1 ≤ total

theorem populated_dropLive {t : Tree Dim K} : t.dropLive.All Populated ↔ t.All Populated := by
  induction t with
  | leaf => exact Iff.rfl
  | node id live total dim split left right ihl ihr => exact and_congr Iff.rfl (and_congr ihl ihr)

theorem populated_of_dropLive {t t' : Tree Dim K} (h : t'.dropLive = t.dropLive)
    (hp : t.All Populated) : t'.All Populated :=
  populated_dropLive.mp (h ▸ populated_dropLive.mpr hp)

end Tree

namespace TreeBuilder
variable {Dim : ℕ} {K : Type*} [Field K] [LinearOrder K]

section
variable {B : ℕ} {b : TreeBuilder K} {points : PointStore Dim K} {index d : ℕ}
variable {t t' u : Tree Dim K} {indices : List ℕ}

theorem Built.exact_total (h : Built .exact points B indices t) : t.total = indices.length :=
  h.counts.2

theorem Built.populated (h : Built .exact points B indices t) : t.All Tree.Populated := by
  refine h.all (fun l u hu _ _ => ?_)
  have htotal := hu.exact_total
  cases hu with
  | leaf => trivial
  | node id dim split _ lo hi left right large =>
    change left.total + right.total = _ at htotal
    change 1 ≤ left.total + right.total
    omega

theorem Built.pow_depth_lt {c : Counter} (hpos : 0 < B) (h : Built c points B indices t)
    (hs : t.Sub (d + 1) u) : 2 ^ d < indices.length := by
  induction h generalizing d with
  | leaf => cases hs
  | node id dim split indices lo hi left right large perm half below above pivot _ _ ihl ihr =>
    have hlen := perm.length_eq
    rw [List.length_append] at hlen
    have down : ∀ {v : Tree Dim K} {n : ℕ}, (∀ {e}, v.Sub (e + 1) u → 2 ^ e < n) →
        2 * n ≤ indices.length + 1 → v.Sub d u → 2 ^ d < indices.length := by
      intro v n ih hn hv
      cases d with
      | zero =>
        rw [pow_zero]
        omega
      | succ d =>
        have hd := ih hv
        rw [pow_succ]
        omega
    cases hs with
    | left _ _ _ _ _ hs => exact down ihl (by omega) hs
    | right _ _ _ _ _ hs => exact down ihr (by omega) hs

theorem Inserted.populated (h : Inserted b points index t t') (hc : b.env.counter = .exact)
    (hp : t.All Tree.Populated) : t'.All Tree.Populated := by
  induction h with
  | push => trivial
  | split id live total offset cap bboxIdx es bbox t' _ rebuilt =>
    have hbuilt := rebuilt.built
    rw [hc] at hbuilt
    exact hbuilt.populated
  | left id live total dim split left right left' _ _ ih =>
    have hroot : 1 ≤ total := hp.root
    refine ⟨?_, ih hp.2.1, hp.2.2⟩
    simp only [Tree.Populated, hc, Counter.wrap_exact]
    omega
  | right id live total dim split left right right' _ _ ih =>
    have hroot : 1 ≤ total := hp.root
    refine ⟨?_, hp.2.1, ih hp.2.2⟩
    simp only [Tree.Populated, hc, Counter.wrap_exact]
    omega

theorem Swept.populated {visit : ℕ → Bool} {called : Bool} (h : Swept b points visit called t t')
    (hc : b.env.counter = .exact) (hp : t.All Tree.Populated) : t'.All Tree.Populated := by
  induction h with
  | skip t => exact hp
  | leaf => exact hp
  | rebuild t t' _ rebuilt => exact (hc ▸ rebuilt.built).populated
  | keep id live total dim split left right left' right' _ _ _ _ ihl ihr =>
    exact ⟨hp.root, ihl hp.2.1, ihr hp.2.2⟩
  | again id live total dim split left right left' right' t' _ _ _ _ rebuilt _ _ =>
    exact (hc ▸ rebuilt.built).populated

variable [IsStrictOrderedRing K]

theorem total_le_of_kept {id : ℕ} {live total : ℤ} {dim : Fin Dim} {split : K}
    {left right : Tree Dim K} (hpop : 1 ≤ total)
    (h : b.violates (.node id live total dim split left right) = false) :
    (left.total : K) ≤ b.alpha * total ∧ (right.total : K) ≤ b.alpha * total := by
  have hne : total ≠ 0 := by omega
  simp only [violates, hne, ↓reduceIte, Bool.or_eq_false_iff, decide_eq_false_iff_not,
    not_lt] at h
  have hmax := h.1
  rw [Int.cast_max] at hmax
  exact ⟨(le_max_left _ _).trans hmax, (le_max_right _ _).trans hmax⟩

theorem total_le_two_live {id : ℕ} {live total : ℤ} {dim : Fin Dim} {split : K}
    {left right : Tree Dim K} (hpop : 1 ≤ total) (hlive : 0 ≤ live)
    (hhalf : b.tombstoneThreshold ≤ 1 / 2)
    (h : b.violates (.node id live total dim split left right) = false) : total ≤ 2 * live := by
  have hne : total ≠ 0 := by omega
  by_cases hlt : live < total
  · simp only [violates, hne, ↓reduceIte, hlt, decide_true, Bool.true_and, Bool.or_eq_false_iff,
      decide_eq_false_iff_not, not_le] at h
    have hpos : (0 : K) < total := Int.cast_pos.mpr (by omega)
    have hratio : ((total - live : ℤ) : K) / total < 1 / 2 := h.2.trans_le hhalf
    rw [div_lt_div_iff₀ hpos two_pos, one_mul] at hratio
    have hint : (total - live) * 2 < total := by exact_mod_cast hratio
    omega
  · omega

/-- After a full sweep a node at depth `d + 1` needs a total that grows like `(1 / alpha) ^ d`. -/
theorem Swept.pow_depth_le {called : Bool} (h : Swept b points (fun _ => true) called t t')
    (hcalled : called = true) (hc : b.env.counter = .exact) (hpos : 0 < b.leafBucketSize)
    (halpha : 1 / 2 < b.alpha) (hp : t.All Tree.Populated) (hs : t'.Sub (d + 1) u) :
    (1 / b.alpha) ^ d ≤ (t'.total : K) := by
  have hapos : 0 < b.alpha := half_pos one_pos |>.trans halpha
  have hinv : 1 / b.alpha ≤ 2 := by
    rw [div_le_iff₀ hapos]
    linarith
  have built : ∀ {e : ℕ} {l : List ℕ} {v : Tree Dim K},
      Built b.env.counter points b.leafBucketSize l v → v.Sub (e + 1) u →
      (1 / b.alpha) ^ e ≤ (v.total : K) := by
    intro e l v hv hsv
    rw [hc] at hv
    have hlt := hv.pow_depth_lt hpos hsv
    calc (1 / b.alpha) ^ e ≤ 2 ^ e := pow_le_pow_left₀ (by positivity) hinv e
      _ ≤ (l.length : K) := by exact_mod_cast hlt.le
      _ = (v.total : K) := by rw [hv.exact_total, Int.cast_natCast]
  induction h generalizing d with
  | skip t => cases hcalled
  | leaf => cases hs
  | rebuild t t' _ rebuilt => exact built rebuilt.built hs
  | again id live total dim split left right left' right' t' _ _ _ _ rebuilt _ _ =>
    exact built rebuilt.built hs
  | keep id live total dim split left right left' right' _ hl hr after ihl ihr =>
    have hpop : 1 ≤ total := hp.root
    obtain ⟨hlw, hrw⟩ := total_le_of_kept hpop after
    have down : ∀ {v : Tree Dim K}, (v.total : K) ≤ b.alpha * total →
        (∀ {e}, v.Sub (e + 1) u → (1 / b.alpha) ^ e ≤ (v.total : K)) → v.Sub d u →
        (1 / b.alpha) ^ d ≤ (total : K) := by
      intro v hw ih hv
      cases d with
      | zero =>
        rw [pow_zero]
        exact_mod_cast hpop
      | succ d =>
        have hstep := (ih hv).trans hw
        rw [pow_succ, mul_one_div, div_le_iff₀ hapos, mul_comm (total : K)]
        exact hstep
    cases hs with
    | left _ _ _ _ _ hs => exact down hlw (fun hv => ihl rfl hp.2.1 hv) hs
    | right _ _ _ _ _ hs => exact down hrw (fun hv => ihr rfl hp.2.2 hv) hs

theorem Swept.total_le {visit : ℕ → Bool} (h : Swept b points visit true t t')
    (hc : b.env.counter = .exact) (hhalf : b.tombstoneThreshold ≤ 1 / 2)
    (hp : t.All Tree.Populated) (hl : t.LiveCounted .exact points) (hs : t'.Sub (d + 1) u) :
    t'.total ≤ 2 * (t.validIn points).length := by
  have hperm := h.renewed.perm
  have built : ∀ {v : Tree Dim K}, Rebuilt b.env.counter points b.leafBucketSize v t' →
      t'.total ≤ 2 * (t.validIn points).length := by
    intro v hv
    have htotal := (hc ▸ hv.built : Built .exact points b.leafBucketSize _ t').exact_total
    have hlen := hv.validIn_perm.length_eq
    rw [hperm.length_eq] at hlen
    omega
  cases h with
  | leaf => cases hs
  | rebuild _ _ _ rebuilt => exact built rebuilt
  | again _ _ _ _ _ _ _ _ _ _ _ _ _ _ rebuilt => exact built rebuilt
  | keep id live total dim split left right left' right' _ _ _ after =>
    have hlive : live = ((Tree.node id live total dim split left right).validIn points).length := hl
    rw [← hlive]
    exact total_le_two_live hp.root (by omega) hhalf after

end
end TreeBuilder

namespace KDTreeImpl
variable {Dim : ℕ} [NeZero Dim] {K : Type*} [Field K] [LinearOrder K]

/-- The root counts the live points, and every internal node counts something. -/
def Tracked (env : Env K) (s : KDTreeImpl Dim K) : Option (Tree Dim K) → Prop :=
  Tree.IfAny (fun t => t.LiveCounted env.counter s.points ∧ t.All Tree.Populated)

section
variable {env : Env K} {cfg : Config K} {s : KDTreeImpl Dim K} {a : Action Dim K}
variable {o o' : Option (Tree Dim K)}

theorem act_tracked (hexact : env.counter = .exact) (hs : Sound s o) (ready : s.Ready a)
    (hev : Evolved env s a o o') (hs' : Sound (s.act env a) o') (hroom : s.evicts a = false)
    (h : Tracked env s o) : Tracked env (s.act env a) o' := by
  obtain ⟨window, free, hring⟩ := hs.ring
  cases hev with
  | rejected x o hx =>
    rw [act_rejected env hx]
    exact h
  | first x t' hx built =>
    have hpts := act_accepted env hx
    rw [Tracked, hpts]
    have hcount := built.liveCounted (List.forall_mem_singleton.mpr (acquire_self_live x hring))
    exact ⟨hcount.root, (hexact ▸ built).populated⟩
  | inserted x t t' hx ins =>
    have holds : Holds s t := hs.reads
    have stamps := hs'.noWrap.stamps
    have hpts := act_accepted env hx
    have hfull : s.points.live ≠ s.points.capacity := by simpa [evicts, hx] using hroom
    rw [hpts] at stamps
    rw [Tracked, hpts]
    have hsame := h.1.congr (Tree.acquire_valid_of_room hring x stamps holds.stamped hfull)
    exact ⟨ins.liveCounted_root (acquire_self_live x hring) hsame,
      ins.populated hexact h.2⟩
  | tombstoned i t =>
    have holds : Holds s t := hs.reads
    exact ⟨h.1.tombstone holds.nodup ((holds.complete i).mp ready) _,
      Tree.populated_of_dropLive (t.dropLive_tombstone _ _) h.2⟩
  | missing rg => trivial
  | discounted rg t t' hd =>
    exact ⟨h.1.discounted hd (deleteRegion_valid rg hs hs'.noWrap),
      Tree.populated_of_dropLive hd.dropLive h.2⟩
  | idleFull => trivial
  | idle => trivial
  | sweptFull t t' swept =>
    have hpts : (s.act env .sweepFull).points = s.points := sweepFull_points env s
    rw [Tracked, hpts]
    exact ⟨swept.liveCounted_root h.1, swept.populated hexact h.2⟩
  | swept called t t' swept =>
    have hpts : (s.act env .sweep).points = s.points := sweep_points env s
    rw [Tracked, hpts]
    exact ⟨swept.liveCounted_root h.1, swept.populated hexact h.2⟩
  | emptied o => trivial
  | rebuilt o window t' hlive built =>
    have hpts : (s.act env .rebuildAll).points = s.points := rebuildAll_points env s
    rw [Tracked, hpts]
    exact ⟨(built.liveCounted (fun i hi => (hlive i).mp hi)).root, (hexact ▸ built).populated⟩

variable [IsStrictOrderedRing K]

theorem sweepFull_depth (hexact : env.counter = .exact) (halpha : 1 / 2 < s.cfg.alpha)
    (hhalf : s.cfg.tombstoneThreshold ≤ 1 / 2) (hs : Sound s o) (h : Tracked env s o)
    (hn : (s.act env .sweepFull).NoWrap) {d i : ℕ}
    (hi : (s.act env .sweepFull).pools.Below (s.act env .sweepFull).root (d + 1) i) :
    (1 / s.cfg.alpha) ^ d ≤ 2 * (s.points.capacity : K) := by
  cases o with
  | none =>
    have hroot : (s.act env .sweepFull).root = invalid := (sweepFull_vacant hs hn).reads.root
    rw [hroot] at hi
    exact absurd (Pools.below_invalid hn.pools hi).1 (Nat.succ_ne_zero d)
  | some t =>
    obtain ⟨t', swept, hs'⟩ := sweepFull_holds hs hn
    have holds : Holds (s.maybePartialRebuildFull env) t' := hs'.reads
    change (s.maybePartialRebuildFull env).pools.Below _ (d + 1) i at hi
    rw [act, ← holds.root] at hi
    obtain ⟨u, hsub, -⟩ := holds.rep.below_iff.mp hi
    have hdepth := swept.pow_depth_le rfl hexact hs.pos halpha h.2 hsub
    have htotal := swept.total_le hexact hhalf h.2 (hexact ▸ h.1) hsub
    have hcap : (t.validIn s.points).length ≤ s.points.capacity := by
      obtain ⟨window, free, hring⟩ := hs.ring
      have hlen := hring.length_add
      have hlive := hring.live
      rw [hs.size_eq, size, PointStore.size]
      omega
    calc (1 / s.cfg.alpha) ^ d ≤ (t'.total : K) := hdepth
      _ ≤ 2 * (s.points.capacity : K) := by exact_mod_cast htotal.trans (by omega)

omit [IsStrictOrderedRing K] in
theorem insertLoop_cfg (env : Env K) (s : KDTreeImpl Dim K) (batch : List (Point Dim K)) :
    (insertLoop env s batch).1.cfg = s.cfg ∧
      (insertLoop env s batch).1.points.capacity = s.points.capacity := by
  have hloop := (stepsOf_chain (act env) s (batch.map Action.insertPoint)).invariant
    (P := fun u => u.cfg = s.cfg ∧ u.points.capacity = s.points.capacity) ?_ ⟨rfl, rfl⟩
  · rw [insertLoop_fst]
    exact hloop.2
  · rintro m - ⟨hcfg, hcap⟩
    obtain ⟨hcfg', hcap'⟩ := act_cfg (s := m.1) env m.2
    exact ⟨hcfg'.trans hcfg, hcap'.trans hcap⟩

/-- With exact counts and no insertion that evicts, an insertion that accepted a point
leaves every leaf at a depth logarithmic in the capacity. -/
theorem leaf_depth_log (hexact : env.counter = .exact) (hB : 2 * cfg.leafBucketSize ≤ 65535)
    (hhalf : cfg.tombstoneThreshold ≤ 1 / 2)
    (h : ReachableWhen env cfg (fun s a => s.evicts a = false) s) (batch : List (Point Dim K))
    (hn : (s.insert env batch).1.NoWrap)
    (hok : ∀ m ∈ s.steps env (.insert batch), m.1.evicts m.2 = false)
    (haccepted : 0 < (s.insert env batch).2) :
    ∀ d i, 1 ≤ d → (s.insert env batch).1.pools.Below (s.insert env batch).1.root d i →
      ((s.insert env batch).1.pools.node i).isLeaf = true →
      (1 / cfg.alpha) ^ (d - 1) ≤ 2 * (cfg.capacity : K) := by
  have hP : ∀ (s : KDTreeImpl Dim K) a o o', Sound s o → s.Ready a → Evolved env s a o o' →
      Sound (s.act env a) o' → s.evicts a = false → Tracked env s o → Tracked env (s.act env a) o' :=
    fun s a o o' hs ready hev hs' hok hp => act_tracked hexact hs ready hev hs' hok hp
  obtain ⟨o, hs, htracked⟩ := h.invariant hB (fun _ _ _ => trivial) hP
  -- the state between the loop and the sweep
  obtain ⟨hlast, heq⟩ := insert_closing haccepted
  obtain ⟨u, hsu, hu⟩ := (steps_invariant hP ⟨o, hs, htracked⟩
    (show (s.apply env (.insert batch)).1.NoWrap from hn) hok).1 _ hlast
  obtain ⟨hcfg, haccept, hcap⟩ := h.reachable.config
  obtain ⟨hcfg', hcap'⟩ := insertLoop_cfg env s batch
  have hcfg₁ := hcfg'.trans hcfg
  intro d i hd hi _
  obtain ⟨d, rfl⟩ : ∃ e, d = e + 1 := ⟨d - 1, by omega⟩
  rw [heq] at hi hn
  have hbound := sweepFull_depth hexact (hcfg₁ ▸ haccept.alpha.1) (hcfg₁ ▸ hhalf) hsu hu hn hi
  rwa [hcfg₁, hcap'.trans hcap] at hbound

end

def streamed : List (Point 2 ℚ) :=
  [![0, 0], ![8, 0], ![12, 0], ![14, 0], ![15, 0], ![16, 0], ![-1, 0], ![9, 0], ![-2, 0], ![10, 0],
    ![-3, 0], ![13, 0]]

def streamedRun : KDTreeImpl 2 ℚ := (insert exactEnv (start (plane 2 (1 / 2))) streamed).1

/-- A leaf of it is at depth five, too deep for two slots. -/
theorem leaf_depth_plane :
    Reachable exactEnv (plane 2 (1 / 2)) (start (plane 2 (1 / 2)) : KDTreeImpl 2 ℚ) ∧
      Reachable exactEnv (plane 2 (1 / 2)) streamedRun ∧
      0 < (insert exactEnv (start (plane 2 (1 / 2))) streamed).2 ∧
      streamedRun.pools.Below streamedRun.root 5 14 ∧
      (streamedRun.pools.node 14).isLeaf = true ∧
      ¬ (1 / (plane 2 (1 / 2)).alpha) ^ (5 - 1) ≤ 2 * ((plane 2 (1 / 2)).capacity : ℚ) := by
  have haccepted : Accepted (plane 2 (1 / 2)) := plane_accepted (by decide) (by norm_num)
  have hstart : Reachable exactEnv (plane 2 (1 / 2))
      (run exactEnv (start (plane 2 (1 / 2))) [] : KDTreeImpl 2 ℚ) :=
    reachable_run haccepted (by decide +kernel)
  have hrun : Reachable exactEnv (plane 2 (1 / 2))
      (run exactEnv (start (plane 2 (1 / 2))) [.insert streamed] : KDTreeImpl 2 ℚ) :=
    reachable_run haccepted (by decide +kernel)
  have h0 : (streamedRun.pools.node streamedRun.root).body = .internal 0 8 2 3 := by decide +kernel
  have h3 : (streamedRun.pools.node 3).body = .internal 0 12 5 6 := by decide +kernel
  have h6 : (streamedRun.pools.node 6).body = .internal 0 14 8 9 := by decide +kernel
  have h9 : (streamedRun.pools.node 9).body = .internal 0 15 11 12 := by decide +kernel
  have h12 : (streamedRun.pools.node 12).body = .internal 0 16 14 15 := by decide +kernel
  exact ⟨hstart, hrun, by decide +kernel,
    .right h0 (.right h3 (.right h6 (.right h9 (.left h12 (.refl 14))))), by decide +kernel,
    by norm_num [plane]⟩

def fittingRun : KDTreeImpl 2 ℚ :=
  (insert exactEnv (start (plane 4 (1 / 2))) [![0, 0], ![8, 0], ![12, 0], ![14, 0]]).1

theorem leaf_depth_log_plane :
    (1 / (plane 4 (1 / 2)).alpha) ^ (2 - 1) ≤ 2 * ((plane 4 (1 / 2)).capacity : ℚ) := by
  have hstart : ReachableWhen exactEnv (plane 4 (1 / 2)) (fun s a => s.evicts a = false)
      (run exactEnv (start (plane 4 (1 / 2))) [] : KDTreeImpl 2 ℚ) :=
    reachableWhen_run (fun s a (h : (!s.evicts a) = true) => by simpa using h)
      (plane_accepted (by decide) (by norm_num)) (by decide +kernel)
  have hok : ((start (plane 4 (1 / 2)) : KDTreeImpl 2 ℚ).steps exactEnv
      (.insert [![0, 0], ![8, 0], ![12, 0], ![14, 0]])).all (fun m => !m.1.evicts m.2) = true := by
    decide +kernel
  have h0 : (fittingRun.pools.node fittingRun.root).body = .internal 0 12 11 14 := by decide +kernel
  have h11 : (fittingRun.pools.node 11).body = .internal 0 8 12 13 := by decide +kernel
  exact leaf_depth_log rfl (by decide) (by norm_num [plane]) hstart
    [![0, 0], ![8, 0], ![12, 0], ![14, 0]] (noWrap_of_fits (by decide +kernel))
    (fun m hm => by simpa using List.all_eq_true.mp hok m hm) (by decide +kernel) 2 12 (by decide)
    (.left h0 (.left h11 (.refl 12))) (by decide +kernel)

end KDTreeImpl
end Copse

import Copse.KDTreeRuns

set_option autoImplicit false

/-!
# The invariant that store and tree keep together

`Sound` couples a state with the tree its pools hold. One theorem per action
says how the tree evolves and that the coupling survives; every reachable
state is then sound.
-/
namespace Copse
open FramedStore PointStore TreeBuilder TransitionRuns

theorem PointStore.lt_of_isLive {Dim : ℕ} {K : Type*} {s : PointStore Dim K} {i : ℕ}
    (h : s.isLive i = true) : i < s.capacity := by
  simp only [PointStore.isLive, Bool.and_eq_true, decide_eq_true_eq] at h
  exact h.1

namespace KDTreeImpl
variable {Dim : ℕ} [NeZero Dim] {K : Type*} [Field K] [LinearOrder K]

/-- The pools hold `t` below the root, and its valid entries are the live slots. -/
structure Holds (s : KDTreeImpl Dim K) (t : Tree Dim K) : Prop where
  rep : t.Rep s.pools
  root : t.id = s.root
  shape : t.Shape s.cfg.leafBucketSize
  stamped : t.Stamped s.points
  placed : t.Placed s.points
  inBox : ∀ i ∈ t.validIn s.points, s.rootBBox.Mem (s.points.point i)
  nodup : (t.validIn s.points).Nodup
  complete : ∀ i, s.points.isLive i = true ↔ i ∈ t.validIn s.points

/-- There is no tree, and no slot is live. -/
structure Vacant (s : KDTreeImpl Dim K) : Prop where
  root : s.root = invalid
  none : ∀ i, s.points.isLive i = false

def Reads (s : KDTreeImpl Dim K) : Option (Tree Dim K) → Prop
  | none => Vacant s
  | some t => Holds s t

structure Sound (s : KDTreeImpl Dim K) (o : Option (Tree Dim K)) : Prop where
  pos : 0 < s.cfg.leafBucketSize
  small : 2 * s.cfg.leafBucketSize < 2 ^ 16
  noWrap : s.NoWrap
  ring : ∃ window free, Ring s.points window free
  reads : Reads s o

/-- The slots that a removal may name. -/
def Ready (s : KDTreeImpl Dim K) : Action Dim K → Prop
  | .removeIndex i => s.points.isLive i = true
  | _ => True

/-- The nodes that the sweep after a delete may come to: all, or the recorded ones. -/
def visits (s : KDTreeImpl Dim K) (i : ℕ) : Bool :=
  decide (s.pools.nodes.length ≤ s.modifiedNodes.length) ||
    decide (i ∈ (s.modifiedNodes.insertionSort (· ≤ ·)).destutter (· ≠ ·))

/-- How an action changes the tree. -/
inductive Evolved (env : Env K) (s : KDTreeImpl Dim K) :
    Action Dim K → Option (Tree Dim K) → Option (Tree Dim K) → Prop where
  | rejected (x : Point Dim K) (o : Option (Tree Dim K)) (rejects : s.accepts x = false) :
    Evolved env s (.insertPoint x) o o
  | first (x : Point Dim K) (t' : Tree Dim K) (accepts : s.accepts x = true)
      (built : Built env.counter (s.points.acquire x).1 s.cfg.leafBucketSize
        [(s.points.acquire x).2] t') :
    Evolved env s (.insertPoint x) none (some t')
  | inserted (x : Point Dim K) (t t' : Tree Dim K) (accepts : s.accepts x = true)
      (inserted : Inserted (s.builder env) (s.points.acquire x).1 (s.points.acquire x).2 t t') :
    Evolved env s (.insertPoint x) (some t) (some t')
  | tombstoned (i : ℕ) (t : Tree Dim K) :
    Evolved env s (.removeIndex i) (some t) (some (t.tombstone env.counter (s.points.point i)))
  | missing (rg : Region Dim K) : Evolved env s (.deleteRegion rg) none none
  | discounted (rg : Region Dim K) (t t' : Tree Dim K)
      (discounted : t.Discounted env.counter (gone s.points rg.hit) t') :
    Evolved env s (.deleteRegion rg) (some t) (some t')
  | idleFull : Evolved env s .sweepFull none none
  | idle : Evolved env s .sweep none none
  | sweptFull (t t' : Tree Dim K)
      (swept : Swept (s.builder env) s.points (fun _ => true) true t t') :
    Evolved env s .sweepFull (some t) (some t')
  | swept (called : Bool) (t t' : Tree Dim K)
      (swept : Swept (s.builder env) s.points s.visits called t t') :
    Evolved env s .sweep (some t) (some t')
  | emptied (o : Option (Tree Dim K)) : Evolved env s .rebuildAll o none
  | rebuilt (o : Option (Tree Dim K)) (window : List ℕ) (t' : Tree Dim K)
      (live : ∀ i, i ∈ window ↔ s.points.isLive i = true)
      (built : Built env.counter s.points s.cfg.leafBucketSize window t') :
    Evolved env s .rebuildAll o (some t')

section
variable {env : Env K} {s : KDTreeImpl Dim K}

omit [NeZero Dim] in
theorem Holds.root_valid {t : Tree Dim K} (h : Holds s t) (hn : s.NoWrap) : s.root ≠ invalid :=
  h.root ▸ h.rep.id_valid hn.pools

omit [NeZero Dim] in
theorem Holds.height_lt {t : Tree Dim K} (h : Holds s t) : t.height < s.pools.nodes.length := by
  have hlt := h.rep.height_lt
  omega

theorem rebuild_eq (env : Env K) {indices : List ℕ} (hne : indices ≠ []) :
    s.rebuild env indices =
      { s with
        modifiedNodes := []
        pools := (buildRecursive env s.points s.cfg.leafBucketSize indices.length s.pools indices).1
        root := (buildRecursive env s.points s.cfg.leafBucketSize indices.length s.pools indices).2
        rootBBox := bboxOf s.points indices } := by
  simp only [rebuild, hne, ↓reduceIte]

theorem rebuild_holds (env : Env K) (hpos : 0 < s.cfg.leafBucketSize)
    (hB : 2 * s.cfg.leafBucketSize < 2 ^ 16)
    (stamps : s.points.StampsFit) {indices : List ℕ} (hne : indices ≠ []) (hnd : indices.Nodup)
    (hlive : ∀ i, i ∈ indices ↔ s.points.isLive i = true)
    (fit : (s.rebuild env indices).pools.Fit) :
    ∃ t, Built env.counter s.points s.cfg.leafBucketSize indices t ∧
      Holds (s.rebuild env indices) t := by
  rw [rebuild_eq env hne] at fit ⊢
  obtain ⟨t, hroot, built, app⟩ := buildRecursive_spec hpos hB _ s.pools indices le_rfl fit
  have hall : ∀ i ∈ indices, s.points.isLive i = true := fun i hi => (hlive i).mp hi
  have hperm := built.validIn_perm hall
  refine ⟨t, built, ?_⟩
  exact
    { rep := app.rep
      root := hroot.symm
      shape := built.shape hpos
      stamped := built.stamped stamps (fun i hi => lt_of_isLive (hall i hi))
      placed := built.placed hall
      inBox := fun i hi => mem_bboxOf (hperm.mem_iff.mp hi)
      nodup := hperm.nodup_iff.mpr hnd
      complete := fun i => (hlive i).symm.trans hperm.mem_iff.symm }

theorem acceptPoint_vacant (x : Point Dim K) (h : Sound s none) (hn : (s.acceptPoint env x).NoWrap) :
    ∃ t', Built env.counter (s.points.acquire x).1 s.cfg.leafBucketSize [(s.points.acquire x).2] t' ∧
      Sound (s.acceptPoint env x) (some t') := by
  obtain ⟨window, free, hring⟩ := h.ring
  obtain ⟨hroot, hnone⟩ := h.reads
  obtain ⟨free', hring'⟩ := acquire_ring hring x
  have heq : s.acceptPoint env x =
      { s with points := (s.points.acquire x).1 }.rebuild env [(s.points.acquire x).2] := by
    simp only [acceptPoint, hroot, ↓reduceIte]
  have hpoints : (s.acceptPoint env x).points = (s.points.acquire x).1 := by
    rw [heq, rebuild_points]
  have hcfg : (s.acceptPoint env x).cfg = s.cfg := (acceptPoint_later s x).cfg
  have hlive : ∀ i, i ∈ [(s.points.acquire x).2] ↔ (s.points.acquire x).1.isLive i = true := by
    intro i
    rw [acquire_isLive x hring, hnone i]
    simp
  obtain ⟨t', built, holds⟩ := rebuild_holds env (s := { s with points := (s.points.acquire x).1 })
    h.pos h.small (hpoints ▸ hn.stamps) (by simp) (List.nodup_singleton _) hlive (heq ▸ hn.pools)
  refine ⟨t', built, ?_⟩
  exact
    { pos := hcfg ▸ h.pos
      small := hcfg ▸ h.small
      noWrap := hn
      ring := hpoints ▸ ⟨_, _, hring'⟩
      reads := heq ▸ holds }

theorem acceptPoint_holds (x : Point Dim K) {t : Tree Dim K} (h : Sound s (some t))
    (hn : (s.acceptPoint env x).NoWrap) :
    ∃ t', Inserted (s.builder env) (s.points.acquire x).1 (s.points.acquire x).2 t t' ∧
      Sound (s.acceptPoint env x) (some t') := by
  obtain ⟨window, free, hring⟩ := h.ring
  have holds : Holds s t := h.reads
  obtain ⟨free', hring'⟩ := acquire_ring hring x
  have heq : s.acceptPoint env x =
      { s with
        points := (s.points.acquire x).1
        rootBBox := s.rootBBox.expand ((s.points.acquire x).1.point (s.points.acquire x).2)
        pools := (s.builder env).insertIndex (s.points.acquire x).1 (s.points.acquire x).2
          s.pools.nodes.length s.pools t.id } := by
    simp only [acceptPoint, holds.root_valid h.noWrap, ↓reduceIte, holds.root]
    rfl
  rw [heq] at hn ⊢
  have stamps : (s.points.acquire x).1.StampsFit := hn.stamps
  have hlive : (s.points.acquire x).1.isLive (s.points.acquire x).2 = true :=
    acquire_self_live x hring
  obtain ⟨t', ins, hup⟩ := insertIndex_spec (b := s.builder env) h.pos h.small holds.rep
    holds.shape _ holds.height_lt hn.pools
  have hperm := ins.validIn_perm hlive
  rw [Tree.validIn_acquire hring x stamps holds.stamped] at hperm
  refine ⟨t', ins, ?_⟩
  exact
    { pos := h.pos
      small := h.small
      noWrap := hn
      ring := ⟨_, _, hring'⟩
      reads :=
        { rep := hup.rep
          root := hup.id_eq.trans holds.root
          shape := ins.shape h.pos holds.shape
          stamped := ins.stamped stamps ((s.points.acquire_capacity x).symm ▸ acquire_lt x hring)
            (holds.stamped.acquire hring x)
          placed := ins.placed hlive
            (holds.placed.fewer (Tree.fewer_acquire hring x stamps holds.stamped))
          inBox := by
            intro i hi
            rcases List.mem_cons.mp (hperm.mem_iff.mp hi) with rfl | hi
            · exact BBox.mem_expand_self _ _
            · obtain ⟨hi, hne⟩ := List.mem_filter.mp hi
              refine BBox.Mem.expand ?_ _
              rw [acquire_point x hring, if_neg (by simpa using hne)]
              exact holds.inBox i hi
          nodup := by
            rw [hperm.nodup_iff, List.nodup_cons]
            exact ⟨by simp, holds.nodup.filter _⟩
          complete := by
            intro i
            rw [acquire_isLive x hring, hperm.mem_iff, List.mem_cons, List.mem_filter,
              holds.complete i]
            by_cases hi : i = (s.points.acquire x).2 <;> simp [hi] } }

section
omit [NeZero Dim]

/-- Releasing live slots and discounting them in the tree keeps store and tree together. -/
theorem Sound.releasing {u : KDTreeImpl Dim K} {t t' : Tree Dim K} {l : List ℕ}
    (h : Sound s (some t)) (hcfg : u.cfg = s.cfg) (hbox : u.rootBBox = s.rootBBox)
    (hroot : u.root = s.root) (hpts : u.points = s.points.releaseAll l)
    (hl : ∀ i ∈ l, s.points.isLive i = true) (hd : l.Nodup) (hdrop : t'.dropLive = t.dropLive)
    (hup : t.Update s.pools u.pools t') (hn : u.NoWrap) : Sound u (some t') := by
  obtain ⟨window, free, hring⟩ := h.ring
  have holds : Holds s t := h.reads
  obtain ⟨window', free', hring', -⟩ :=
    releaseAll_swapRemoved hring (fun i hi => (hring.isLive_iff i).mp (hl i hi)) hd
  have hvalid : t'.validIn u.points = (t.validIn s.points).filter (fun j => decide (j ∉ l)) := by
    rw [hpts, Tree.validIn_of_dropLive hdrop, Tree.validIn_releaseAll]
  exact
    { pos := hcfg ▸ h.pos
      small := hcfg ▸ h.small
      noWrap := hn
      ring := by
        rw [hpts]
        exact ⟨_, _, hring'⟩
      reads :=
        { rep := hup.rep
          root := (hup.id_eq.trans holds.root).trans hroot.symm
          shape := by
            rw [hcfg]
            exact Tree.shape_of_dropLive hdrop holds.shape
          stamped := by
            rw [hpts]
            exact Tree.stamped_of_dropLive hdrop (holds.stamped.releaseAll _)
          placed := by
            rw [hpts]
            exact Tree.placed_of_dropLive hdrop (holds.placed.fewer (Tree.fewer_releaseAll _ _ t))
          inBox := by
            intro j hj
            rw [hvalid] at hj
            rw [hbox, hpts, releaseAll_point]
            exact holds.inBox j (List.mem_filter.mp hj).1
          nodup := by
            rw [hvalid]
            exact holds.nodup.filter _
          complete := by
            intro j
            rw [hvalid, hpts, releaseAll_isLive, Bool.and_eq_true, List.mem_filter,
              holds.complete j] } }

theorem removeIndex_holds (i : ℕ) {t : Tree Dim K} (h : Sound s (some t))
    (hi : s.points.isLive i = true) (hn : (s.removeIndex env i).NoWrap) :
    Sound (s.removeIndex env i) (some (t.tombstone env.counter (s.points.point i))) := by
  have holds : Holds s t := h.reads
  have hup := tombstoneIndex_spec env.counter (s.points.point i) holds.rep _ holds.height_lt
    s.modifiedNodes
  rw [holds.root] at hup
  have hdrop := t.dropLive_tombstone env.counter (s.points.point i)
  have hone : ∀ j ∈ [i], s.points.isLive j = true := List.forall_mem_singleton.mpr hi
  exact h.releasing rfl rfl rfl rfl hone (List.nodup_singleton i) hdrop hup hn

def hitSlots (s : KDTreeImpl Dim K) (rg : Region Dim K) (t : Tree Dim K) : List ℕ :=
  goneIn s.points rg.hit t.entries

theorem mem_hitSlots {rg : Region Dim K} {t : Tree Dim K} {i : ℕ} :
    i ∈ s.hitSlots rg t ↔ i ∈ t.validIn s.points ∧ rg.hit (s.points.point i) = true := by
  rw [hitSlots, goneIn_eq]
  exact List.mem_filter

theorem hitSlots_nodup (rg : Region Dim K) {t : Tree Dim K} (h : Holds s t) :
    (s.hitSlots rg t).Nodup := by
  rw [hitSlots, goneIn_eq]
  exact h.nodup.filter _

theorem deleteRegion_vacant (c : Counter) (rg : Region Dim K) (h : Vacant s) :
    deleteRegion c s rg = (s, 0) := by
  simp only [deleteRegion, h.root, ↓reduceIte]

theorem deleteRegion_holds (c : Counter) (rg : Region Dim K) {t : Tree Dim K}
    (h : Sound s (some t)) (hn : (deleteRegion c s rg).1.NoWrap) :
    ∃ t', t.Discounted c (gone s.points rg.hit) t' ∧
      Sound (deleteRegion c s rg).1 (some t') ∧
      (deleteRegion c s rg).1.points = s.points.releaseAll (s.hitSlots rg t) ∧
      (deleteRegion c s rg).2 = (s.hitSlots rg t).length := by
  have holds : Holds s t := h.reads
  have herased := deleteRecurse_spec (c := c) rg holds.rep _ holds.height_lt holds.nodup holds.placed
    s.rootBBox holds.inBox s.modifiedNodes
  rw [holds.root] at herased
  simp only [deleteRegion, holds.root_valid h.noWrap, ↓reduceIte] at hn ⊢
  obtain ⟨hpts, hcleared, t', hdisc, hup⟩ := herased
  have hhit : ∀ i ∈ s.hitSlots rg t, s.points.isLive i = true :=
    fun i hi => (holds.complete i).mpr (mem_hitSlots.mp hi).1
  refine ⟨t', hdisc, ?_, hpts, hcleared.trans (goneIn_length _).symm⟩
  exact h.releasing rfl rfl rfl hpts hhit (hitSlots_nodup rg holds) hdisc.dropLive hup hn

end

theorem sweepFull_vacant (h : Sound s none) (hn : (s.maybePartialRebuildFull env).NoWrap) :
    Sound (s.maybePartialRebuildFull env) none := by
  have hroot : s.root = invalid := h.reads.root
  simp only [maybePartialRebuildFull, hroot, ↓reduceIte] at hn ⊢
  exact ⟨h.pos, h.small, hn, h.ring, ⟨rfl, h.reads.none⟩⟩

omit [NeZero Dim] in
theorem Sound.renewed {t t' : Tree Dim K} {p : Pools Dim K} (h : Sound s (some t))
    (hup : t.Update s.pools p t') (hnew : t.Renewed s.points s.cfg.leafBucketSize t') (M : List ℕ)
    (hn : ({ s with pools := p, modifiedNodes := M } : KDTreeImpl Dim K).NoWrap) :
    Sound { s with pools := p, modifiedNodes := M } (some t') := by
  have holds : Holds s t := h.reads
  exact
    { pos := h.pos
      small := h.small
      noWrap := hn
      ring := h.ring
      reads :=
        { rep := hup.rep
          root := hup.id_eq.trans holds.root
          shape := hnew.shape h.pos holds.shape
          stamped := hnew.stamped h.noWrap.stamps holds.stamped
          placed := hnew.placed holds.placed
          inBox := fun i hi => holds.inBox i (hnew.perm.mem_iff.mp hi)
          nodup := hnew.perm.nodup_iff.mpr holds.nodup
          complete := fun i => (holds.complete i).trans hnew.perm.mem_iff.symm } }

theorem sweepFull_holds {t : Tree Dim K} (h : Sound s (some t))
    (hn : (s.maybePartialRebuildFull env).NoWrap) :
    ∃ t', Swept (s.builder env) s.points (fun _ => true) true t t' ∧
      Sound (s.maybePartialRebuildFull env) (some t') := by
  have holds : Holds s t := h.reads
  have heq : s.maybePartialRebuildFull env =
      { s with
        pools := (s.builder env).sweepFull s.points s.pools.nodes.length s.pools t.id
        modifiedNodes := [] } := by
    simp only [maybePartialRebuildFull, holds.root_valid h.noWrap, ↓reduceIte, holds.root]
    rfl
  rw [heq] at hn ⊢
  obtain ⟨t', hs, hup⟩ := sweep_spec (b := s.builder env) h.pos h.small holds.rep holds.shape _
    holds.height_lt hn.pools
  exact ⟨t', hs, h.renewed hup hs.renewed [] hn⟩

theorem sweep_vacant (h : Sound s none) (hn : (s.maybePartialRebuild env).NoWrap) :
    Sound (s.maybePartialRebuild env) none := by
  have hroot : s.root = invalid := h.reads.root
  simp only [maybePartialRebuild, hroot, true_or, ↓reduceIte] at hn ⊢
  exact ⟨h.pos, h.small, hn, h.ring, ⟨rfl, h.reads.none⟩⟩

theorem sweep_eq (env : Env K) (hroot : s.root ≠ invalid) (hm : s.modifiedNodes ≠ []) :
    s.maybePartialRebuild env =
      { s with
        pools := (s.builder env).sweep s.points s.visits s.pools.nodes.length s.pools s.root
        modifiedNodes := [] } := by
  by_cases hmany : s.pools.nodes.length ≤ s.modifiedNodes.length
  · have hvisits : s.visits = fun _ => true := by
      funext i
      simp [visits, hmany]
    simp only [maybePartialRebuild, hroot, hm, hmany, or_self, ↓reduceIte, hvisits]
    rfl
  · have hvisits : s.visits =
        fun i => decide (i ∈ (s.modifiedNodes.insertionSort (· ≤ ·)).destutter (· ≠ ·)) := by
      funext i
      simp [visits, hmany]
    simp only [maybePartialRebuild, hroot, hm, hmany, or_self, ↓reduceIte, hvisits]
    rfl

theorem sweep_holds {t : Tree Dim K} (h : Sound s (some t))
    (hn : (s.maybePartialRebuild env).NoWrap) :
    ∃ called t', Swept (s.builder env) s.points s.visits called t t' ∧
      Sound (s.maybePartialRebuild env) (some t') := by
  have holds : Holds s t := h.reads
  have hroot := holds.root_valid h.noWrap
  by_cases hm : s.modifiedNodes = []
  · have heq : s.maybePartialRebuild env = { s with pools := s.pools, modifiedNodes := [] } := by
      simp only [maybePartialRebuild, hm, or_true, ↓reduceIte]
    rw [heq] at hn ⊢
    have hskip : Swept (s.builder env) s.points s.visits false t t := .skip t
    exact ⟨false, t, hskip, h.renewed (.refl holds.rep) hskip.renewed [] hn⟩
  · rw [sweep_eq env hroot hm] at hn ⊢
    have hfit := hn.pools
    dsimp only at hfit
    rw [← holds.root] at hfit
    obtain ⟨t', hs, hup⟩ := sweep_spec (b := s.builder env) h.pos h.small holds.rep holds.shape _
      holds.height_lt hfit
    rw [holds.root] at hup
    exact ⟨true, t', hs, h.renewed hup hs.renewed [] hn⟩

theorem rebuildAll_sound {o : Option (Tree Dim K)} (h : Sound s o)
    (hn : (s.rebuildAll env).NoWrap) :
    ∃ o', Evolved env s .rebuildAll o o' ∧ Sound (s.rebuildAll env) o' := by
  obtain ⟨window, free, hring⟩ := h.ring
  have hwindow := forEachLive_fst hring
  by_cases hne : window = []
  · have heq : s.rebuildAll env = { s with pools := Pools.clear, root := invalid } := by
      simp only [rebuildAll, hwindow, hne, ↓reduceIte]
    rw [heq] at hn ⊢
    refine ⟨none, .emptied o, h.pos, h.small, hn, h.ring, rfl, fun i => ?_⟩
    rw [Bool.eq_false_iff, ne_eq, hring.isLive_iff, hne]
    simp
  · have heq : s.rebuildAll env = { s with pools := Pools.clear }.rebuild env window := by
      simp only [rebuildAll, hwindow, hne, ↓reduceIte]
    rw [heq] at hn ⊢
    obtain ⟨t', built, holds⟩ := rebuild_holds env (s := { s with pools := Pools.clear })
      h.pos h.small h.noWrap.stamps hne hring.window_nodup
      (fun i => (hring.isLive_iff i).symm) hn.pools
    refine ⟨some t', .rebuilt o window t' (fun i => (hring.isLive_iff i).symm) built, ?_⟩
    exact
      { pos := by
          rw [rebuild_cfg]
          exact h.pos
        small := by
          rw [rebuild_cfg]
          exact h.small
        noWrap := hn
        ring := by
          rw [rebuild_points]
          exact ⟨_, _, hring⟩
        reads := holds }

/-- Every action that is ready keeps store and tree together. -/
theorem act_sound (env : Env K) (a : Action Dim K) {o : Option (Tree Dim K)} (h : Sound s o)
    (ready : s.Ready a)
    (hn : (s.act env a).NoWrap) : ∃ o', Evolved env s a o o' ∧ Sound (s.act env a) o' := by
  cases a with
  | insertPoint x =>
    cases hx : s.accepts x with
    | false =>
      rw [act_rejected env hx]
      exact ⟨o, .rejected x o hx, h⟩
    | true =>
      rw [act_inserts env hx] at hn ⊢
      cases o with
      | none =>
        obtain ⟨t', built, hs⟩ := acceptPoint_vacant x h hn
        exact ⟨some t', .first x t' hx built, hs⟩
      | some t =>
        obtain ⟨t', ins, hs⟩ := acceptPoint_holds x h hn
        exact ⟨some t', .inserted x t t' hx ins, hs⟩
  | removeIndex i =>
    cases o with
    | none => exact absurd ready (by simp [Ready, h.reads.none i])
    | some t => exact ⟨_, .tombstoned i t, removeIndex_holds i h ready hn⟩
  | deleteRegion rg =>
    cases o with
    | none =>
      have heq : s.act env (.deleteRegion rg) = s :=
        congrArg Prod.fst (deleteRegion_vacant env.counter rg h.reads)
      rw [heq]
      exact ⟨none, .missing rg, h⟩
    | some t =>
      obtain ⟨t', hd, hs, -⟩ := deleteRegion_holds env.counter rg h hn
      exact ⟨some t', .discounted rg t t' hd, hs⟩
  | sweepFull =>
    cases o with
    | none => exact ⟨none, .idleFull, sweepFull_vacant h hn⟩
    | some t =>
      obtain ⟨t', hs, hsound⟩ := sweepFull_holds h hn
      exact ⟨some t', .sweptFull t t' hs, hsound⟩
  | sweep =>
    cases o with
    | none => exact ⟨none, .idle, sweep_vacant h hn⟩
    | some t =>
      obtain ⟨called, t', hs, hsound⟩ := sweep_holds h hn
      exact ⟨some t', .swept called t t' hs, hsound⟩
  | rebuildAll => exact rebuildAll_sound h hn

end
end KDTreeImpl
end Copse

import Copse.ScopedSweep

set_option autoImplicit false

namespace Copse
open PointStore TreeBuilder TransitionRuns

theorem mem_destutter_ne {l : List ℕ} {i : ℕ} : i ∈ l.destutter (· ≠ ·) ↔ i ∈ l := by
  have from_head : ∀ (l : List ℕ) (a : ℕ), i ∈ l.destutter' (· ≠ ·) a ↔ i ∈ a :: l := by
    intro l
    induction l with
    | nil => simp
    | cons b l ih =>
      intro a
      by_cases hab : a = b
      · subst hab
        rw [List.destutter'_cons_neg _ (by simp), ih]
        simp
      · rw [List.destutter'_cons_pos _ hab, List.mem_cons, ih, ← List.mem_cons]
  cases l with
  | nil => simp
  | cons a l => exact from_head l a

namespace KDTreeImpl
variable {Dim : ℕ} [NeZero Dim] {K : Type*} [Field K] [LinearOrder K]

def dirty (s : KDTreeImpl Dim K) : List ℕ :=
  (s.modifiedNodes.insertionSort (· ≤ ·)).destutter (· ≠ ·)

/-- The nodes that a sweep over the records rebuilds. -/
def scopedRebuilds (env : Env K) (s : KDTreeImpl Dim K) : List ℕ :=
  ((s.builder env).sweepRebuilds s.points (fun i => decide (i ∈ s.dirty)) s.pools.nodes.length
    s.pools s.root).map Prod.snd

def fullRebuilds (env : Env K) (s : KDTreeImpl Dim K) : List ℕ :=
  ((s.builder env).sweepRebuilds s.points (fun _ => true) s.pools.nodes.length s.pools
    s.root).map Prod.snd

/-- Both sweeps rebuild the same nodes and leave the same pools, which are those that the call
leaves, and a violator among their nodes is in a subtree just built. -/
structure SweepsAgree (env : Env K) (s : KDTreeImpl Dim K) : Prop where
  rebuilds : ∀ i, i ∈ s.scopedRebuilds env ↔ i ∈ s.fullRebuilds env
  pools : (s.builder env).sweepScoped s.points s.dirty s.pools.nodes.length s.pools s.root =
    (s.builder env).sweepFull s.points s.pools.nodes.length s.pools s.root
  taken : (s.maybePartialRebuild env).pools =
    (s.builder env).sweepFull s.points s.pools.nodes.length s.pools s.root
  settled : ∀ d i, (s.maybePartialRebuild env).pools.Below s.root d i →
    (s.builder env).isViolator (s.maybePartialRebuild env).pools i = true →
    ∃ j ∈ s.scopedRebuilds env, ∃ e, (s.maybePartialRebuild env).pools.Below j e i

def releasedWhole (env : Env K) (s : KDTreeImpl Dim K) : Action Dim K → List ℕ
  | .deleteRegion rg =>
    if s.root = invalid then []
    else wholeReleases env.counter rg s.pools.nodes.length s.pools s.points s.root s.rootBBox
      s.modifiedNodes
  | _ => []

section
variable {env : Env K} {cfg : Config K} {s u : KDTreeImpl Dim K} {t : Tree Dim K}

omit [NeZero Dim] [LinearOrder K] in
theorem mem_dirty {i : ℕ} : i ∈ s.dirty ↔ i ∈ s.modifiedNodes := by
  rw [dirty, mem_destutter_ne, List.mem_insertionSort]

omit [NeZero Dim] [LinearOrder K] in
theorem visits_of_mem {i : ℕ} (h : i ∈ s.modifiedNodes) : s.visits i = true := by
  have hd : i ∈ (s.modifiedNodes.insertionSort (· ≤ ·)).destutter (· ≠ ·) := mem_dirty.mpr h
  rw [visits, decide_eq_true hd, Bool.or_true]

theorem Planted.taken (env : Env K) (h : Planted u t) (hroot : u.root ≠ invalid)
    (hclosed : t.Closed u.modifiedNodes)
    (hcov : (u.builder env).Covered u.modifiedNodes t) :
    (u.maybePartialRebuild env).pools =
      (u.builder env).sweep u.points u.visits u.pools.nodes.length u.pools u.root := by
  by_cases hm : u.modifiedNodes = []
  · rw [hm] at hclosed hcov
    have hok := settled_of_unrecorded hclosed hcov List.not_mem_nil
    have hidle : (u.builder env).sweep u.points u.visits u.pools.nodes.length u.pools t.id =
        u.pools := sweep_idle h.rep h.shape hok _
    rw [← h.root, hidle]
    simp only [maybePartialRebuild, hm, or_true, ↓reduceIte]
  · rw [sweep_eq env hroot hm]

theorem Planted.agree_of_covered (h : Planted u t) (hpos : 0 < u.cfg.leafBucketSize)
    (hB : 2 * u.cfg.leafBucketSize < 2 ^ 16) (hroot : u.root ≠ invalid)
    (hclosed : t.Closed u.modifiedNodes) (hcov : (u.builder env).Covered u.modifiedNodes t)
    (fit : (u.maybePartialRebuild env).pools.Fit) : SweepsAgree env u := by
  have htaken := h.taken env hroot hclosed hcov
  rw [htaken, ← h.root] at fit
  have hfull := sweep_agree (b := u.builder env) (w := fun _ => true) hpos hB
    (fun i hi => visits_of_mem hi) (fun _ _ => rfl) h.rep h.shape hclosed hcov _ h.height_lt fit
  have hscoped := sweep_agree (b := u.builder env) (w := fun i => decide (i ∈ u.dirty)) hpos hB
    (fun i hi => visits_of_mem hi) (fun i hi => decide_eq_true (mem_dirty.mpr hi)) h.rep h.shape
    hclosed hcov _ h.height_lt fit
  rw [← hfull.1] at fit
  obtain ⟨t', hup, hshelter⟩ := sweep_shelters (b := u.builder env) hpos hB h.rep h.shape _
    h.height_lt fit
  rw [h.root] at hfull hscoped hup hshelter
  have hsame : u.scopedRebuilds env = u.fullRebuilds env :=
    congrArg (List.map Prod.snd) (hscoped.2.trans hfull.2.symm)
  refine ⟨fun i => by rw [hsame], hscoped.1.trans hfull.1.symm, htaken.trans hfull.1.symm, ?_⟩
  rw [htaken, ← hfull.1, hsame]
  intro d i hi hv
  have hb : ((u.builder env).sweep u.points (fun _ => true) u.pools.nodes.length u.pools
      u.root).Below t'.id d i := by
    rw [hup.id_eq, h.root]
    exact hi
  obtain ⟨v, hs, rfl⟩ := hup.rep.below_iff.mp hb
  rw [isViolator_eq _ (hs.rep hup.rep)] at hv
  obtain ⟨e, f, a, ha, hJ, hav⟩ := hshelter.above hs hv
  exact ⟨a.id, hJ, f, (ha.rep hup.rep).below_iff.mpr ⟨v, hav, rfl⟩⟩

theorem Planted.covered_of_agree (h : Planted u t) (hpos : 0 < u.cfg.leafBucketSize)
    (hB : 2 * u.cfg.leafBucketSize < 2 ^ 16) (hmem : u.root ∈ u.modifiedNodes)
    (fit : (u.maybePartialRebuild env).pools.Fit) (hagree : SweepsAgree env u) :
    (u.builder env).Covered u.modifiedNodes t := by
  rw [hagree.taken, ← h.root] at fit
  refine covered_of_rebuilds hpos hB h.rep h.shape _ h.height_lt fit (fun m hm => ?_)
  rw [h.root] at hm
  obtain ⟨m', hm', heq⟩ := List.mem_map.mp ((hagree.rebuilds m.2).mpr (List.mem_map_of_mem hm))
  rw [← heq]
  rcases sweepRebuilds_visited _ _ m' hm' with hr | hr
  · rw [hr]
    exact hmem
  · exact mem_dirty.mp (of_decide_eq_true hr)

theorem act_canonical (env : Env K) (a : Action Dim K) (h : s.pools.Canonical env.counter) :
    (s.act env a).pools.Canonical env.counter := by
  have clear : (Pools.clear : Pools Dim K).Canonical env.counter := fun i => by
    cases env.counter <;> rfl
  cases a with
  | insertPoint x =>
    cases hx : s.accepts x with
    | false =>
      rw [act_rejected env hx]
      exact h
    | true =>
      rw [act_inserts env hx]
      simp only [acceptPoint]
      split_ifs
      · simp only [rebuild, List.cons_ne_nil, ↓reduceIte]
        exact buildRecursive_canonical _ h _
      · exact insertIndex_canonical (b := s.builder env) _ _ h _
  | removeIndex i => exact (tombstoneIndex_recorded _ _ h _ _).1
  | deleteRegion rg =>
    simp only [act, deleteRegion]
    split_ifs
    · exact h
    · exact (deleteRecurse_deleted rg _ h _ _ _ _).canonical
  | sweepFull =>
    simp only [act, maybePartialRebuildFull]
    split_ifs
    · exact h
    · exact sweep_canonical (b := s.builder env) _ _ h _
  | sweep =>
    simp only [act, maybePartialRebuild]
    split_ifs
    · exact h
    · exact sweep_canonical (b := s.builder env) _ _ h _
    · exact sweep_canonical (b := s.builder env) _ _ h _
  | rebuildAll =>
    simp only [act, rebuildAll]
    split_ifs with hl
    · exact clear
    · simp only [rebuild, hl, ↓reduceIte]
      exact buildRecursive_canonical _ clear _

/-- What the deletes of a call have recorded when the call comes to state `u`. -/
structure Logged (env : Env K) (s : KDTreeImpl Dim K) (whole : List ℕ) (u : KDTreeImpl Dim K) :
    Prop where
  cfg : u.cfg = s.cfg
  root : u.root = s.root
  canonical : u.pools.Canonical env.counter
  recorded : s.pools.Recorded s.modifiedNodes whole s.root u.pools u.modifiedNodes

theorem Logged.act {whole : List ℕ} {a : Action Dim K} (h : Logged env s whole u)
    (ha : (∃ i, a = .removeIndex i) ∨ ∃ rg, a = .deleteRegion rg)
    (hwhole : ∀ r ∈ u.releasedWhole env a, r ∈ whole) : Logged env s whole (u.act env a) := by
  have hcan := act_canonical env a h.canonical
  rcases ha with ⟨i, rfl⟩ | ⟨rg, rfl⟩
  · have hrec := (tombstoneIndex_recorded (u.points.point i) u.pools.nodes.length h.canonical u.root
      u.modifiedNodes).2
    refine ⟨h.cfg, h.root, hcan, h.recorded.trans (h.root ▸ hrec.mono ?_)⟩
    exact List.forall_mem_nil _
  · simp only [KDTreeImpl.act, deleteRegion, releasedWhole] at hcan hwhole ⊢
    split_ifs at hcan hwhole ⊢
    · exact h
    · have hrec := (deleteRecurse_deleted rg u.pools.nodes.length h.canonical u.points u.root
        u.rootBBox u.modifiedNodes).recorded
      exact ⟨h.cfg, h.root, hcan, h.recorded.trans (h.root ▸ hrec.mono hwhole)⟩

theorem sweep_modified (env : Env K) (s : KDTreeImpl Dim K) :
    (s.maybePartialRebuild env).modifiedNodes = [] := by
  simp only [maybePartialRebuild]
  split_ifs <;> rfl

theorem sweepFull_modified (env : Env K) (s : KDTreeImpl Dim K) :
    (s.maybePartialRebuildFull env).modifiedNodes = [] := by
  simp only [maybePartialRebuildFull]
  split_ifs <;> rfl

theorem insertLoop_modified (env : Env K) (batch : List (Point Dim K))
    (h : s.modifiedNodes = []) : (insertLoop env s batch).1.modifiedNodes = [] := by
  rw [insertLoop_fst]
  refine ((stepsOf_chain (KDTreeImpl.act env) s (batch.map Action.insertPoint)).invariant
    (P := fun s => s.modifiedNodes = []) (fun m hm hs => ?_) h).2
  obtain ⟨x, -, hx⟩ := List.mem_map.mp (mem_stepsOf_snd hm)
  rw [← hx]
  simp only [KDTreeImpl.act, insertPoint]
  split_ifs
  · simp only [acceptPoint]
    split_ifs
    · simp only [rebuild, List.cons_ne_nil, ↓reduceIte]
    · exact hs
  · exact hs

omit [NeZero Dim] in
theorem removeLoop_idle (env : Env K) (queries : List (Point Dim K))
    (h : (removeLoop env s queries).2 = 0) : (removeLoop env s queries).1 = s := by
  induction queries generalizing s with
  | nil => rfl
  | cons query rest ih =>
    change (s.matchesOf query).length + _ = 0 at h
    have hfound : s.matchesOf query = [] := List.length_eq_zero_iff.mp (by omega)
    simp only [removeLoop, hfound, List.foldl_nil, List.length_nil, Nat.zero_add] at h ⊢
    exact ih h

omit [NeZero Dim] in
theorem deleteRegion_idle (rg : Region Dim K) (hcan : s.pools.Canonical env.counter)
    (h : (deleteRegion env.counter s rg).2 = 0) :
    (deleteRegion env.counter s rg).1.modifiedNodes = s.modifiedNodes := by
  simp only [deleteRegion] at h ⊢
  split_ifs at h ⊢
  · rfl
  · exact ((deleteRecurse_deleted rg _ hcan _ _ _ _).idle h).2

variable [IsStrictOrderedRing K]

omit [IsStrictOrderedRing K] in
theorem boxDeleteLoop_idle (boxes : List (BBox Dim K)) (hcan : s.pools.Canonical env.counter)
    (h : (boxDeleteLoop env s boxes).2 = 0) :
    (boxDeleteLoop env s boxes).1.modifiedNodes = s.modifiedNodes := by
  induction boxes generalizing s with
  | nil => rfl
  | cons box rest ih =>
    have hsum : (s.boxDeleteOne env box).2 + (boxDeleteLoop env (s.boxDeleteOne env box).1 rest).2 =
        0 := h
    have hone := deleteRegion_idle (Region.box box) hcan (Nat.eq_zero_of_add_eq_zero_right hsum)
    have hnext := act_canonical env (.deleteRegion (Region.box box)) hcan
    exact (ih hnext (Nat.eq_zero_of_add_eq_zero_left hsum)).trans hone

theorem apply_modified (op : Op Dim K) (hcan : s.pools.Canonical env.counter)
    (h : s.modifiedNodes = []) : (s.apply env op).1.modifiedNodes = [] := by
  cases op with
  | insert batch =>
    change (if 0 < (insertLoop env s batch).2 then _ else _ : KDTreeImpl Dim K).modifiedNodes = []
    split_ifs
    · exact sweepFull_modified env _
    · exact insertLoop_modified env batch h
  | remove queries =>
    change (if 0 < (removeLoop env s queries).2 then _ else _ : KDTreeImpl Dim K).modifiedNodes = []
    split_ifs with hc
    · exact sweep_modified env _
    · rw [removeLoop_idle env queries (by omega)]
      exact h
  | boxDelete boxes =>
    change (if 0 < (boxDeleteLoop env s boxes).2 then _ else _ :
      KDTreeImpl Dim K).modifiedNodes = []
    split_ifs with hc
    · exact sweep_modified env _
    · exact (boxDeleteLoop_idle boxes hcan (by omega)).trans h
  | radiusCrop center r =>
    change (if 0 < (s.radiusCropOne env center r).2 then _ else _ :
      KDTreeImpl Dim K).modifiedNodes = []
    split_ifs with hc
    · exact sweep_modified env _
    · exact (deleteRegion_idle _ hcan (Nat.eq_zero_of_not_pos hc)).trans h
  | rebuildAll =>
    change (s.rebuildAll env).modifiedNodes = []
    simp only [rebuildAll]
    split_ifs with hl
    · exact h
    · simp only [rebuild, hl, ↓reduceIte]

theorem before_sweep {op : Op Dim K} (hu : (u, Action.sweep) ∈ s.steps env op) :
    ∃ l, s.steps env op = l ++ [(u, .sweep)] ∧ Chain (KDTreeImpl.act env) s l u ∧
      ∀ m ∈ l, (∃ i, m.2 = .removeIndex i) ∨ ∃ rg, m.2 = .deleteRegion rg := by
  have closes : ∀ {r : KDTreeImpl Dim K × ℕ}, (u, Action.sweep) ∈ closing r Action.sweep →
      r.1 = u ∧ closing r Action.sweep = [(u, Action.sweep)] := by
    intro r hm
    have hr : u = r.1 := congrArg Prod.fst (mem_closing hm)
    rw [closing] at hm ⊢
    split_ifs at hm ⊢
    · exact ⟨hr.symm, by rw [hr]⟩
    · cases hm
  cases op with
  | insert batch =>
    have htakes := steps_takes hu
    simp [Op.Takes] at htakes
  | remove queries =>
    rcases List.mem_append.mp hu with hm | hm
    · obtain ⟨i, hi⟩ := mem_removeSteps hm
      cases hi
    · obtain ⟨hr, hlast⟩ := closes hm
      exact ⟨_, congrArg _ hlast, hr ▸ removeSteps_chain queries,
        fun m hm => Or.inl (mem_removeSteps hm)⟩
  | boxDelete boxes =>
    rcases List.mem_append.mp hu with hm | hm
    · obtain ⟨box, -, heq⟩ := List.mem_map.mp (mem_stepsOf_snd hm)
      cases heq
    · obtain ⟨hr, hlast⟩ := closes hm
      have hloop := stepsOf_chain (KDTreeImpl.act env) s
        (boxes.map (fun box => Action.deleteRegion (Region.box box)))
      rw [← boxDeleteLoop_fst, hr] at hloop
      refine ⟨_, congrArg _ hlast, hloop, fun m hm => Or.inr ?_⟩
      obtain ⟨box, -, heq⟩ := List.mem_map.mp (mem_stepsOf_snd hm)
      exact ⟨_, heq.symm⟩
  | radiusCrop center r =>
    rcases List.mem_cons.mp hu with hm | hm
    · cases hm
    · obtain ⟨hr, hlast⟩ := closes hm
      refine ⟨[(s, .deleteRegion (Region.crop center (r * r)))], congrArg _ hlast, ?_, ?_⟩
      · exact .cons _ (hr ▸ .nil _)
      · exact List.forall_mem_singleton.mpr (Or.inr ⟨_, rfl⟩)
  | rebuildAll =>
    have htakes := steps_takes hu
    cases htakes

/-- What the deletes of a call have recorded when its sweep begins. -/
theorem logged_before_sweep {op : Op Dim K} (hcan : s.pools.Canonical env.counter)
    (hu : (u, Action.sweep) ∈ s.steps env op) :
    Logged env s ((s.steps env op).flatMap (fun m => m.1.releasedWhole env m.2)) u := by
  obtain ⟨l, hsteps, hchain, hl⟩ := before_sweep hu
  refine (hchain.invariant (P := Logged env s _) (fun m hm h => ?_) ?_).2
  · refine h.act (hl m hm) (fun r hr => List.mem_flatMap.mpr ⟨m, ?_, hr⟩)
    rw [hsteps]
    exact List.mem_append_left _ hm
  · exact ⟨rfl, rfl, hcan, .refl _ _ _ _⟩

theorem PoolsReachable.tidy (h : PoolsReachable env cfg s) :
    s.pools.Canonical env.counter ∧ s.modifiedNodes = [] := by
  refine Reach.invariant
    (P := fun s => s.pools.Canonical env.counter ∧ s.modifiedNodes = []) ?_ ?_ h
  · intro s hs
    have hf := create_fresh hs
    refine ⟨fun i => ?_, hf.modifiedNodes⟩
    rw [hf.pools]
    cases env.counter <;> rfl
  · rintro s op s' - ⟨hcan, hmod⟩ ⟨rfl, -⟩
    refine ⟨?_, apply_modified op hcan hmod⟩
    exact ((steps_chain env s op).invariant (P := fun s => s.pools.Canonical env.counter)
      (fun m _ hc => act_canonical env m.2 hc) hcan).2

section
omit [IsStrictOrderedRing K]

omit [NeZero Dim] in
theorem isViolator_congr (b : TreeBuilder K) {p q : Pools Dim K} (h : p.SameShape q) {i : ℕ}
    (hlive : (q.node i).subtreeLiveCount = (p.node i).subtreeLiveCount) :
    b.isViolator q i = b.isViolator p i := by
  simp only [isViolator, (h i).1, (h i).2, hlive]
  split
  · rfl
  · rw [(h _).2, (h _).2]

theorem agree_of_invalid (env : Env K) (hroot : u.root = invalid) (fit : u.pools.Fit) :
    SweepsAgree env u := by
  have hpools : (u.maybePartialRebuild env).pools = u.pools := by
    simp only [maybePartialRebuild, hroot, true_or, ↓reduceIte]
  have hsweep : ∀ visit fuel, (u.builder env).sweep u.points visit fuel u.pools u.root = u.pools := by
    intro visit fuel
    cases fuel with
    | zero => rfl
    | succ fuel => rw [TreeBuilder.sweep, if_pos hroot]
  refine ⟨fun i => ?_, ?_, hpools.trans (hsweep _ _).symm, fun d i hi hv => ?_⟩
  · rw [scopedRebuilds, fullRebuilds, hroot, sweepRebuilds_invalid, sweepRebuilds_invalid]
  · exact (hsweep _ _).trans (hsweep _ _).symm
  · rw [hpools, hroot] at hi
    rw [hpools, isViolator_below_invalid _ fit hi] at hv
    cases hv

omit [NeZero Dim] in
/-- A violator in a state without violators before the deletes is recorded, or it lies below a
recorded node that was released as a whole. -/
theorem Logged.violator {whole : List ℕ} (h : Logged env s whole u)
    (hquiet : ∀ d i, s.pools.Below s.root d i → (s.builder env).isViolator s.pools i = false)
    {d i : ℕ} (hi : u.pools.Below u.root d i)
    (hv : (u.builder env).isViolator u.pools i = true) :
    i ∈ u.modifiedNodes ∨
      ∃ r ∈ whole, r ∈ u.modifiedNodes ∧ ∃ e, u.pools.Below r (e + 1) i := by
  have hshape := h.recorded.shape
  have hb : u.builder env = s.builder env := by rw [builder, builder, h.cfg]
  by_cases hlive : (u.pools.node i).subtreeLiveCount = (s.pools.node i).subtreeLiveCount
  · have hbefore := hquiet d i (h.root ▸ hi.lift hshape)
    rw [hb, isViolator_congr _ hshape hlive, hbefore] at hv
    cases hv
  · rcases h.recorded.changed i hlive with hleaf | hrec | ⟨r, hr, hrM, e, he⟩
    · rw [isViolator, (hshape i).1] at hv
      rw [TreeNode.isLeaf] at hleaf
      split at hleaf
      · rename_i heq
        rw [heq] at hv
        cases hv
      · cases hleaf
    · exact Or.inl hrec
    · exact Or.inr ⟨r, hr, hrM, e, he.lift hshape.symm⟩

end

/-- From a reachable state without violators, the sweep after a delete agrees with a full sweep
exactly when every violator below a node released as a whole has a recorded one above it. -/
theorem sweeps_agree_iff (hB : 2 * cfg.leafBucketSize ≤ 65535) (h : PoolsReachable env cfg s)
    (hquiet : ∀ d i, s.pools.Below s.root d i → (s.builder env).isViolator s.pools i = false)
    (op : Op Dim K) (fit : (s.apply env op).1.pools.Fit)
    (hu : (u, Action.sweep) ∈ s.steps env op) :
    SweepsAgree env u ↔
      ∀ m ∈ s.steps env op, ∀ r ∈ m.1.releasedWhole env m.2, ∀ d e i,
        u.pools.Below u.root d i → u.pools.Below r (e + 1) i →
        (u.builder env).isViolator u.pools i = true →
        (u.builder env).Screened u.pools u.modifiedNodes u.root i := by
  obtain ⟨hcfg, hfit, hshaped⟩ := h.shaped hB
  obtain ⟨hcan, hclear⟩ := h.tidy
  obtain ⟨hucfg, hushaped⟩ := (steps_shaped hB hcfg hshaped fit).1 _ hu
  have hlog := logged_before_sweep hcan hu
  have ufit : u.pools.Fit := steps_fit_before hfit fit _ hu
  have sfit : (u.maybePartialRebuild env).pools.Fit := steps_fit fit _ hu
  have hpos : 0 < u.cfg.leafBucketSize := hucfg ▸ hcfg.2.leafBucketSize
  have hsmall : 2 * u.cfg.leafBucketSize < 2 ^ 16 := by
    rw [hucfg]
    omega
  have hsource := fun {d i : ℕ} => hlog.violator hquiet (d := d) (i := i)
  have htrail : ∀ j ∈ u.modifiedNodes, u.pools.Trail u.modifiedNodes u.root j := by
    intro j hj
    rcases hlog.recorded.trail j hj with hj | hj
    · rw [hclear] at hj
      cases hj
    · rw [hlog.root]
      exact hj.lift hlog.recorded.shape.symm (fun _ hk => hk)
  by_cases hroot : u.root = invalid
  · refine ⟨fun _ m _ r _ d e i hi _ hv => ?_, fun _ => agree_of_invalid env hroot ufit⟩
    rw [hroot] at hi
    rw [isViolator_below_invalid _ ufit hi] at hv
    cases hv
  obtain ⟨t, ht⟩ := hushaped.resolve_left hroot
  have hclosed : t.Closed u.modifiedNodes :=
    closed_of_trails ht.rep (fun j hj _ => ht.root ▸ htrail j hj)
  constructor
  · intro hagree m _ r _ d e i hi _ hv
    have hmem : u.root ∈ u.modifiedNodes := by
      rcases hsource hi hv with hrec | ⟨r', -, hrec, -⟩
      · exact (htrail i hrec).head
      · exact (htrail r' hrec).head
    have hcov := ht.covered_of_agree hpos hsmall hmem sfit hagree
    rw [← ht.root] at hi ⊢
    exact hcov.screened ht.rep hi hv
  · intro hwhole
    refine ht.agree_of_covered hpos hsmall hroot hclosed (covered_of_screened ht.rep ?_) sfit
    intro d i hi hv
    rw [ht.root] at hi ⊢
    rcases hsource hi hv with hrec | ⟨r, hr, -, e, he⟩
    · exact ⟨i, hrec, hv, ⟨d, hi⟩, 0, .refl i⟩
    · obtain ⟨m, hm, hr⟩ := List.mem_flatMap.mp hr
      exact hwhole m hm r hr d e i hi he hv

end

/-- No violator at a node or below it, as far as the fuel goes. -/
def quietBelow (b : TreeBuilder K) (p : Pools Dim K) : ℕ → ℕ → Bool
  | 0, _ => false
  | fuel + 1, i =>
    !b.isViolator p i &&
      match (p.node i).body with
      | .leaf .. => true
      | .internal _ _ left right => quietBelow b p fuel left && quietBelow b p fuel right

omit [NeZero Dim] in
theorem quiet_of_quietBelow {b : TreeBuilder K} {p : Pools Dim K} {fuel i j d : ℕ}
    (h : quietBelow b p fuel i = true) (hj : p.Below i d j) : b.isViolator p j = false := by
  induction hj generalizing fuel with
  | refl i =>
    cases fuel with
    | zero => cases h
    | succ fuel =>
      rw [quietBelow, Bool.and_eq_true, Bool.not_eq_true'] at h
      exact h.1
  | left hi _ ih =>
    cases fuel with
    | zero => cases h
    | succ fuel =>
      rw [quietBelow, hi, Bool.and_eq_true, Bool.and_eq_true] at h
      exact ih h.2.1
  | right hi _ ih =>
    cases fuel with
    | zero => cases h
    | succ fuel =>
      rw [quietBelow, hi, Bool.and_eq_true, Bool.and_eq_true] at h
      exact ih h.2.2

def settledRun : KDTreeImpl 2 ℚ :=
  run wordEnv (start (plane 4 (1 / 4))) [.insert [![0, 0], ![1, 0], ![2, 0], ![3, 0]]]

theorem sweeps_agree_plane : SweepsAgree wordEnv (removeLoop wordEnv settledRun [![1, 0]]).1 := by
  have hrun : Reachable wordEnv (plane 4 (1 / 4)) settledRun :=
    reachable_run (plane_accepted (by decide) (by norm_num)) (by decide +kernel)
  have hquiet : quietBelow (settledRun.builder wordEnv) settledRun.pools 20 settledRun.root = true := by
    decide +kernel
  have hlast : ((removeLoop wordEnv settledRun [![1, 0]]).1, Action.sweep) ∈
      settledRun.steps wordEnv (.remove [![1, 0]]) :=
    List.mem_append_right _ (closing_mem .sweep (by decide +kernel))
  refine (sweeps_agree_iff (by decide) hrun.poolsReachable
    (fun _ _ hi => quiet_of_quietBelow hquiet hi) (.remove [![1, 0]])
    (noWrap_of_fits (by decide +kernel)).pools hlast).mpr ?_
  -- a removal releases one slot at a time
  intro m hm r hr
  rcases steps_takes hm with ⟨i, ha⟩ | ha
  · rw [ha] at hr
    cases hr
  · rw [ha] at hr
    cases hr

def evictingRun : KDTreeImpl 2 ℚ :=
  run wordEnv (start (plane 4 1)) [.insert [![0, 0], ![1, 0], ![2, 0], ![3, 0]], .insert [![4, 0]]]

def emptied : KDTreeImpl 2 ℚ := (boxDeleteLoop wordEnv evictingRun [⟨fun _ => ⊥, fun _ => ⊤⟩]).1

/-- A box over everything releases the root as a whole; the count that the eviction left there keeps
it from being a violator, and the violator below it is not recorded. -/
theorem hidden_violator_plane :
    Reachable wordEnv (plane 4 1) evictingRun ∧
      (∀ d i, evictingRun.pools.Below evictingRun.root d i →
        (evictingRun.builder wordEnv).isViolator evictingRun.pools i = false) ∧
      (emptied, Action.sweep) ∈ evictingRun.steps wordEnv (.boxDelete [⟨fun _ => ⊥, fun _ => ⊤⟩]) ∧
      emptied.scopedRebuilds wordEnv = [] ∧ emptied.fullRebuilds wordEnv = [14] ∧
      ¬ SweepsAgree wordEnv emptied ∧
      (emptied.maybePartialRebuild wordEnv).pools.Below emptied.root 1 14 ∧
      (emptied.builder wordEnv).isViolator (emptied.maybePartialRebuild wordEnv).pools 14 = true := by
  have hrun : Reachable wordEnv (plane 4 1) evictingRun :=
    reachable_run (plane_accepted (by decide) (by norm_num)) (by decide +kernel)
  have hquiet : quietBelow (evictingRun.builder wordEnv) evictingRun.pools 20 evictingRun.root =
      true := by decide +kernel
  have hlast : (emptied, Action.sweep) ∈
      evictingRun.steps wordEnv (.boxDelete [⟨fun _ => ⊥, fun _ => ⊤⟩]) :=
    List.mem_append_right _ (closing_mem .sweep (by decide +kernel))
  have hscoped : emptied.scopedRebuilds wordEnv = [] := by decide +kernel
  have hfull : emptied.fullRebuilds wordEnv = [14] := by decide +kernel
  have hroot : ((emptied.maybePartialRebuild wordEnv).pools.node emptied.root).body =
      .internal 0 2 11 14 := by decide +kernel
  refine ⟨hrun, fun _ _ hi => quiet_of_quietBelow hquiet hi, hlast, hscoped, hfull, fun h => ?_,
    .right hroot (.refl 14), by decide +kernel⟩
  have hmem := (h.rebuilds 14).mpr (hfull ▸ List.mem_singleton_self 14)
  rw [hscoped] at hmem
  cases hmem

end KDTreeImpl
end Copse

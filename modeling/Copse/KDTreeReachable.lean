import Copse.KDTreeInvariant
import Copse.SearchTraversal

set_option autoImplicit false

namespace Copse
open FramedStore PointStore TreeBuilder TransitionRuns

namespace KDTreeImpl
variable {Dim : ℕ} [NeZero Dim] {K : Type*} [Field K] [LinearOrder K]

/-- What the constructor demands of a configuration. -/
structure Accepted (cfg : Config K) : Prop where
  capacity : 0 < cfg.capacity
  resolution : 0 < cfg.resolution
  leafBucketSize : 0 < cfg.leafBucketSize
  alpha : 1 / 2 < cfg.alpha ∧ cfg.alpha < 1
  tombstoneThreshold : 0 ≤ cfg.tombstoneThreshold ∧ cfg.tombstoneThreshold ≤ 1

structure Fresh (cfg : Config K) (s : KDTreeImpl Dim K) : Prop where
  accepted : Accepted cfg
  config : s.cfg = cfg
  points : PointStore.create cfg.capacity = .ok s.points
  pools : s.pools = Pools.clear
  root : s.root = invalid
  modifiedNodes : s.modifiedNodes = []

omit [NeZero Dim] in
theorem create_fresh {cfg : Config K} {s : KDTreeImpl Dim K} (h : create cfg = .ok s) :
    Fresh cfg s := by
  unfold create at h
  cases hp : (PointStore.create cfg.capacity : Except String (PointStore Dim K)) with
  | error e =>
    rw [hp] at h
    cases h
  | ok points =>
    rw [hp] at h
    change (if cfg.capacity = 0 then _ else _) = _ at h
    split at h
    · cases h
    rename_i hcap
    change (if ¬ 0 < cfg.resolution then _ else _) = _ at h
    split at h
    · cases h
    rename_i hres
    change (if cfg.leafBucketSize = 0 then _ else _) = _ at h
    split at h
    · cases h
    rename_i hleaf
    change (if ¬ (1 / 2 < cfg.alpha ∧ cfg.alpha < 1) then _ else _) = _ at h
    split at h
    · cases h
    rename_i halpha
    change (if ¬ (0 ≤ cfg.tombstoneThreshold ∧ cfg.tombstoneThreshold ≤ 1) then _ else _) = _ at h
    split at h
    · cases h
    rename_i htomb
    injection h with h
    subst h
    exact ⟨⟨Nat.pos_of_ne_zero hcap, not_not.mp hres, Nat.pos_of_ne_zero hleaf, not_not.mp halpha,
      not_not.mp htomb⟩, rfl, hp, rfl, rfl, rfl⟩

section
variable {env : Env K} {cfg : Config K} {s : KDTreeImpl Dim K} {o : Option (Tree Dim K)}

section
omit [NeZero Dim]

theorem Fresh.sound (h : Fresh cfg s) (hB : 2 * cfg.leafBucketSize ≤ 65535) (hn : s.NoWrap) :
    Sound s none := by
  have hcap := create_capacity h.points
  have hring := create_ring (hcap ▸ hn.capacity) h.points
  refine ⟨h.config ▸ h.accepted.leafBucketSize, ?_, hn, ⟨_, _, hring⟩, h.root, fun i => ?_⟩
  · rw [h.config]
    omega
  · rw [Bool.eq_false_iff, ne_eq, hring.isLive_iff]
    simp

theorem matchesOf_holds [IsStrictOrderedRing K] (query : Point Dim K) {t : Tree Dim K}
    (h : Sound s (some t)) :
    (s.matchesOf query).Perm
      (SearchKernel.within s.points query s.sqResolution (t.validIn s.points)) := by
  have holds : Holds s t := h.reads
  rw [matchesOf, SearchKernel.collectIndicesWithin, if_neg (holds.root_valid h.noWrap), ← holds.root]
  exact SearchKernel.collectDescend_perm _ holds.rep h.noWrap.pools holds.placed _ holds.height_lt

theorem matchesOf_vacant (query : Point Dim K) (h : Vacant s) : s.matchesOf query = [] := by
  rw [matchesOf, SearchKernel.collectIndicesWithin, if_pos h.root]

section matching
variable [IsStrictOrderedRing K]

theorem mem_matchesOf (query : Point Dim K) (h : Sound s o) (i : ℕ) :
    i ∈ s.matchesOf query ↔
      s.points.isLive i = true ∧ (s.points.point i).sqDist query < s.sqResolution := by
  cases o with
  | none =>
    rw [matchesOf_vacant query h.reads, h.reads.none i]
    simp
  | some t =>
    rw [(matchesOf_holds query h).mem_iff, SearchKernel.mem_within, WithTop.coe_lt_coe,
      Holds.complete h.reads i]

theorem matchesOf_nodup (query : Point Dim K) (h : Sound s o) : (s.matchesOf query).Nodup := by
  cases o with
  | none =>
    rw [matchesOf_vacant query h.reads]
    exact List.nodup_nil
  | some t => exact (matchesOf_holds query h).nodup_iff.mpr ((Holds.nodup h.reads).filter _)

omit [IsStrictOrderedRing K] in
/-- The dedup test rejects exactly when a removal would find something. -/
theorem accepts_eq_false_iff (x : Point Dim K) : s.accepts x = false ↔ s.matchesOf x ≠ [] := by
  unfold accepts matchesOf
  rw [Bool.not_eq_false', Bool.and_eq_true, SearchKernel.anyWithin_iff]
  refine and_iff_right_of_imp (fun hfound => ?_)
  simp only [bne_iff_ne]
  intro hroot
  exact hfound (by simp [SearchKernel.collectIndicesWithin, hroot])

theorem accepts_iff (x : Point Dim K) (h : Sound s o) :
    s.accepts x = true ↔
      ∀ i, s.points.isLive i = true → s.sqResolution ≤ (s.points.point i).sqDist x := by
  rw [← Bool.not_eq_false, not_iff_comm, accepts_eq_false_iff, ne_eq, List.eq_nil_iff_forall_not_mem,
    not_iff_not]
  refine forall_congr' (fun i => ?_)
  rw [mem_matchesOf x h, not_and, not_lt]

end matching

end

theorem removals_points (l : List ℕ) :
    ((l.map Action.removeIndex).foldl (act env) s).points = s.points.releaseAll l := by
  induction l generalizing s with
  | nil => rfl
  | cons i l ih => exact ih

theorem removals_ready {l : List ℕ} (hs : ∃ o, Sound s o) (hlive : ∀ i ∈ l, s.points.isLive i = true)
    (hd : l.Nodup)
    (hn : ∀ m ∈ stepsOf (act env) s (l.map .removeIndex), (m.1.act env m.2).NoWrap) :
    (∀ m ∈ stepsOf (act env) s (l.map .removeIndex), m.1.Ready m.2) ∧
      ∃ o, Sound ((l.map .removeIndex).foldl (act env) s) o := by
  induction l generalizing s with
  | nil => exact ⟨by simp [stepsOf], hs⟩
  | cons i l ih =>
    obtain ⟨o, hs⟩ := hs
    obtain ⟨hil, hd⟩ := List.nodup_cons.mp hd
    have hi := hlive i List.mem_cons_self
    obtain ⟨o', -, hs'⟩ := act_sound env (.removeIndex i) hs hi (hn _ List.mem_cons_self)
    have hlive' : ∀ j ∈ l, (s.act env (.removeIndex i)).points.isLive j = true := by
      intro j hj
      change (s.points.release i).isLive j = true
      rw [release_isLive, hlive j (List.mem_cons_of_mem _ hj)]
      simp only [Bool.true_and, decide_eq_true_eq]
      rintro rfl
      exact hil hj
    have hrest := ih ⟨o', hs'⟩ hlive' hd (fun m hm => hn m (List.mem_cons_of_mem _ hm))
    exact ⟨List.forall_mem_cons.mpr ⟨hi, hrest.1⟩, hrest.2⟩

variable [IsStrictOrderedRing K]

theorem removeSteps_ready (queries : List (Point Dim K)) (hs : ∃ o, Sound s o)
    (hn : ∀ m ∈ removeSteps env s queries, (m.1.act env m.2).NoWrap) :
    ∀ m ∈ removeSteps env s queries, m.1.Ready m.2 := by
  induction queries generalizing s with
  | nil => simp [removeSteps]
  | cons query rest ih =>
    obtain ⟨o, hs⟩ := hs
    obtain ⟨hready, hs'⟩ := removals_ready ⟨o, hs⟩ (fun i hi => ((mem_matchesOf query hs i).mp hi).1)
      (matchesOf_nodup query hs) (fun m hm => hn m (List.mem_append_left _ hm))
    intro m hm
    rcases List.mem_append.mp hm with hm | hm
    · exact hready m hm
    · exact ih hs' (fun m hm => hn m (List.mem_append_right _ hm)) m hm

theorem steps_ready (op : Op Dim K) (hs : Sound s o)
    (hn : ∀ m ∈ s.steps env op, (m.1.act env m.2).NoWrap) : ∀ m ∈ s.steps env op, m.1.Ready m.2 := by
  -- only removals have something to be ready for
  have removes : ∀ m ∈ s.steps env op, (∀ i, m.2 ≠ .removeIndex i) → m.1.Ready m.2 := by
    intro m _ ha
    cases heq : m.2 with
    | removeIndex i => exact absurd heq (ha i)
    | _ => trivial
  intro m hm
  by_cases hrem : ∃ queries, op = .remove queries
  · obtain ⟨queries, rfl⟩ := hrem
    rcases List.mem_append.mp hm with hloop | hclose
    · exact removeSteps_ready queries ⟨o, hs⟩ (fun m hm => hn m (List.mem_append_left _ hm)) m hloop
    · exact removes m hm (fun i => by simp [mem_closing hclose])
  · refine removes m hm (fun i heq => ?_)
    have htakes := steps_takes hm
    rw [heq] at htakes
    cases op with
    | remove queries => exact hrem ⟨queries, rfl⟩
    | _ => simp [Op.Takes] at htakes

/-- What every permitted action keeps, whatever the tree does, a call keeps. -/
theorem steps_invariant {P : KDTreeImpl Dim K → Option (Tree Dim K) → Prop}
    {Q : KDTreeImpl Dim K → Action Dim K → Prop}
    (hP : ∀ s a o o', Sound s o → s.Ready a → Evolved env s a o o' → Sound (s.act env a) o' →
      Q s a → P s o → P (s.act env a) o')
    {op : Op Dim K} (hs : ∃ o, Sound s o ∧ P s o) (hn : (s.apply env op).1.NoWrap)
    (hok : ∀ m ∈ s.steps env op, Q m.1 m.2) :
    (∀ m ∈ s.steps env op, ∃ o, Sound m.1 o ∧ P m.1 o) ∧
      ∃ o, Sound (s.apply env op).1 o ∧ P (s.apply env op).1 o := by
  obtain ⟨o, hsound, -⟩ := id hs
  have hwrap := steps_noWrap hn
  have hready := steps_ready op hsound hwrap
  refine (steps_chain env s op).invariant (P := fun s => ∃ o, Sound s o ∧ P s o) ?_ hs
  rintro m hm ⟨o, hso, hpo⟩
  obtain ⟨o', hev, hso'⟩ := act_sound env m.2 hso (hready m hm) (hwrap m hm)
  exact ⟨o', hso', hP m.1 m.2 o o' hso (hready m hm) hev hso' (hok m hm) hpo⟩

theorem steps_sound {op : Op Dim K} (hs : Sound s o) (hn : (s.apply env op).1.NoWrap) :
    ∀ m ∈ s.steps env op, ∃ o', Sound m.1 o' := by
  intro m hm
  obtain ⟨o', hs', -⟩ := (steps_invariant (P := fun _ _ => True) (Q := fun _ _ => True)
    (fun _ _ _ _ _ _ _ _ _ _ => trivial) ⟨o, hs, trivial⟩ hn (fun _ _ => trivial)).1 m hm
  exact ⟨o', hs'⟩

theorem apply_sound {op : Op Dim K} (hs : Sound s o) (hn : (s.apply env op).1.NoWrap) :
    ∃ o', Sound (s.apply env op).1 o' := by
  obtain ⟨-, o', hs', -⟩ := steps_invariant (P := fun _ _ => True) (Q := fun _ _ => True)
    (fun _ _ _ _ _ _ _ _ _ _ => trivial) ⟨o, hs, trivial⟩ hn (fun _ _ => trivial)
  exact ⟨o', hs'⟩

/-- States reached by calls whose every action is permitted, with no wrap. -/
def ReachableWhen (env : Env K) (cfg : Config K) (ok : KDTreeImpl Dim K → Action Dim K → Prop) :
    KDTreeImpl Dim K → Prop :=
  Reach (fun s => create cfg = .ok s ∧ s.NoWrap)
    (fun s op s' => s' = (s.apply env op).1 ∧ s'.NoWrap ∧ ∀ m ∈ s.steps env op, ok m.1 m.2)

/-- States reached by any calls, with no wrap. -/
def Reachable (env : Env K) (cfg : Config K) : KDTreeImpl Dim K → Prop :=
  Reach (fun s => create cfg = .ok s ∧ s.NoWrap)
    (fun s (op : Op Dim K) s' => s' = (s.apply env op).1 ∧ s'.NoWrap)

theorem ReachableWhen.reachable {ok : KDTreeImpl Dim K → Action Dim K → Prop}
    (h : ReachableWhen env cfg ok s) : Reachable env cfg s :=
  h.mono (fun _ _ _ hs => ⟨hs.1, hs.2.1⟩)

theorem Reachable.reachableWhen (h : Reachable env cfg s) :
    ReachableWhen env cfg (fun _ _ => True) s :=
  h.mono (fun _ _ _ hs => ⟨hs.1, hs.2, fun _ _ => trivial⟩)

/-- The invariant rule over whole runs. -/
theorem ReachableWhen.invariant {P : KDTreeImpl Dim K → Option (Tree Dim K) → Prop}
    {ok : KDTreeImpl Dim K → Action Dim K → Prop} (hB : 2 * cfg.leafBucketSize ≤ 65535)
    (h0 : ∀ s, Fresh cfg s → Sound s none → P s none)
    (hP : ∀ s a o o', Sound s o → s.Ready a → Evolved env s a o o' → Sound (s.act env a) o' →
      ok s a → P s o → P (s.act env a) o')
    (h : ReachableWhen env cfg ok s) : ∃ o, Sound s o ∧ P s o := by
  refine Reach.invariant (P := fun s => ∃ o, Sound s o ∧ P s o) ?_ ?_ h
  · rintro s ⟨hs, hn⟩
    have hsound := (create_fresh hs).sound hB hn
    exact ⟨none, hsound, h0 s (create_fresh hs) hsound⟩
  · rintro s op s' - hs ⟨rfl, hn, hok⟩
    exact (steps_invariant hP hs hn hok).2

theorem Reachable.sound (hB : 2 * cfg.leafBucketSize ≤ 65535) (h : Reachable env cfg s) :
    ∃ o, Sound s o := by
  obtain ⟨o, hs, -⟩ := h.reachableWhen.invariant (P := fun _ _ => True) hB (fun _ _ _ => trivial)
    (fun _ _ _ _ _ _ _ _ _ _ => trivial)
  exact ⟨o, hs⟩

theorem Reachable.config (h : Reachable env cfg s) :
    s.cfg = cfg ∧ Accepted cfg ∧ s.points.capacity = cfg.capacity := by
  refine Reach.invariant
    (P := fun s => s.cfg = cfg ∧ Accepted cfg ∧ s.points.capacity = cfg.capacity) ?_ ?_ h
  · rintro s ⟨hs, -⟩
    have hf := create_fresh hs
    exact ⟨hf.config, hf.accepted, create_capacity hf.points⟩
  · rintro s op s' - hs ⟨rfl, -⟩
    refine ((steps_chain env s op).invariant
      (P := fun s => s.cfg = cfg ∧ Accepted cfg ∧ s.points.capacity = cfg.capacity) ?_ hs).2
    rintro m - ⟨hc, ha, hcap⟩
    obtain ⟨hc', hcap'⟩ := act_cfg (s := m.1) env m.2
    exact ⟨hc'.trans hc, ha, hcap'.trans hcap⟩

end

section
variable [IsStrictOrderedRing K]

/-- The object that the constructor returns. -/
def start (cfg : Config K) : KDTreeImpl Dim K where
  cfg := cfg
  points :=
    { capacity := cfg.capacity
      live := 0
      points := List.replicate cfg.capacity 0
      liveBits := List.replicate cfg.capacity false
      generations := List.replicate cfg.capacity 0
      buffer := PointStore.iota cfg.capacity
      bufPos := List.replicate cfg.capacity invalid
      bufHead := 0
      bufTail := 0 }
  pools := Pools.clear
  rootBBox := BBox.zero
  root := invalid
  modifiedNodes := []

omit [NeZero Dim] [IsStrictOrderedRing K] in
theorem create_start {cfg : Config K} (h : Accepted cfg) :
    create cfg = .ok (start cfg : KDTreeImpl Dim K) := by
  have hstore : (PointStore.create cfg.capacity : Except String (PointStore Dim K)) =
      .ok (start cfg : KDTreeImpl Dim K).points := by
    rw [PointStore.create, if_neg h.capacity.ne']
    rfl
  rw [create, hstore]
  change (if cfg.capacity = 0 then _ else _) = _
  rw [if_neg h.capacity.ne']
  rw [if_neg (not_not.mpr h.resolution)]
  change (if cfg.leafBucketSize = 0 then _ else _) = _
  rw [if_neg h.leafBucketSize.ne']
  change (if ¬ (1 / 2 < cfg.alpha ∧ cfg.alpha < 1) then _ else _) = _
  rw [if_neg (not_not.mpr h.alpha)]
  change (if ¬ (0 ≤ cfg.tombstoneThreshold ∧ cfg.tombstoneThreshold ≤ 1) then _ else _) = _
  rw [if_neg (not_not.mpr h.tombstoneThreshold)]
  rfl

def run (env : Env K) (s : KDTreeImpl Dim K) (ops : List (Op Dim K)) : KDTreeImpl Dim K :=
  ops.foldl (fun s op => (s.apply env op).1) s

def fits (s : KDTreeImpl Dim K) : Bool :=
  decide (s.points.capacity < 2 ^ 32) && s.points.generations.all (fun g => decide (g < 2 ^ 32)) &&
    decide (s.pools.nodes.length < 2 ^ 32) &&
    decide (s.pools.leafBuckets.data.length < 2 ^ 32) &&
    decide (s.pools.leafBBoxes.length < 2 ^ 32)

omit [NeZero Dim] [LinearOrder K] [IsStrictOrderedRing K] in
theorem noWrap_of_fits {s : KDTreeImpl Dim K} (h : s.fits = true) : s.NoWrap := by
  simp only [fits, Bool.and_eq_true, decide_eq_true_eq, List.all_eq_true] at h
  obtain ⟨⟨⟨⟨hcap, hgen⟩, hnodes⟩, hslots⟩, hboxes⟩ := h
  refine ⟨hcap, fun i => ?_, ⟨hnodes, hslots, hboxes⟩⟩
  rw [PointStore.stampCount, List.getD_eq_getElem?_getD]
  cases hi : s.points.generations[i]? with
  | none => simp
  | some g => exact hgen g (List.mem_of_getElem? hi)

def runMeets (env : Env K) (test : KDTreeImpl Dim K → Action Dim K → Bool) :
    KDTreeImpl Dim K → List (Op Dim K) → Bool
  | s, [] => s.fits
  | s, op :: ops =>
    s.fits && (s.steps env op).all (fun m => test m.1 m.2) && runMeets env test (s.apply env op).1 ops

theorem runMeets_fits {env : Env K} {test : KDTreeImpl Dim K → Action Dim K → Bool}
    {s : KDTreeImpl Dim K} {ops : List (Op Dim K)} (h : runMeets env test s ops = true) :
    s.fits = true := by
  cases ops with
  | nil => exact h
  | cons op ops =>
    simp only [runMeets, Bool.and_eq_true] at h
    exact h.1.1

theorem reachableWhen_run {env : Env K} {cfg : Config K} {ok : KDTreeImpl Dim K → Action Dim K → Prop}
    {test : KDTreeImpl Dim K → Action Dim K → Bool} (htest : ∀ s a, test s a = true → ok s a)
    (hcfg : Accepted cfg) {ops : List (Op Dim K)} (h : runMeets env test (start cfg) ops = true) :
    ReachableWhen env cfg ok (run env (start cfg) ops) := by
  have go : ∀ (ops : List (Op Dim K)) (s : KDTreeImpl Dim K), ReachableWhen env cfg ok s →
      runMeets env test s ops = true → ReachableWhen env cfg ok (run env s ops) := by
    intro ops
    induction ops with
    | nil => exact fun s hs _ => hs
    | cons op ops ih =>
      intro s hs hm
      simp only [runMeets, Bool.and_eq_true, List.all_eq_true] at hm
      refine ih _ (.step op hs ⟨rfl, noWrap_of_fits (runMeets_fits hm.2), ?_⟩) hm.2
      exact fun m hm' => htest _ _ (hm.1.2 m hm')
  exact go ops _ (.init ⟨create_start hcfg, noWrap_of_fits (runMeets_fits h)⟩) h

theorem reachable_run {env : Env K} {cfg : Config K} (hcfg : Accepted cfg) {ops : List (Op Dim K)}
    (h : runMeets env (fun _ _ => true) (start cfg) ops = true) :
    Reachable env cfg (run env (start cfg) ops : KDTreeImpl Dim K) := by
  have hrun : ReachableWhen env cfg (fun _ _ => True) (run env (start cfg) ops) :=
    reachableWhen_run (fun _ _ _ => trivial) hcfg h
  exact hrun.reachable

end

instance planar : NeZero 2 := ⟨by decide⟩

/-- The compiled arithmetic, with a library that sorts. -/
def wordEnv : Env ℚ := ⟨StdAlgorithm.insertion ℚ, .word⟩

/-- The same with counters that do not wrap. -/
def exactEnv : Env ℚ := ⟨StdAlgorithm.insertion ℚ, .exact⟩

def plane (capacity : ℕ) (tombstoneThreshold : ℚ) : Config ℚ :=
  { capacity, resolution := 1 / 10, leafBucketSize := 1, tombstoneThreshold }

theorem plane_accepted {capacity : ℕ} {threshold : ℚ} (hc : 0 < capacity)
    (ht : 0 ≤ threshold ∧ threshold ≤ 1) : Accepted (plane capacity threshold) :=
  ⟨hc, by norm_num [plane], Nat.one_pos, by norm_num [plane], ht⟩

end KDTreeImpl
end Copse

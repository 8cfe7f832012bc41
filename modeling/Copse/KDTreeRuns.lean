import Copse.KDTreeImpl
import Copse.TransitionRuns
import Copse.TreeBuilderDelete

set_option autoImplicit false

/-!
# Runs of the tree object

The five mutating operations as labels of a transition system. Each operation
is a chain of smaller actions: one dedup-and-insert per point, one tombstone
and release per match, one recursive delete per box, and the closing sweep.
-/
namespace Copse
open TransitionRuns

/-- A call of one of the mutating member functions. -/
inductive Op (Dim : ℕ) (K : Type*) where
  | insert (batch : List (Point Dim K))
  | remove (queries : List (Point Dim K))
  | boxDelete (boxes : List (BBox Dim K))
  | radiusCrop (center : Point Dim K) (r : K)
  | rebuildAll

inductive Action (Dim : ℕ) (K : Type*) [Field K] [LinearOrder K] where
  | insertPoint (point : Point Dim K)
  | removeIndex (index : ℕ)
  | deleteRegion (rg : Region Dim K)
  | sweepFull
  | sweep
  | rebuildAll

/-- The actions that a call may take. -/
def Op.Takes {Dim : ℕ} {K : Type*} [Field K] [LinearOrder K] [IsStrictOrderedRing K] :
    Op Dim K → Action Dim K → Prop
  | .insert batch, a => (∃ x ∈ batch, a = .insertPoint x) ∨ a = .sweepFull
  | .remove _, a => (∃ i, a = .removeIndex i) ∨ a = .sweep
  | .boxDelete boxes, a => (∃ box ∈ boxes, a = .deleteRegion (Region.box box)) ∨ a = .sweep
  | .radiusCrop center r, a => a = .deleteRegion (Region.crop center (r * r)) ∨ a = .sweep
  | .rebuildAll, a => a = .rebuildAll

namespace KDTreeImpl
variable {Dim : ℕ} [NeZero Dim] {K : Type*} [Field K] [LinearOrder K]

section
variable (env : Env K) (s : KDTreeImpl Dim K)

def act : Action Dim K → KDTreeImpl Dim K
  | .insertPoint point => (s.insertPoint env point).1
  | .removeIndex index => s.removeIndex env index
  | .deleteRegion rg => (deleteRegion env.counter s rg).1
  | .sweepFull => s.maybePartialRebuildFull env
  | .sweep => s.maybePartialRebuild env
  | .rebuildAll => s.rebuildAll env

def removals (query : Point Dim K) : List (Action Dim K) :=
  (s.matchesOf query).map .removeIndex

def removeSteps : KDTreeImpl Dim K → List (Point Dim K) → List (KDTreeImpl Dim K × Action Dim K)
  | _, [] => []
  | s, query :: rest =>
    stepsOf (act env) s (s.removals query) ++
      removeSteps ((s.removals query).foldl (act env) s) rest

def closing (r : KDTreeImpl Dim K × ℕ) (a : Action Dim K) : List (KDTreeImpl Dim K × Action Dim K) :=
  if 0 < r.2 then [(r.1, a)] else []

variable [IsStrictOrderedRing K]

def apply : Op Dim K → KDTreeImpl Dim K × ℕ
  | .insert batch => s.insert env batch
  | .remove queries => s.remove env queries
  | .boxDelete boxes => s.boxDelete env boxes
  | .radiusCrop center r => s.radiusCrop env center r
  | .rebuildAll => (s.rebuildAll env, 0)

/-- The actions of a call, each with the state it is taken from. -/
def steps : Op Dim K → List (KDTreeImpl Dim K × Action Dim K)
  | .insert batch =>
    stepsOf (act env) s (batch.map .insertPoint) ++ closing (insertLoop env s batch) .sweepFull
  | .remove queries => removeSteps env s queries ++ closing (removeLoop env s queries) .sweep
  | .boxDelete boxes =>
    stepsOf (act env) s (boxes.map (fun box => .deleteRegion (Region.box box))) ++
      closing (boxDeleteLoop env s boxes) .sweep
  | .radiusCrop center r =>
    (s, .deleteRegion (Region.crop center (r * r))) :: closing (s.radiusCropOne env center r) .sweep
  | .rebuildAll => [(s, .rebuildAll)]

end

section
variable {env : Env K} {s : KDTreeImpl Dim K}

theorem insertLoop_fst (batch : List (Point Dim K)) :
    (insertLoop env s batch).1 = (batch.map Action.insertPoint).foldl (act env) s := by
  induction batch generalizing s with
  | nil => rfl
  | cons x rest ih => exact ih

theorem removeLoop_fst (query : Point Dim K) :
    (s.removals query).foldl (act env) s =
      (s.matchesOf query).foldl (fun s i => s.removeIndex env i) s := by
  rw [removals, List.foldl_map]
  rfl

theorem removeSteps_chain (queries : List (Point Dim K)) :
    Chain (act env) s (removeSteps env s queries) (removeLoop env s queries).1 := by
  induction queries generalizing s with
  | nil => exact .nil s
  | cons query rest ih =>
    refine (stepsOf_chain (act env) s (s.removals query)).append ?_
    have hrest := ih (s := (s.removals query).foldl (act env) s)
    rwa [removeLoop_fst] at hrest ⊢

theorem closing_chain (r : KDTreeImpl Dim K × ℕ) (a : Action Dim K) :
    Chain (act env) r.1 (closing r a) (if 0 < r.2 then act env r.1 a else r.1) := by
  unfold closing
  split_ifs
  · exact .cons a (.nil _)
  · exact .nil _

variable [IsStrictOrderedRing K]

omit [IsStrictOrderedRing K] in
theorem boxDeleteLoop_fst (boxes : List (BBox Dim K)) :
    (boxDeleteLoop env s boxes).1 =
      (boxes.map (fun box => Action.deleteRegion (Region.box box))).foldl (act env) s := by
  induction boxes generalizing s with
  | nil => rfl
  | cons box rest ih => exact ih

theorem steps_chain (env : Env K) (s : KDTreeImpl Dim K) (op : Op Dim K) :
    Chain (act env) s (s.steps env op) (s.apply env op).1 := by
  cases op with
  | insert batch =>
    have hloop := stepsOf_chain (act env) s (batch.map Action.insertPoint)
    rw [← insertLoop_fst] at hloop
    exact hloop.append (closing_chain (insertLoop env s batch) .sweepFull)
  | remove queries => exact (removeSteps_chain queries).append (closing_chain _ .sweep)
  | boxDelete boxes =>
    have hloop := stepsOf_chain (act env) s
      (boxes.map (fun box => Action.deleteRegion (Region.box box)))
    rw [← boxDeleteLoop_fst] at hloop
    exact hloop.append (closing_chain (boxDeleteLoop env s boxes) .sweep)
  | radiusCrop center r =>
    exact .cons _ (closing_chain (s.radiusCropOne env center r) .sweep)
  | rebuildAll => exact .cons _ (.nil _)

end
end KDTreeImpl

namespace PointStore
variable {Dim : ℕ} {K : Type*}

structure Advances (s s' : PointStore Dim K) : Prop where
  capacity : s'.capacity = s.capacity
  stamps : ∀ i, s.stampCount i ≤ s'.stampCount i

section
variable {s s' s'' : PointStore Dim K}

theorem Advances.refl (s : PointStore Dim K) : Advances s s := ⟨rfl, fun _ => le_rfl⟩

theorem Advances.trans (h : Advances s s') (h' : Advances s' s'') : Advances s s'' :=
  ⟨h'.capacity.trans h.capacity, fun i => (h.stamps i).trans (h'.stamps i)⟩

theorem StampsFit.of_advances (h : s'.StampsFit) (ha : Advances s s') : s.StampsFit :=
  fun i => (ha.stamps i).trans_lt (h i)

theorem bump_advances (s : PointStore Dim K) (v : ℕ) : Advances s (s.bump v) := by
  refine ⟨rfl, fun i => ?_⟩
  rw [bump_stampCount]
  split_ifs <;> omega

theorem release_advances (s : PointStore Dim K) (i : ℕ) : Advances s (s.release i) :=
  ⟨s.release_capacity i, fun j => (s.release_stampCount i j).ge⟩

theorem releaseAll_advances (s : PointStore Dim K) (l : List ℕ) : Advances s (s.releaseAll l) :=
  ⟨s.releaseAll_capacity l, fun j => (s.releaseAll_stampCount l j).ge⟩

theorem acquire_advances (s : PointStore Dim K) (x : Point Dim K) :
    Advances s (s.acquire x).1 := by
  have hevict : Advances s (if s.live = s.capacity then s.evict else s) := by
    split_ifs
    · exact ⟨rfl, (s.bump_advances s.victim).stamps⟩
    · exact Advances.refl s
  have happend : ∀ u : PointStore Dim K, Advances u (u.append x).1 :=
    fun u => ⟨rfl, (u.bump_advances (u.buffer.getD u.bufTail 0)).stamps⟩
  exact hevict.trans (happend _)

end
end PointStore

namespace TreeBuilder
variable {Dim : ℕ} [NeZero Dim] {K : Type*} [Field K] [LinearOrder K]
open PointStore Pools

omit [NeZero Dim] [LinearOrder K] in
theorem clearEntries_releases (hit : Point Dim K → Bool) (es : List BucketEntry)
    (points : PointStore Dim K) : ∃ l, (clearEntries hit es points).1 = points.releaseAll l := by
  induction es generalizing points with
  | nil => exact ⟨[], rfl⟩
  | cons e es ih =>
    unfold clearEntries
    split_ifs
    · exact ih points
    · obtain ⟨l, hl⟩ := ih (points.release e.index)
      exact ⟨e.index :: l, hl⟩

omit [NeZero Dim] [Field K] in
theorem tombstoneIndex_grown (c : Counter) (x : Point Dim K) (fuel : ℕ) (p : Pools Dim K) (i : ℕ)
    (modified : List ℕ) : Grown p (tombstoneIndex c x fuel p i modified).1 := by
  induction fuel generalizing p i modified with
  | zero => exact Grown.refl p
  | succ fuel ih =>
    have hset := p.setNode_grown i ((p.node i).addLive c (-1))
    simp only [tombstoneIndex]
    split
    · exact hset
    · exact hset.trans (ih _ _ _)

/-- What a bulk release can change at all. -/
structure Released.After (p : Pools Dim K) (points : PointStore Dim K) (r : Released Dim K) : Prop where
  pools : Grown p r.pools
  points : ∃ l, r.points = points.releaseAll l

section
omit [NeZero Dim] [Field K] [LinearOrder K]

theorem Released.After.untouched (p : Pools Dim K) (points : PointStore Dim K) :
    (⟨p, points, 0⟩ : Released Dim K).After p points := ⟨Grown.refl p, [], rfl⟩

theorem discount_after {p q : Pools Dim K} {points points' : PointStore Dim K} (hp : Grown p q)
    (hq : ∃ l, points' = points.releaseAll l) (c : Counter) (cleared i : ℕ) :
    (Released.discount c ⟨q, points', cleared⟩ i).After p points :=
  ⟨hp.trans (setNode_grown _ _ _), hq⟩

theorem join_after {p : Pools Dim K} {points : PointStore Dim K} {l r : Released Dim K}
    (hl : l.After p points) (hr : r.After l.pools l.points) (c : Counter) (cleared i : ℕ) :
    (Released.discount c ⟨r.pools, r.points, cleared⟩ i).After p points := by
  obtain ⟨l₁, h₁⟩ := hl.points
  obtain ⟨l₂, h₂⟩ := hr.points
  exact discount_after (hl.pools.trans hr.pools)
    ⟨l₁ ++ l₂, by rw [h₂, h₁, releaseAll_append]⟩ c cleared i

end
omit [NeZero Dim]

omit [LinearOrder K] in
theorem releaseSubtree_after (c : Counter) (fuel : ℕ) (p : Pools Dim K) (points : PointStore Dim K)
    (i : ℕ) : (releaseSubtree c fuel p points i).After p points := by
  induction fuel generalizing p points i with
  | zero => exact .untouched p points
  | succ fuel ih =>
    simp only [releaseSubtree]
    split
    · exact discount_after (Grown.refl p) (clearEntries_releases _ _ points) c _ i
    · rename_i left right _
      have hl := ih p points left
      have hr := ih (releaseSubtree c fuel p points left).pools
        (releaseSubtree c fuel p points left).points right
      exact join_after hl hr c _ i

theorem deleteRecurse_after (c : Counter) (rg : Region Dim K) (fuel : ℕ) (p : Pools Dim K)
    (points : PointStore Dim K) (i : ℕ) (partition : BBox Dim K) (modified : List ℕ) :
    (deleteRecurse c rg fuel p points i partition modified).toReleased.After p points := by
  induction fuel generalizing p points i partition modified with
  | zero => exact .untouched p points
  | succ fuel ih =>
    simp only [deleteRecurse]
    by_cases hk : rg.keeps partition = true
    · simp only [hk, ↓reduceIte]
      exact .untouched p points
    by_cases hc : rg.clears partition = true
    · simp only [hk, hc, Bool.false_eq_true, ↓reduceIte]
      exact releaseSubtree_after c _ p points i
    simp only [hk, hc, Bool.false_eq_true, ↓reduceIte]
    split
    · split_ifs
      · exact .untouched p points
      · exact releaseSubtree_after c _ p points i
      · exact discount_after (Grown.refl p) (clearEntries_releases _ _ points) c _ i
    · rename_i dim split left right _
      have hl := ih p points left (partition.left dim split) modified
      have hr := ih (deleteRecurse c rg fuel p points left (partition.left dim split) modified).pools
        (deleteRecurse c rg fuel p points left (partition.left dim split) modified).points right
        (partition.right dim split)
        (deleteRecurse c rg fuel p points left (partition.left dim split) modified).modified
      exact join_after hl hr c _ i

end TreeBuilder

namespace KDTreeImpl
variable {Dim : ℕ} [NeZero Dim] {K : Type*} [Field K] [LinearOrder K]

/-- No stamp and no index into the store or the pools has wrapped. -/
structure NoWrap (s : KDTreeImpl Dim K) : Prop where
  capacity : s.points.capacity < 2 ^ 32
  stamps : s.points.StampsFit
  pools : s.pools.Fit

/-- The same configuration and slots, with stamps and pools that only grew. -/
structure Later (s s' : KDTreeImpl Dim K) : Prop where
  cfg : s'.cfg = s.cfg
  points : s.points.Advances s'.points
  pools : Pools.Grown s.pools s'.pools

section
variable {env : Env K} {s s' s'' : KDTreeImpl Dim K}

section
omit [NeZero Dim] [LinearOrder K]

theorem Later.refl (s : KDTreeImpl Dim K) : Later s s :=
  ⟨rfl, PointStore.Advances.refl _, Pools.Grown.refl _⟩

theorem Later.trans (h : Later s s') (h' : Later s' s'') : Later s s'' :=
  ⟨h'.cfg.trans h.cfg, h.points.trans h'.points, h.pools.trans h'.pools⟩

theorem NoWrap.of_later (h : s'.NoWrap) (hl : Later s s') : s.NoWrap :=
  ⟨hl.points.capacity ▸ h.capacity, h.stamps.of_advances hl.points, h.pools.of_grown hl.pools⟩

end

@[simp] theorem rebuild_cfg (s : KDTreeImpl Dim K) (indices : List ℕ) :
    (s.rebuild env indices).cfg = s.cfg := by
  unfold rebuild
  split_ifs <;> rfl

@[simp] theorem rebuild_points (s : KDTreeImpl Dim K) (indices : List ℕ) :
    (s.rebuild env indices).points = s.points := by
  unfold rebuild
  split_ifs <;> rfl

theorem acceptPoint_points (env : Env K) (s : KDTreeImpl Dim K) (x : Point Dim K) :
    (s.acceptPoint env x).points = (s.points.acquire x).1 := by
  simp only [acceptPoint]
  split_ifs
  · rw [rebuild_points]
  · rfl

theorem act_rejected (env : Env K) {x : Point Dim K} (hx : s.accepts x = false) :
    s.act env (.insertPoint x) = s := by
  simp only [act, insertPoint, hx, Bool.false_eq_true, ↓reduceIte]

theorem act_inserts (env : Env K) {x : Point Dim K} (hx : s.accepts x = true) :
    s.act env (.insertPoint x) = s.acceptPoint env x := by
  simp only [act, insertPoint, hx, ↓reduceIte]

theorem act_accepted (env : Env K) {x : Point Dim K} (hx : s.accepts x = true) :
    (s.act env (.insertPoint x)).points = (s.points.acquire x).1 := by
  rw [act_inserts env hx, acceptPoint_points]

theorem sweepFull_points (env : Env K) (s : KDTreeImpl Dim K) :
    (s.maybePartialRebuildFull env).points = s.points := by
  simp only [maybePartialRebuildFull]
  split_ifs <;> rfl

theorem sweep_points (env : Env K) (s : KDTreeImpl Dim K) :
    (s.maybePartialRebuild env).points = s.points := by
  unfold maybePartialRebuild
  split_ifs <;> rfl

theorem rebuildAll_points (env : Env K) (s : KDTreeImpl Dim K) :
    (s.rebuildAll env).points = s.points := by
  simp only [rebuildAll]
  split_ifs
  · rfl
  · rw [rebuild_points]

theorem rebuild_later (env : Env K) (s : KDTreeImpl Dim K) (indices : List ℕ) :
    Later s (s.rebuild env indices) := by
  unfold rebuild
  split_ifs
  · exact ⟨rfl, PointStore.Advances.refl _, Pools.Grown.refl _⟩
  · exact ⟨rfl, PointStore.Advances.refl _, TreeBuilder.buildRecursive_grown _ _ _⟩

theorem acceptPoint_later (s : KDTreeImpl Dim K) (x : Point Dim K) : Later s (s.acceptPoint env x) := by
  have hacquire : Later s { s with points := (s.points.acquire x).1 } :=
    ⟨rfl, s.points.acquire_advances x, Pools.Grown.refl _⟩
  simp only [acceptPoint]
  split_ifs
  · exact hacquire.trans (rebuild_later env _ _)
  · exact hacquire.trans
      ⟨rfl, PointStore.Advances.refl _, TreeBuilder.insertIndex_grown _ _ _⟩

theorem sweepFull_later (s : KDTreeImpl Dim K) : Later s (s.maybePartialRebuildFull env) := by
  simp only [maybePartialRebuildFull]
  split_ifs
  · exact ⟨rfl, PointStore.Advances.refl _, Pools.Grown.refl _⟩
  · exact ⟨rfl, PointStore.Advances.refl _, TreeBuilder.sweep_grown _ _ _⟩

theorem sweep_later (s : KDTreeImpl Dim K) : Later s (s.maybePartialRebuild env) := by
  unfold maybePartialRebuild
  split_ifs
  · exact ⟨rfl, PointStore.Advances.refl _, Pools.Grown.refl _⟩
  · exact ⟨rfl, PointStore.Advances.refl _, TreeBuilder.sweep_grown _ _ _⟩
  · exact ⟨rfl, PointStore.Advances.refl _, TreeBuilder.sweep_grown _ _ _⟩

omit [NeZero Dim] in
theorem deleteRegion_later (c : Counter) (s : KDTreeImpl Dim K) (rg : Region Dim K) :
    Later s (deleteRegion c s rg).1 := by
  simp only [deleteRegion]
  split_ifs
  · exact Later.refl s
  · have hafter := TreeBuilder.deleteRecurse_after c rg s.pools.nodes.length s.pools s.points s.root
      s.rootBBox s.modifiedNodes
    obtain ⟨l, hl⟩ := hafter.points
    exact ⟨rfl, hl ▸ s.points.releaseAll_advances l, hafter.pools⟩

/-- Every action but `rebuild_all`, which clears the pools, only lets things grow. -/
theorem act_later (env : Env K) (a : Action Dim K) (ha : a ≠ .rebuildAll) : Later s (s.act env a) := by
  cases a with
  | insertPoint x =>
    simp only [act, insertPoint]
    split_ifs
    · exact acceptPoint_later s x
    · exact Later.refl s
  | removeIndex i =>
    exact ⟨rfl, s.points.release_advances i, TreeBuilder.tombstoneIndex_grown _ _ _ _ _ _⟩
  | deleteRegion rg => exact deleteRegion_later env.counter s rg
  | sweepFull => exact sweepFull_later s
  | sweep => exact sweep_later s
  | rebuildAll => exact absurd rfl ha

theorem act_releases (env : Env K) (s : KDTreeImpl Dim K) (a : Action Dim K)
    (ha : ∀ x, a ≠ .insertPoint x) : ∃ l, (s.act env a).points = s.points.releaseAll l := by
  cases a with
  | insertPoint x => exact absurd rfl (ha x)
  | removeIndex i => exact ⟨[i], rfl⟩
  | deleteRegion rg =>
    simp only [act, deleteRegion]
    split_ifs
    · exact ⟨[], rfl⟩
    · exact (TreeBuilder.deleteRecurse_after env.counter rg s.pools.nodes.length s.pools s.points s.root
        s.rootBBox s.modifiedNodes).points
  | sweepFull => exact ⟨[], sweepFull_points env s⟩
  | sweep => exact ⟨[], sweep_points env s⟩
  | rebuildAll => exact ⟨[], rebuildAll_points env s⟩

omit [NeZero Dim] in
theorem mem_closing {r : KDTreeImpl Dim K × ℕ} {a : Action Dim K}
    {m : KDTreeImpl Dim K × Action Dim K} (hm : m ∈ closing r a) : m = (r.1, a) := by
  rw [closing] at hm
  split_ifs at hm
  · exact List.mem_singleton.mp hm
  · cases hm

omit [NeZero Dim] in
theorem closing_mem {r : KDTreeImpl Dim K × ℕ} (a : Action Dim K) (h : 0 < r.2) :
    (r.1, a) ∈ closing r a := by
  rw [closing, if_pos h]
  exact List.mem_singleton_self _

theorem mem_removeSteps {queries : List (Point Dim K)} {m : KDTreeImpl Dim K × Action Dim K}
    (hm : m ∈ removeSteps env s queries) : ∃ i, m.2 = .removeIndex i := by
  induction queries generalizing s with
  | nil => cases hm
  | cons query rest ih =>
    rcases List.mem_append.mp hm with hm | hm
    · obtain ⟨i, -, hi⟩ := List.mem_map.mp (mem_stepsOf_snd hm)
      exact ⟨i, hi.symm⟩
    · exact ih hm

variable [IsStrictOrderedRing K]

theorem steps_takes {op : Op Dim K} {m : KDTreeImpl Dim K × Action Dim K}
    (hm : m ∈ s.steps env op) : op.Takes m.2 := by
  have closes : ∀ {r : KDTreeImpl Dim K × ℕ} {a : Action Dim K}, m ∈ closing r a → m.2 = a :=
    fun hm => congrArg Prod.snd (mem_closing hm)
  cases op with
  | insert batch =>
    rcases List.mem_append.mp hm with hm | hm
    · obtain ⟨x, hx, heq⟩ := List.mem_map.mp (mem_stepsOf_snd hm)
      exact Or.inl ⟨x, hx, heq.symm⟩
    · exact Or.inr (closes hm)
  | remove queries =>
    rcases List.mem_append.mp hm with hm | hm
    · exact Or.inl (mem_removeSteps hm)
    · exact Or.inr (closes hm)
  | boxDelete boxes =>
    rcases List.mem_append.mp hm with hm | hm
    · obtain ⟨box, hbox, heq⟩ := List.mem_map.mp (mem_stepsOf_snd hm)
      exact Or.inl ⟨box, hbox, heq.symm⟩
    · exact Or.inr (closes hm)
  | radiusCrop center r =>
    rcases List.mem_cons.mp hm with rfl | hm
    · exact Or.inl rfl
    · exact Or.inr (closes hm)
  | rebuildAll => exact congrArg Prod.snd (List.mem_singleton.mp hm)

theorem steps_ne_rebuildAll {op : Op Dim K} (hop : op ≠ .rebuildAll)
    {m : KDTreeImpl Dim K × Action Dim K} (hm : m ∈ s.steps env op) : m.2 ≠ .rebuildAll := by
  intro heq
  have htakes := steps_takes hm
  rw [heq] at htakes
  cases op with
  | rebuildAll => exact hop rfl
  | _ => simp [Op.Takes] at htakes

theorem insert_closing {batch : List (Point Dim K)} (h : 0 < (s.insert env batch).2) :
    ((insertLoop env s batch).1, Action.sweepFull) ∈ s.steps env (.insert batch) ∧
      (s.insert env batch).1 = (insertLoop env s batch).1.maybePartialRebuildFull env := by
  change 0 < (insertLoop env s batch).2 at h
  constructor
  · exact List.mem_append_right _ (closing_mem .sweepFull h)
  · change (if 0 < (insertLoop env s batch).2 then _ else _) = _
    rw [if_pos h]

theorem steps_later {op : Op Dim K} (hop : op ≠ .rebuildAll) :
    ∀ m ∈ s.steps env op, Later (m.1.act env m.2) (s.apply env op).1 :=
  ((steps_chain env s op).grows Later.refl Later.trans
    (fun m hm => act_later env m.2 (steps_ne_rebuildAll hop hm))).2

theorem steps_noWrap {op : Op Dim K} (h : (s.apply env op).1.NoWrap) :
    ∀ m ∈ s.steps env op, (m.1.act env m.2).NoWrap := by
  by_cases hop : op = .rebuildAll
  · subst hop
    exact List.forall_mem_singleton.mpr h
  · exact fun m hm => h.of_later (steps_later hop m hm)

omit [IsStrictOrderedRing K] in
theorem act_cfg (env : Env K) (a : Action Dim K) :
    (s.act env a).cfg = s.cfg ∧ (s.act env a).points.capacity = s.points.capacity := by
  by_cases ha : a = .rebuildAll
  · subst ha
    simp only [act, rebuildAll]
    split_ifs
    · exact ⟨rfl, rfl⟩
    · have hl := rebuild_later env { s with pools := Pools.clear }
        (s.points.forEachLive.map Prod.fst)
      exact ⟨hl.cfg, hl.points.capacity⟩
  · have hl := act_later (s := s) env a ha
    exact ⟨hl.cfg, hl.points.capacity⟩

end
end KDTreeImpl
end Copse

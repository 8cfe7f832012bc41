import Copse.AmortizedRebuilds
import Copse.EvictionOrder

set_option autoImplicit false

namespace Copse
open PointStore QueueOutline TreeBuilder TransitionRuns

namespace PointStore
variable {Dim : ℕ} {K : Type*}

/-- Slot `i` is live and stands at place `j` of the ring, counted from its head. -/
def Standing (points : PointStore Dim K) (i j : ℕ) : Prop :=
  ∃ window free, Ring points window free ∧ window[j]? = some i

/-- The occupant of slot `i` in the second store, if it has the stamp of the first, was there
then. -/
def Precedes (i : ℕ) (points points' : PointStore Dim K) : Prop :=
  points.stampCount i ≤ points'.stampCount i ∧
    (points'.stampCount i = points.stampCount i → points'.isLive i = true → points.isLive i = true)

section
variable {points points' points'' : PointStore Dim K} {i j : ℕ} {window free l : List ℕ}

theorem Precedes.refl (i : ℕ) (points : PointStore Dim K) : Precedes i points points :=
  ⟨le_rfl, fun _ h => h⟩

theorem Precedes.trans (h : Precedes i points points') (h' : Precedes i points' points'') :
    Precedes i points points'' := by
  have hle := h.1
  have hle' := h'.1
  exact ⟨hle.trans hle', fun heq hlive => h.2 (by omega) (h'.2 (by omega) hlive)⟩

theorem precedes_acquire (h : Ring points window free) (x : Point Dim K) :
    Precedes i points (points.acquire x).1 := by
  refine ⟨acquire_stampCount_le x h i, fun heq hlive => ?_⟩
  rcases (acquire_isLive x h i).mp hlive with hlive | rfl
  · exact hlive
  · have hlt := acquire_stampCount_self x h
    omega

theorem precedes_releaseAll (l : List ℕ) : Precedes i points (points.releaseAll l) := by
  refine ⟨(releaseAll_stampCount points l i).ge, fun _ hlive => ?_⟩
  rw [releaseAll_isLive, Bool.and_eq_true] at hlive
  exact hlive.1

theorem Precedes.lasts {n : ℕ} (h : Precedes i points points') (h' : Precedes i points' points'')
    (hn : points.stampCount i = n) (hn' : points''.stampCount i = n)
    (hlive : points''.isLive i = true) :
    points'.stampCount i = n ∧ points'.isLive i = true := by
  have hle := h.1
  have hle' := h'.1
  exact ⟨by omega, h'.2 (by omega) hlive⟩

/-- An insertion into a full store brings every other occupant one place closer to the head. -/
theorem Standing.acquire (h : Standing points i j) (x : Point Dim K)
    (hi : i ≠ (points.acquire x).2) :
    ∃ j', Standing (points.acquire x).1 i j' ∧
      (if points.live = points.capacity then 1 else 0) + j' ≤ j := by
  obtain ⟨window, free, hring, hj⟩ := h
  obtain ⟨free', hring'⟩ := acquire_ring hring x
  have hlt := (List.getElem?_eq_some_iff.mp hj).1
  split_ifs with hfull
  · obtain ⟨-, -, -, -, hvictim⟩ := acquire_cases x hring
    obtain ⟨v, rest, rfl, rfl⟩ := hring.exists_oldest hfull
    have hv : (points.acquire x).2 = v := by rw [← hvictim hfull, (evict_ring hring).1]
    rw [hv, List.erase_cons_head] at hring'
    cases j with
    | zero =>
      rw [List.getElem?_cons_zero, Option.some_inj] at hj
      exact absurd (hj.symm.trans hv.symm) hi
    | succ j =>
      rw [List.getElem?_cons_succ] at hj
      refine ⟨j, ⟨_, free', hring', ?_⟩, by omega⟩
      rwa [List.getElem?_append_left (List.getElem?_eq_some_iff.mp hj).1]
  · have hnew : (points.acquire x).2 ∉ window := by
      rw [← hring.isLive_iff, acquire_not_live x hring hfull]
      exact Bool.false_ne_true
    rw [List.erase_of_not_mem hnew] at hring'
    exact ⟨j, ⟨_, free', hring', by rwa [List.getElem?_append_left hlt]⟩, by omega⟩

theorem Standing.releaseAll (h : Standing points i j) (hl : ∀ k ∈ l, points.isLive k = true)
    (hd : l.Nodup) (hi : i ∉ l) : ∃ j', Standing (points.releaseAll l) i j' ∧ j' ≤ j := by
  obtain ⟨window, free, hring, hj⟩ := h
  obtain ⟨window', free', hring', hremoved⟩ := releaseAll_swapRemoved hring
    (fun k hk => (hring.isLive_iff k).mp (hl k hk)) hd
  by_cases hlt : j < window'.length
  · exact ⟨j, ⟨window', free', hring', hremoved.stays j i hlt hj (by simpa using hi)⟩, le_rfl⟩
  · have hmem : i ∈ window' := by
      rw [hremoved.perm.mem_iff, List.mem_filter]
      exact ⟨List.mem_of_getElem? hj, by simpa using hi⟩
    obtain ⟨j', hj'⟩ := List.mem_iff_getElem?.mp hmem
    have hlt' := (List.getElem?_eq_some_iff.mp hj').1
    exact ⟨j', ⟨window', free', hring', hj'⟩, by omega⟩

theorem acquire_live (points : PointStore Dim K) (x : Point Dim K) :
    (points.acquire x).1.live =
      (if points.live = points.capacity then points.live - 1 else points.live) + 1 := by
  rw [acquire]
  split_ifs <;> rfl

end
end PointStore

namespace KDTreeImpl
variable {Dim : ℕ} [NeZero Dim] {K : Type*} [Field K] [LinearOrder K]

/-- Slot `i` keeps the stamp `n` and is at place `j` of the eviction order. -/
def Stands (i n : ℕ) (s : KDTreeImpl Dim K) (j : ℤ) : Prop :=
  s.points.stampCount i = n ∧ ∃ k : ℕ, (k : ℤ) = j ∧ Standing s.points i k

section
variable {env : Env K} {s s' : KDTreeImpl Dim K} {a : Action Dim K} {i n : ℕ} {j : ℤ}

theorem act_precedes (env : Env K) (a : Action Dim K)
    (h : ∃ window free, Ring s.points window free) :
    Precedes i s.points (s.act env a).points := by
  obtain ⟨window, free, hring⟩ := h
  by_cases ha : ∃ x, a = .insertPoint x
  · obtain ⟨x, rfl⟩ := ha
    cases hx : s.accepts x with
    | false =>
      rw [act_rejected env hx]
      exact .refl i s.points
    | true =>
      rw [act_accepted env hx]
      exact precedes_acquire hring x
  · obtain ⟨l, hl⟩ := act_releases env s a (fun x hx => ha ⟨x, hx⟩)
    rw [hl]
    exact precedes_releaseAll l

omit [NeZero Dim] in
theorem evicts_accepted {x : Point Dim K} (hx : s.accepts x = true) :
    (s.evicts (.insertPoint x) = true) = (s.points.live = s.points.capacity) := by
  rw [evicts, hx, Bool.true_and, decide_eq_true_eq]

end

section
variable {env : Env K} {cfg : Config K} {s s' : KDTreeImpl Dim K} {a : Action Dim K} {i n : ℕ}
  {j : ℤ} {o : Option (Tree Dim K)} [IsStrictOrderedRing K]

omit [IsStrictOrderedRing K] in
theorem act_stands (hs : Sound s o) (ready : s.Ready a) (hn : (s.act env a).NoWrap)
    (h : Stands i n s j) (hstamp : (s.act env a).points.stampCount i = n)
    (hlive : (s.act env a).points.isLive i = true) :
    ∃ j', Stands i n (s.act env a) j' ∧ (if s.evicts a = true then 1 else 0) + j' ≤ 0 + j := by
  obtain ⟨hbefore, k, rfl, hstands⟩ := h
  obtain ⟨window, free, hring⟩ := hs.ring
  have released : ∀ {l : List ℕ}, s.evicts a = false →
      (s.act env a).points = s.points.releaseAll l → (∀ k ∈ l, s.points.isLive k = true) →
      l.Nodup → ∃ j', Stands i n (s.act env a) j' ∧
        (if s.evicts a = true then 1 else 0) + j' ≤ 0 + (k : ℤ) := by
    intro l hev hpoints hl hd
    have hi : i ∉ l := by
      rw [hpoints, releaseAll_isLive, Bool.and_eq_true, decide_eq_true_eq] at hlive
      exact hlive.2
    obtain ⟨k', hk', hle⟩ := hstands.releaseAll hl hd hi
    rw [← hpoints] at hk'
    refine ⟨k', ⟨hstamp, k', rfl, hk'⟩, ?_⟩
    rw [hev, if_neg Bool.false_ne_true]
    omega
  have unchanged : s.evicts a = false → (s.act env a).points = s.points →
      ∃ j', Stands i n (s.act env a) j' ∧
        (if s.evicts a = true then 1 else 0) + j' ≤ 0 + (k : ℤ) :=
    fun hev hpoints => released (l := []) hev hpoints (by simp) List.nodup_nil
  cases a with
  | insertPoint x =>
    cases hx : s.accepts x with
    | false =>
      have hev : s.evicts (.insertPoint x) = false := by rw [evicts, hx, Bool.false_and]
      exact unchanged hev (by rw [act_rejected env hx])
    | true =>
      have hpoints := act_accepted env hx
      have hother : i ≠ (s.points.acquire x).2 := by
        rintro rfl
        have hlt := acquire_stampCount_self x hring
        rw [hpoints] at hstamp
        omega
      obtain ⟨k', hk', hle⟩ := hstands.acquire x hother
      rw [← hpoints] at hk'
      refine ⟨k', ⟨hstamp, k', rfl, hk'⟩, ?_⟩
      simp only [evicts_accepted hx]
      split_ifs at hle ⊢ <;> omega
  | removeIndex v =>
    refine released (l := [v]) rfl rfl (fun u hu => ?_) (List.nodup_singleton v)
    rw [List.mem_singleton.mp hu]
    exact ready
  | deleteRegion rg =>
    obtain ⟨l, hpoints, -, hd, hl⟩ := deleteRegion_clears env.counter rg hs hn
    exact released rfl hpoints (fun u hu => ((hl u).mp hu).1) hd
  | sweepFull => exact unchanged rfl (sweepFull_points env s)
  | sweep => exact unchanged rfl (sweep_points env s)
  | rebuildAll => exact unchanged rfl (rebuildAll_points env s)

theorem steps_precedes (op : Op Dim K) (hs : Sound s o) (hn : (s.apply env op).1.NoWrap) :
    Precedes i s.points (s.apply env op).1.points ∧
      ∀ m ∈ s.steps env op, Precedes i (m.1.act env m.2).points (s.apply env op).1.points := by
  refine (steps_chain env s op).grows
    (r := fun u v : KDTreeImpl Dim K => Precedes i u.points v.points)
    (fun u => .refl i u.points) (fun h h' => h.trans h') (fun m hm => ?_)
  obtain ⟨o', ho'⟩ := steps_sound hs hn m hm
  exact act_precedes env m.2 ho'.ring

theorem steps_stands (op : Op Dim K) (hs : Sound s o) (hn : (s.apply env op).1.NoWrap)
    (h : Stands i n s j) (hstamp : (s.apply env op).1.points.stampCount i = n)
    (hlive : (s.apply env op).1.points.isLive i = true) :
    ∃ j', Stands i n (s.apply env op).1 j' ∧
      ((s.steps env op).map (fun m => if m.1.evicts m.2 = true then (1 : ℤ) else 0)).sum + j' ≤
        0 + j := by
  have hprecedes := (steps_precedes (i := i) op hs hn).2
  have hnoWrap := steps_noWrap hn
  have hready := steps_ready op hs hnoWrap
  have hstep : ∀ m ∈ s.steps env op, ∀ j, Stands i n m.1 j →
      ∃ j', Stands i n (m.1.act env m.2) j' ∧
        (if m.1.evicts m.2 = true then 1 else 0) + j' ≤ 0 + j := by
    intro m hm j hj
    obtain ⟨o', ho'⟩ := steps_sound hs hn m hm
    have hlasts := (act_precedes env m.2 ho'.ring).lasts (hprecedes m hm) hj.1 hstamp hlive
    exact act_stands ho' (hready m hm) (hnoWrap m hm) hj hlasts.1 hlasts.2
  obtain ⟨j', hj', hle⟩ := (steps_chain env s op).amortized hstep h
  rw [List.map_const', List.sum_replicate, smul_zero] at hle
  exact ⟨j', hj', hle⟩

def evictions (env : Env K) (s : KDTreeImpl Dim K) : Op Dim K → ℕ
  | .insert batch => s.size + (s.insert env batch).2 - (s.insert env batch).1.size
  | _ => 0

section
omit [IsStrictOrderedRing K]

theorem insertPoint_size (h : ∃ window free, Ring s.points window free) (x : Point Dim K) :
    ((s.act env (.insertPoint x)).size : ℤ) +
        (if s.evicts (.insertPoint x) = true then 1 else 0) =
      s.size + (s.insertPoint env x).2 := by
  obtain ⟨window, free, hring⟩ := h
  cases hx : s.accepts x with
  | false => simp [act, insertPoint, evicts, hx]
  | true =>
    have hpos := hring.pos
    have hsize : (s.act env (.insertPoint x)).size = (s.points.acquire x).1.live := by
      rw [size, act_accepted env hx, PointStore.size]
    have hone : (s.insertPoint env x).2 = 1 := by rw [insertPoint, if_pos hx]
    simp only [evicts_accepted hx]
    rw [hsize, hone, acquire_live, size, PointStore.size]
    split_ifs <;> omega

theorem act_insertPoint_ring (env : Env K) (x : Point Dim K)
    (h : ∃ window free, Ring s.points window free) :
    ∃ window free, Ring (s.act env (.insertPoint x)).points window free := by
  cases hx : s.accepts x with
  | false =>
    rw [act_rejected env hx]
    exact h
  | true =>
    obtain ⟨window, free, hring⟩ := h
    obtain ⟨free', hring'⟩ := acquire_ring hring x
    rw [act_accepted env hx]
    exact ⟨_, free', hring'⟩

theorem insertLoop_size (batch : List (Point Dim K))
    (h : ∃ window free, Ring s.points window free) :
    ((insertLoop env s batch).1.size : ℤ) +
        ((stepsOf (act env) s (batch.map .insertPoint)).map
          (fun m => if m.1.evicts m.2 = true then (1 : ℤ) else 0)).sum =
      s.size + (insertLoop env s batch).2 := by
  induction batch generalizing s with
  | nil => simp [insertLoop, stepsOf]
  | cons x batch ih =>
    have hfirst : ((s.act env (.insertPoint x)).size : ℤ) + _ = _ := insertPoint_size h x
    have hrest := ih (act_insertPoint_ring env x h)
    have hcount : (insertLoop env s (x :: batch)).2 =
        (s.insertPoint env x).2 + (insertLoop env (s.act env (.insertPoint x)) batch).2 := rfl
    have hstate : (insertLoop env s (x :: batch)).1 =
        (insertLoop env (s.act env (.insertPoint x)) batch).1 := rfl
    rw [hcount, hstate, List.map_cons, stepsOf, List.map_cons, List.sum_cons]
    push_cast
    linarith

end

/-- The evictions of a call are those of its actions. -/
theorem steps_evictions (op : Op Dim K) (h : ∃ window free, Ring s.points window free) :
    ((s.steps env op).map (fun m => if m.1.evicts m.2 = true then (1 : ℤ) else 0)).sum =
      (s.evictions env op : ℕ) := by
  by_cases hop : ∃ batch, op = .insert batch
  · obtain ⟨batch, rfl⟩ := hop
    have hloop : ((insertLoop env s batch).1.size : ℤ) + _ = _ := insertLoop_size batch h
    have hclosing : ((closing (insertLoop env s batch) .sweepFull).map
        (fun m => if m.1.evicts m.2 = true then (1 : ℤ) else 0)).sum = 0 := by
      rw [closing]
      split_ifs <;> simp [evicts]
    have hsize : (s.insert env batch).1.size = (insertLoop env s batch).1.size := by
      simp only [insert]
      split_ifs
      · rw [size, sweepFull_points, size]
      · rfl
    have hcount : (s.insert env batch).2 = (insertLoop env s batch).2 := rfl
    have hsum : 0 ≤ ((stepsOf (act env) s (batch.map .insertPoint)).map
        (fun m => if m.1.evicts m.2 = true then (1 : ℤ) else 0)).sum :=
      List.sum_nonneg (by simp only [List.mem_map]; rintro _ ⟨m, -, rfl⟩; split_ifs <;> decide)
    rw [steps, List.map_append, List.sum_append, hclosing, add_zero, evictions, hsize, hcount]
    omega
  · have hop' : ∀ batch, op ≠ .insert batch := fun batch heq => hop ⟨batch, heq⟩
    have hzero : s.evictions env op = 0 := by
      cases op with
      | insert batch => exact absurd rfl (hop' batch)
      | _ => rfl
    rw [hzero, Nat.cast_zero]
    refine List.sum_eq_zero (fun k hk => ?_)
    obtain ⟨m, hm, rfl⟩ := List.mem_map.mp hk
    have hins := delete_steps_insert hop' m hm
    cases ha : m.2 with
    | insertPoint x => exact absurd ha (hins x)
    | _ => rfl

/-- A point that stands at place `j` of the eviction order is gone after more than `j` evictions,
whatever deletions and rebuilds come between them. -/
theorem lifetime_bounded (hB : 2 * cfg.leafBucketSize ≤ 65535) (h : Reachable env cfg s)
    (ops : List (Op Dim K)) (hn : ∀ m ∈ calls env s ops, (m.1.apply env m.2).1.NoWrap) {j : ℕ}
    (hj : (s.points.forEachLive.map Prod.fst)[j]? = some i)
    (hstamp : (run env s ops).points.generation i = s.points.generation i)
    (hlive : (run env s ops).points.isLive i = true) :
    ((calls env s ops).map (fun m => m.1.evictions env m.2)).sum ≤ j := by
  have hchain : Chain _ s (calls env s ops) (run env s ops) := stepsOf_chain _ s ops
  obtain ⟨hreach, hlast⟩ := hchain.invariant
    (P := Reachable env cfg) (fun m hm hr => .step m.2 hr ⟨rfl, hn m hm⟩) h
  obtain ⟨o, hs⟩ := h.sound hB
  obtain ⟨o', hs'⟩ := hlast.sound hB
  rw [generation_eq hs.noWrap.stamps, generation_eq hs'.noWrap.stamps] at hstamp
  obtain ⟨window, free, hring⟩ := hs.ring
  rw [forEachLive_fst hring] at hj
  have hprecedes : ∀ m ∈ calls env s ops,
      Precedes i (m.1.apply env m.2).1.points (run env s ops).points := by
    refine (hchain.grows (r := fun u v : KDTreeImpl Dim K => Precedes i u.points v.points)
      (fun u => .refl i u.points) (fun h h' => h.trans h') (fun m hm => ?_)).2
    obtain ⟨o', ho'⟩ := (hreach m hm).sound hB
    exact (steps_precedes m.2 ho' (hn m hm)).1
  have hstep : ∀ m ∈ calls env s ops, ∀ j, Stands i (s.points.stampCount i) m.1 j →
      ∃ j', Stands i (s.points.stampCount i) (m.1.apply env m.2).1 j' ∧
        (m.1.evictions env m.2 : ℤ) + j' ≤ 0 + j := by
    intro m hm j hj
    obtain ⟨o', ho'⟩ := (hreach m hm).sound hB
    have hlasts := (steps_precedes m.2 ho' (hn m hm)).1.lasts (hprecedes m hm) hj.1 hstamp hlive
    rw [← steps_evictions m.2 ho'.ring]
    exact steps_stands m.2 ho' (hn m hm) hj hlasts.1 hlasts.2
  have hstart : Stands i (s.points.stampCount i) s (j : ℤ) :=
    ⟨rfl, j, rfl, window, free, hring, hj⟩
  obtain ⟨_, ⟨-, k, rfl, -⟩, hle⟩ := hchain.amortized hstep hstart
  rw [List.map_const', List.sum_replicate, smul_zero, zero_add] at hle
  have hsum : ((calls env s ops).map (fun m => (m.1.evictions env m.2 : ℤ))).sum =
      ((calls env s ops).map (fun m => m.1.evictions env m.2)).sum := by
    rw [Nat.cast_list_sum, List.map_map]
    rfl
  rw [hsum] at hle
  omega

end

def filledRun : KDTreeImpl 2 ℚ :=
  run exactEnv (start (plane 3 (1 / 4))) [.insert [![0, 0], ![1, 0], ![2, 0]]]

def passingCalls : List (Op 2 ℚ) := [.remove [![0, 0]], .insert [![3, 0], ![4, 0]]]

theorem lifetime_bounded_plane :
    ((calls exactEnv filledRun passingCalls).map (fun m => m.1.evictions exactEnv m.2)).sum ≤ 1 := by
  have hfit : (calls exactEnv filledRun passingCalls).all
      (fun m => (m.1.apply exactEnv m.2).1.fits) = true := by
    decide +kernel
  rw [List.all_eq_true] at hfit
  have hreach : Reachable exactEnv (plane 3 (1 / 4)) filledRun :=
    reachable_run (plane_accepted (by decide) (by norm_num)) (by decide +kernel)
  have hplace : (filledRun.points.forEachLive.map Prod.fst)[1]? = some 1 := by decide +kernel
  exact lifetime_bounded (by decide) hreach passingCalls (fun m hm => noWrap_of_fits (hfit m hm))
    hplace (by decide +kernel) (by decide +kernel)

end KDTreeImpl
end Copse

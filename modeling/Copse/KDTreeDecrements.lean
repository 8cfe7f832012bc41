import Copse.DecrementBounds

set_option autoImplicit false

namespace Copse
open PointStore TreeBuilder TransitionRuns

namespace KDTreeImpl
variable {Dim : ℕ} [NeZero Dim] {K : Type*} [Field K] [LinearOrder K]

def decrements (c : Counter) (s : KDTreeImpl Dim K) : Action Dim K → List (ℤ × ℤ)
  | .removeIndex i => tombstoneDecrements c (s.points.point i) s.pools.nodes.length s.pools s.root
  | .deleteRegion rg =>
    if s.root = invalid then []
    else deleteDecrements c rg s.pools.nodes.length s.pools s.points s.root s.rootBBox
      s.modifiedNodes
  | _ => []

def overflows (s : KDTreeImpl Dim K) : Action Dim K → Bool
  | .insertPoint x => s.accepts x && decide (s.root ≠ invalid) &&
      decide (2 ^ 32 ≤ (s.pools.node s.root).subtreeTotalCount + 1)
  | _ => false

def CountsOrdered (s : KDTreeImpl Dim K) : Prop :=
  s.root ≠ invalid → ∀ d i, s.pools.Below s.root d i →
    0 ≤ (s.pools.node i).subtreeLiveCount ∧
      (s.pools.node i).subtreeLiveCount ≤ (s.pools.node i).subtreeTotalCount

/-- The counters of the tree bound what they count, within a word. -/
def Bounded (s : KDTreeImpl Dim K) : Option (Tree Dim K) → Prop :=
  Tree.IfAny (fun t => t.All (Tree.Covered s.points) ∧ t.total < 2 ^ 32)

section
variable {env : Env K} {cfg : Config K} {s : KDTreeImpl Dim K} {a : Action Dim K}
variable {o o' : Option (Tree Dim K)}

omit [NeZero Dim] in
theorem Bounded.ordered (hs : Sound s o) (h : Bounded s o) : s.CountsOrdered := by
  intro hroot d i hi
  cases o with
  | none => exact absurd hs.reads.root hroot
  | some t =>
    have holds : Holds s t := hs.reads
    rw [← holds.root] at hi
    obtain ⟨u, -, hu, -, hnode, -⟩ := holds.rep.below_counts s.points h.1 hi
    rw [hnode, Tree.live_header, Tree.total_header]
    have hvalid := hu.root.valid
    exact ⟨by omega, hu.root.live⟩

theorem act_bounded (hs : Sound s o) (ready : s.Ready a) (hev : Evolved env s a o o')
    (hs' : Sound (s.act env a) o') (htie : s.strays a = false) (hroom : s.overflows a = false)
    (h : Bounded s o) : Bounded (s.act env a) o' := by
  obtain ⟨window, free, hring⟩ := hs.ring
  cases hev with
  | rejected x o hx =>
    rw [act_rejected env hx]
    exact h
  | first x t' hx built =>
    have hpts := act_accepted env hx
    have htotal := built.total_eq (by simp)
    rw [Bounded, hpts]
    have hcover :=
      built.covered (List.forall_mem_singleton.mpr (acquire_self_live x hring)) (by simp)
    exact ⟨hcover, by simp [htotal]⟩
  | inserted x t t' hx ins =>
    have holds : Holds s t := hs.reads
    have stamps := hs'.noWrap.stamps
    have hpts := act_accepted env hx
    have hlt : t.total + 1 < 2 ^ 32 := by
      have hnode := holds.rep.node_eq
      rw [holds.root] at hnode
      simpa [overflows, hx, holds.root_valid hs.noWrap, hnode, Tree.total_header] using hroom
    rw [Bounded, hpts]
    rw [hpts] at stamps
    have hstale : t.All (Tree.Covered (s.points.acquire x).1) :=
      Tree.covered_fewer h.1
        (fun e he hv => (Tree.fewer_acquire hring x stamps holds.stamped e he hv).1)
    obtain ⟨hc, htotal⟩ := ins.covered (acquire_self_live x hring) hstale hlt
    exact ⟨hc, htotal.trans_lt hlt⟩
  | tombstoned i t =>
    have holds : Holds s t := hs.reads
    have hnew := Tree.covered_tombstone (c := env.counter) h.1 h.2 holds.placed holds.nodup
      ((holds.complete i).mp ready) (tieFree_of_strays holds htie)
    exact ⟨hnew, (Tree.total_tombstone _ t).trans_lt h.2⟩
  | missing rg => trivial
  | discounted rg t t' hd =>
    obtain ⟨hc, htotal⟩ := hd.covered h.1 h.2 (deleteRegion_valid rg hs hs'.noWrap)
    exact ⟨hc, htotal.trans_lt h.2⟩
  | idleFull => trivial
  | idle => trivial
  | sweptFull t t' swept =>
    have hpts : (s.act env .sweepFull).points = s.points := sweepFull_points env s
    obtain ⟨hc, htotal⟩ := swept.covered h.1 h.2
    rw [Bounded, hpts]
    exact ⟨hc, htotal.trans_lt h.2⟩
  | swept called t t' swept =>
    have hpts : (s.act env .sweep).points = s.points := sweep_points env s
    obtain ⟨hc, htotal⟩ := swept.covered h.1 h.2
    rw [Bounded, hpts]
    exact ⟨hc, htotal.trans_lt h.2⟩
  | emptied o => trivial
  | rebuilt o window t' hlive built =>
    have hpts : (s.act env .rebuildAll).points = s.points := rebuildAll_points env s
    have hall : ∀ i ∈ window, s.points.isLive i = true := fun i hi => (hlive i).mp hi
    have hlen : window.length < 2 ^ 32 := by
      have hsize := hs'.size_eq
      have hsmall := hs'.size_lt
      rw [hpts, (built.validIn_perm hall).length_eq] at hsize
      omega
    have htotal := built.total_eq hlen
    rw [Bounded, hpts]
    exact ⟨built.covered hall hlen, by omega⟩

omit [NeZero Dim] in
theorem decrements_covered (hs : Sound s o) (ready : s.Ready a) (htie : s.strays a = false)
    (h : Bounded s o) : ∀ m ∈ s.decrements env.counter a, m.2 ≤ m.1 := by
  cases o with
  | none =>
    cases a with
    | removeIndex i => exact absurd ready (by simp [Ready, hs.reads.none i])
    | deleteRegion rg => simp [decrements, hs.reads.root]
    | _ => simp [decrements]
  | some t =>
    have holds : Holds s t := hs.reads
    cases a with
    | removeIndex i =>
      rw [decrements, ← holds.root]
      exact tombstoneDecrements_le holds.rep _ h.1 holds.placed ((holds.complete i).mp ready)
        (tieFree_of_strays holds htie)
    | deleteRegion rg =>
      rw [decrements, if_neg (holds.root_valid hs.noWrap), ← holds.root]
      exact deleteDecrements_le rg holds.rep _ holds.height_lt h.1 holds.nodup holds.placed
        s.rootBBox holds.inBox s.modifiedNodes
    | _ => simp [decrements]

variable [IsStrictOrderedRing K]

/-- As long as no tombstone descent strays and no counter passes a word, no decrement
takes more than the count holds, in any call and at any moment of it. -/
theorem liveCounts_cover (hB : 2 * cfg.leafBucketSize ≤ 65535)
    (h : ReachableWhen env cfg (fun s a => s.strays a = false ∧ s.overflows a = false) s) :
    s.CountsOrdered ∧ ∀ op : Op Dim K, (s.apply env op).1.NoWrap →
      (∀ m ∈ s.steps env op, m.1.strays m.2 = false ∧ m.1.overflows m.2 = false) →
      ∀ m ∈ s.steps env op, m.1.CountsOrdered ∧ (m.1.act env m.2).CountsOrdered ∧
        ∀ d ∈ m.1.decrements env.counter m.2, d.2 ≤ d.1 := by
  have hP : ∀ (s : KDTreeImpl Dim K) a o o', Sound s o → s.Ready a → Evolved env s a o o' →
      Sound (s.act env a) o' → (s.strays a = false ∧ s.overflows a = false) → Bounded s o →
      Bounded (s.act env a) o' :=
    fun s a o o' hs ready hev hs' hok hp => act_bounded hs ready hev hs' hok.1 hok.2 hp
  obtain ⟨o, hs, hbound⟩ := h.invariant hB (fun _ _ _ => trivial) hP
  refine ⟨hbound.ordered hs, fun op hn hok m hm => ?_⟩
  have hwrap := steps_noWrap hn m hm
  have hready := steps_ready op hs (steps_noWrap hn) m hm
  obtain ⟨u, hsu, hu⟩ := (steps_invariant hP ⟨o, hs, hbound⟩ hn hok).1 m hm
  obtain ⟨u', hev, hsu'⟩ := act_sound env m.2 hsu hready hwrap
  have hu' := hP m.1 m.2 u u' hsu hready hev hsu' (hok m hm) hu
  exact ⟨hu.ordered hsu, hu'.ordered hsu', decrements_covered hsu hready (hok m hm).1 hu⟩

end

def tiedRun : KDTreeImpl 2 ℚ :=
  run wordEnv (start (plane 10 1)) [.insert [![5, 0], ![5, 1], ![9, 0]], .rebuildAll]

def tiedRemoval : List (Point 2 ℚ) := [![5, 0], ![5, 1], ![9, 0]]

/-- Removing all three takes one from a count of zero, and leaves a node that
counts more live points than points. -/
theorem liveCount_wraps_plane :
    Reachable wordEnv (plane 10 1) tiedRun ∧
      (∃ m ∈ tiedRun.steps wordEnv (.remove tiedRemoval),
        ∃ d ∈ m.1.decrements .word m.2, d.1 < d.2) ∧
      ∃ m ∈ tiedRun.steps wordEnv (.remove tiedRemoval), ¬ m.1.CountsOrdered := by
  have hwrap : (tiedRun.steps wordEnv (.remove tiedRemoval)).any
      (fun m => (m.1.decrements .word m.2).any (fun d => decide (d.1 < d.2))) = true := by
    decide +kernel
  have hlast : ((removeLoop wordEnv tiedRun tiedRemoval).1, Action.sweep) ∈
      tiedRun.steps wordEnv (.remove tiedRemoval) :=
    List.mem_append_right _ (closing_mem .sweep (by decide +kernel))
  refine ⟨reachable_run (plane_accepted (by decide) (by norm_num)) (by decide +kernel), ?_,
    _, hlast, fun hordered => ?_⟩
  · obtain ⟨m, hm, hd⟩ := List.any_eq_true.mp hwrap
    obtain ⟨d, hd, hlt⟩ := List.any_eq_true.mp hd
    exact ⟨m, hm, d, hd, of_decide_eq_true hlt⟩
  · have hbody : ((removeLoop wordEnv tiedRun tiedRemoval).1.pools.node
        (removeLoop wordEnv tiedRun tiedRemoval).1.root).body = .internal 0 5 1 2 := by
      decide +kernel
    have hnode := (hordered (by decide +kernel) 1 2 (.right hbody (.refl 2))).2
    exact absurd hnode (by decide +kernel)

def apartRun : KDTreeImpl 2 ℚ :=
  run wordEnv (start (plane 2 1)) [.insert [![0, 0], ![8, 0], ![12, 0]]]

theorem liveCounts_cover_plane :
    apartRun.CountsOrdered ∧ ∀ m ∈ apartRun.steps wordEnv (.remove [![8, 0]]),
      ∀ d ∈ m.1.decrements .word m.2, d.2 ≤ d.1 := by
  have hrun : ReachableWhen wordEnv (plane 2 1)
      (fun s a => s.strays a = false ∧ s.overflows a = false) apartRun :=
    reachableWhen_run (fun s a (h : (!s.strays a && !s.overflows a) = true) => by simpa using h)
      (plane_accepted (by decide) (by norm_num)) (by decide +kernel)
  have hok : (apartRun.steps wordEnv (.remove [![8, 0]])).all
      (fun m => !m.1.strays m.2 && !m.1.overflows m.2) = true := by decide +kernel
  obtain ⟨hordered, hcall⟩ := liveCounts_cover (by decide) hrun
  refine ⟨hordered, fun m hm => ?_⟩
  refine (hcall (.remove [![8, 0]]) (noWrap_of_fits (by decide +kernel)) (fun m hm => ?_) m hm).2.2
  simpa using List.all_eq_true.mp hok m hm

end KDTreeImpl
end Copse

import Copse.KDTreeTraces

set_option autoImplicit false

namespace Copse
open PointStore PointQueue QueueOutline SwapQueue TransitionRuns

/-- The part of an answer that is not up to ties: a count, or the distances that were found. -/
def Answer.visible {Dim : ℕ} {K : Type*} : Answer Dim K → ℕ ⊕ List K
  | .count n => .inl n
  | .found result => .inr (result.map Neighbor.sqDist)

def updates {Dim : ℕ} {K : Type*} (calls : List (Call Dim K)) : List (Op Dim K) :=
  calls.filterMap (fun call => match call with
    | .update op => some op
    | _ => none)

namespace PointQueue
variable {Dim : ℕ} {K : Type*} [Field K] [LinearOrder K]
variable {cfg cfg' : Config K} {q q' u u' : List (Point Dim K)} {f f' : Outline (Point Dim K)}

theorem NearestIn.distances_eq {query : Point Dim K} {k : ℕ∞} {bound : WithTop K}
    {result result' : List (Neighbor Dim K)} (h : NearestIn q query k bound result)
    (h' : NearestIn u query k bound result') (hperm : q.Perm u) :
    result.map Neighbor.sqDist = result'.map Neighbor.sqDist := by
  have hlength : result.length = result'.length := by
    have hl := h.length
    rw [(hperm.filter _).length_eq, ← h'.length] at hl
    exact_mod_cast hl
  rw [h.distances, h'.distances, hlength, KDTreeImpl.insertionSort_congr ((hperm.filter _).map _)]

theorem Next.of_config {i : Call Dim K × Answer Dim K} (hcap : cfg'.capacity = cfg.capacity)
    (hres : cfg'.resolution = cfg.resolution) (h : Next cfg' q i q') : Next cfg q i q' := by
  have hnear : (near cfg' : Point Dim K → Point Dim K → Bool) = near cfg := by
    funext y x
    rw [near, near, hres]
  cases h with
  | insert batch =>
    rw [hcap, hnear]
    exact .insert q batch
  | delete op hop removed =>
    rw [hres] at removed
    exact .delete op hop removed
  | knn query k nearest => exact .knn query k nearest
  | radius query r nearest => exact .radius query r nearest
  | hybrid query k r nearest => exact .hybrid query k r nearest
  | size => exact .size q

/-- An update that can be foreseen leaves no choice but the places the outline leaves open. -/
theorem Next.foreseen {op : Op Dim K} {a : Answer Dim K} {n : ℕ}
    (h : Next cfg q (.update op, a) q') (hq : Describes f q)
    (hf : KDTreeImpl.foresee cfg f op = some (f', n)) : Describes f' q' ∧ a = .count n := by
  cases h with
  | insert batch =>
    obtain ⟨hdesc, hcount⟩ := describes_admitAll hq hf
    rw [← hcount]
    exact ⟨hdesc, rfl⟩
  | delete op hop removed =>
    have hclear := removed.describes hq
    have hforesee : some (f.clearEach (op.rounds (cfg.resolution * cfg.resolution))) =
        some (f', n) := by
      cases op with
      | insert batch => exact absurd rfl (hop batch)
      | remove | boxDelete | radiusCrop | rebuildAll => exact hf
    rw [Option.some.inj hforesee] at hclear
    obtain ⟨hdesc, rfl⟩ := hclear
    exact ⟨hdesc, rfl⟩

/-- A search leaves the queue alone, and the distances it finds are those of the points. -/
theorem Next.searched {call : Call Dim K} {a a' : Answer Dim K}
    (hcall : ∀ op, call ≠ .update op) (h : Next cfg q (call, a) q') (h' : Next cfg u (call, a') u')
    (hperm : q.Perm u) : q' = q ∧ u' = u ∧ a.visible = a'.visible := by
  cases h with
  | insert batch => exact absurd rfl (hcall _)
  | delete op => exact absurd rfl (hcall _)
  | knn query k nearest =>
    cases h' with
    | knn _ _ nearest' => exact ⟨rfl, rfl, congrArg Sum.inr (nearest.distances_eq nearest' hperm)⟩
  | radius query r nearest =>
    cases h' with
    | radius _ _ nearest' => exact ⟨rfl, rfl, congrArg Sum.inr (nearest.distances_eq nearest' hperm)⟩
  | hybrid query k r nearest =>
    cases h' with
    | hybrid _ _ _ nearest' =>
      exact ⟨rfl, rfl, congrArg Sum.inr (nearest.distances_eq nearest' hperm)⟩
  | size =>
    cases h' with
    | size => exact ⟨rfl, rfl, congrArg Sum.inl hperm.length_eq⟩

theorem answers_foreseen [NeZero Dim] {l l' : List (Call Dim K × Answer Dim K)} (h : Trace (Next cfg) q l q')
    (h' : Trace (Next cfg) u l' u') (hcalls : l.map Prod.fst = l'.map Prod.fst)
    (hq : Describes f q) (hu : Describes f u)
    (hf : (KDTreeImpl.foreseeAll cfg f (updates (l.map Prod.fst))).isSome = true) :
    l.map (fun i => i.2.visible) = l'.map (fun i => i.2.visible) ∧ q'.Perm u' := by
  induction h generalizing u l' f with
  | nil =>
    cases h' with
    | nil => exact ⟨rfl, hq.perm.trans hu.perm.symm⟩
    | cons => cases hcalls
  | @cons q q₁ q₂ i l first rest ih =>
    cases h' with
    | nil => cases hcalls
    | @cons _ u₁ _ i' l' first' rest' =>
      obtain ⟨call, a⟩ := i
      obtain ⟨call', a'⟩ := i'
      rw [List.map_cons, List.map_cons, List.cons.injEq] at hcalls
      obtain ⟨heq, hcalls⟩ := hcalls
      dsimp only at heq
      subst heq
      by_cases hcall : ∃ op, call = .update op
      · obtain ⟨op, rfl⟩ := hcall
        obtain ⟨r, hr⟩ := Option.isSome_iff_exists.mp hf
        obtain ⟨f₁, n, ns, hop, hops, -⟩ := KDTreeImpl.foreseeAll_cons hr
        obtain ⟨hdesc, rfl⟩ := first.foreseen hq hop
        obtain ⟨hdesc', rfl⟩ := first'.foreseen hu hop
        obtain ⟨hrest, hperm⟩ := ih rest' hcalls hdesc hdesc'
          (Option.isSome_iff_exists.mpr ⟨_, hops⟩)
        exact ⟨congrArg (List.cons _) hrest, hperm⟩
      · have hcall' : ∀ op, call ≠ .update op := fun op h => hcall ⟨op, h⟩
        have hskip : updates (call :: l.map Prod.fst) = updates (l.map Prod.fst) := by
          cases call with
          | update op => exact absurd rfl (hcall' op)
          | knn | radius | hybrid | size => rfl
        rw [List.map_cons, hskip] at hf
        obtain ⟨rfl, rfl, hvisible⟩ := first.searched hcall' first' (hq.perm.trans hu.perm.symm)
        obtain ⟨hrest, hperm⟩ := ih rest' hcalls hq hu hf
        exact ⟨congrArg₂ List.cons hvisible hrest, hperm⟩

end PointQueue

namespace KDTreeImpl
variable {Dim : ℕ} [NeZero Dim] {K : Type*} [Field K] [LinearOrder K] [IsStrictOrderedRing K]
variable {env env' : Env K} {cfg cfg' : Config K} {s s' u u' : KDTreeImpl Dim K}

/-- Two new trees of the same capacity and resolution give the same counts and the same distances
to any sequence of calls whose evictions can be foreseen, and end with the same points. Their leaf
sizes, rebuild thresholds, counters, selection and sorting routines may all differ. -/
theorem knobs_unobservable (hcap : cfg'.capacity = cfg.capacity)
    (hres : cfg'.resolution = cfg.resolution) (hB : 2 * cfg.leafBucketSize ≤ 65535)
    (hB' : 2 * cfg'.leafBucketSize ≤ 65535) (hs : create cfg = .ok s) (hu : create cfg' = .ok u)
    (hn : s.NoWrap) (hn' : u.NoWrap) {l l' : List (Call Dim K × Answer Dim K)}
    (h : Trace (Answers env) s l s') (h' : Trace (Answers env') u l' u')
    (hcalls : l.map Prod.fst = l'.map Prod.fst)
    (hf : (foreseeAll cfg (Outline.ofList []) (updates (l.map Prod.fst))).isSome = true) :
    l.map (fun i => i.2.visible) = l'.map (fun i => i.2.visible) ∧
      s'.evictionOrder.Perm u'.evictionOrder := by
  obtain ⟨q, hq, hqueued⟩ := exists_queue hB hs hn h
  obtain ⟨q', hq', hqueued'⟩ := exists_queue hB' hu hn' h'
  rw [hqueued.order, hqueued'.order]
  exact answers_foreseen hq (hq'.mono (fun _ _ _ => Next.of_config hcap hres)) hcalls
    (describes_ofList []) (describes_ofList []) hf

def broad : Config ℚ := { plane 3 (3 / 4) with leafBucketSize := 3, alpha := 9 / 10 }

theorem broad_accepted : Accepted broad := by
  refine ⟨by decide, ?_, by decide, ?_, ?_⟩ <;> norm_num [broad, plane]

theorem knobs_unobservable_plane :
    (replies wordEnv (start (plane 3 (1 / 4))) queueCalls).map (fun i => i.2.visible) =
        (replies exactEnv (start broad) queueCalls).map (fun i => i.2.visible) ∧
      (after wordEnv (start (plane 3 (1 / 4))) queueCalls).evictionOrder.Perm
        (after exactEnv (start broad) queueCalls).evictionOrder := by
  have hcap : broad.capacity = (plane 3 (1 / 4)).capacity := rfl
  have hres : broad.resolution = (plane 3 (1 / 4)).resolution := rfl
  have hs : create (plane 3 (1 / 4)) = .ok (start (plane 3 (1 / 4)) : KDTreeImpl 2 ℚ) :=
    create_start (plane_accepted (by decide) (by norm_num))
  have hu : create broad = .ok (start broad : KDTreeImpl 2 ℚ) := create_start broad_accepted
  exact knobs_unobservable hcap hres (by decide) (by decide) hs hu
    (noWrap_of_fits (by decide +kernel)) (noWrap_of_fits (by decide +kernel))
    (replies_trace (by decide +kernel)) (replies_trace (by decide +kernel)) rfl (by decide +kernel)

end KDTreeImpl
end Copse

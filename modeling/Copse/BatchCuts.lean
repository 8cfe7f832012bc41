import Copse.DescendBounds
import Copse.KDTreeNet
import Copse.KnobIndependence

set_option autoImplicit false

namespace Copse
open PointStore PointQueue QueueOutline SwapQueue TransitionRuns

/-- The calls that a call with a batch stands for. -/
def Call.cut {Dim : ℕ} {K : Type*} : Call Dim K → List (Call Dim K)
  | .update (.insert batch) => batch.map (fun x => .update (.insert [x]))
  | .update (.remove queries) => queries.map (fun query => .update (.remove [query]))
  | .update (.boxDelete boxes) => boxes.map (fun box => .update (.boxDelete [box]))
  | .update .rebuildAll => []
  | call => [call]

namespace PointQueue
variable {Dim : ℕ} {K : Type*} [Field K] [LinearOrder K]

/-- What the searches and `size` of a run answered. -/
def searched (l : List (Call Dim K × Answer Dim K)) : List (ℕ ⊕ List K) :=
  l.filterMap (fun i => match i.1 with
    | .update _ => none
    | _ => some i.2.visible)

/-- Two runs took in and let go as many points, and their searches answered alike. -/
structure SameTotals (l l' : List (Call Dim K × Answer Dim K)) : Prop where
  taken : taken l = taken l'
  dropped : dropped l = dropped l'
  searched : searched l = searched l'

section
variable {cfg : Config K} {q q' : List (Point Dim K)} {i i' : Call Dim K × Answer Dim K} {n : ℕ}
variable {l l' l₁ l₁' : List (Call Dim K × Answer Dim K)}

section
omit [Field K] [LinearOrder K]

theorem SameTotals.refl (l : List (Call Dim K × Answer Dim K)) : SameTotals l l := ⟨rfl, rfl, rfl⟩

theorem SameTotals.symm (h : SameTotals l l') : SameTotals l' l :=
  ⟨h.taken.symm, h.dropped.symm, h.searched.symm⟩

theorem SameTotals.trans (h : SameTotals l l') (h' : SameTotals l' l₁) : SameTotals l l₁ :=
  ⟨h.taken.trans h'.taken, h.dropped.trans h'.dropped, h.searched.trans h'.searched⟩

theorem SameTotals.append (h : SameTotals l l') (h' : SameTotals l₁ l₁') :
    SameTotals (l ++ l₁) (l' ++ l₁') := by
  refine ⟨?_, ?_, ?_⟩
  · rw [taken_append, taken_append, h.taken, h'.taken]
  · rw [dropped_append, dropped_append, h.dropped, h'.dropped]
  · have hsearched := h'.searched
    have hfirst := h.searched
    rw [PointQueue.searched, PointQueue.searched] at hsearched hfirst
    rw [PointQueue.searched, PointQueue.searched, List.filterMap_append, List.filterMap_append,
      hfirst, hsearched]

theorem sameTotals_of_visible (hcalls : l.map Prod.fst = l'.map Prod.fst)
    (hvisible : l.map (fun i => i.2.visible) = l'.map (fun i => i.2.visible)) : SameTotals l l' := by
  induction l generalizing l' with
  | nil =>
    cases l' with
    | nil => exact .refl []
    | cons => cases hcalls
  | cons i l ih =>
    cases l' with
    | nil => cases hcalls
    | cons i' l' =>
      obtain ⟨call, a⟩ := i
      obtain ⟨call', a'⟩ := i'
      rw [List.map_cons, List.map_cons, List.cons.injEq] at hcalls hvisible
      obtain ⟨hcall, hcalls⟩ := hcalls
      obtain ⟨ha, hvisible⟩ := hvisible
      dsimp only at hcall ha
      subst hcall
      have hone : SameTotals [(call, a)] [(call, a')] := by
        cases a with
        | count n =>
          cases a' with
          | count n' =>
            obtain rfl := Sum.inl.inj ha
            exact .refl _
          | found => cases ha
        | found result =>
          cases a' with
          | count => cases ha
          | found result' =>
            cases call with
            | update op => cases op <;> exact ⟨rfl, rfl, rfl⟩
            | knn | radius | hybrid | size => exact ⟨rfl, rfl, congrArg (fun v => [v]) ha⟩
      exact hone.append (ih hcalls hvisible)

end

theorem insert_cut (q batch : List (Point Dim K)) :
    ∃ l, Trace (Next cfg) q l (admitAll (near cfg) cfg.capacity q batch).1 ∧
      l.map Prod.fst = batch.map (fun x => .update (.insert [x])) ∧
      SameTotals l
        [(.update (.insert batch), .count (admitAll (near cfg) cfg.capacity q batch).2)] := by
  induction batch generalizing q with
  | nil => exact ⟨[], .nil q, rfl, rfl, rfl, rfl⟩
  | cons x batch ih =>
    have hone : ∃ n, Next cfg q (.update (.insert [x]), .count n)
          (admitAll (near cfg) cfg.capacity q [x]).1 ∧
        admitAll (near cfg) cfg.capacity q (x :: batch) =
          ((admitAll (near cfg) cfg.capacity (admitAll (near cfg) cfg.capacity q [x]).1 batch).1,
            (admitAll (near cfg) cfg.capacity (admitAll (near cfg) cfg.capacity q [x]).1 batch).2 +
              n) := by
      refine ⟨_, .insert q [x], ?_⟩
      rw [admitAll, admitAll]
      split_ifs <;> rfl
    obtain ⟨n, hfirst, hsplit⟩ := hone
    obtain ⟨l, hrest, hcalls, htotals⟩ := ih (admitAll (near cfg) cfg.capacity q [x]).1
    rw [hsplit]
    refine ⟨_ :: l, .cons hfirst hrest, congrArg (List.cons _) hcalls, ?_, ?_, ?_⟩
    · have htaken := htotals.taken
      simp only [PointQueue.taken] at htaken ⊢
      omega
    · exact htotals.dropped
    · exact htotals.searched

theorem delete_cut {β : Type*} (op : β → Op Dim K) (hit : β → Point Dim K → Bool)
    (hop : ∀ b batch, op b ≠ .insert batch)
    (hrounds : ∀ b, (op b).rounds (cfg.resolution * cfg.resolution) = [hit b]) (items : List β)
    (removed : RemovedEach q (items.map hit) q' n) :
    ∃ l, Trace (Next cfg) q l q' ∧ l.map Prod.fst = items.map (fun b => .update (op b)) ∧
      PointQueue.taken l = 0 ∧ PointQueue.dropped l = n ∧ PointQueue.searched l = [] := by
  induction items generalizing q n with
  | nil =>
    cases removed
    exact ⟨[], .nil _, rfl, rfl, rfl, rfl⟩
  | cons b items ih =>
    cases removed with
    | @cons _ q₁ _ _ _ m first rest =>
      have hfirst := RemovedEach.cons first (.nil q₁)
      rw [← hrounds b] at hfirst
      have hnext := Next.delete (op b) (hop b) hfirst
      obtain ⟨l, hrest, hcalls, htaken, hdropped, hsearched⟩ := ih rest
      refine ⟨_ :: l, .cons hnext hrest, congrArg (List.cons _) hcalls, ?_, ?_, hsearched⟩
      · rw [PointQueue.taken, htaken]
        exact fun batch m heq => hop b batch (Call.update.inj (Prod.mk.inj heq).1)
      · rw [PointQueue.dropped, hdropped, Nat.add_zero]
        exact fun batch heq => hop b batch heq

/-- Each call does what the calls do that it is cut into. -/
theorem Next.cut (h : Next cfg q i q') :
    ∃ l, Trace (Next cfg) q l q' ∧ l.map Prod.fst = i.1.cut ∧ SameTotals l [i] := by
  cases h with
  | insert batch => exact insert_cut q batch
  | delete op hop removed =>
    cases op with
    | insert batch => exact absurd rfl (hop batch)
    | remove queries =>
      have hrounds : ∀ query : Point Dim K, (Op.remove [query]).rounds _ =
          [fun x => decide (x.sqDist query < cfg.resolution * cfg.resolution)] := fun _ => rfl
      obtain ⟨l, hl, hcalls, htaken, hdropped, hsearched⟩ :=
        delete_cut _ _ (by simp) hrounds queries removed
      exact ⟨l, hl, hcalls, htaken, hdropped, hsearched⟩
    | boxDelete boxes =>
      have hrounds : ∀ box : BBox Dim K,
          (Op.boxDelete [box]).rounds (cfg.resolution * cfg.resolution) = [box.contains] :=
        fun _ => rfl
      obtain ⟨l, hl, hcalls, htaken, hdropped, hsearched⟩ :=
        delete_cut _ _ (by simp) hrounds boxes removed
      exact ⟨l, hl, hcalls, htaken, hdropped, hsearched⟩
    | radiusCrop center r => exact ⟨_, .cons (.delete _ hop removed) (.nil _), rfl, .refl _⟩
    | rebuildAll =>
      cases removed
      exact ⟨[], .nil _, rfl, rfl, rfl, rfl⟩
  | knn query k nearest => exact ⟨_, .cons (.knn query k nearest) (.nil _), rfl, .refl _⟩
  | radius query r nearest => exact ⟨_, .cons (.radius query r nearest) (.nil _), rfl, .refl _⟩
  | hybrid query k r nearest => exact ⟨_, .cons (.hybrid query k r nearest) (.nil _), rfl, .refl _⟩
  | size => exact ⟨_, .cons (.size _) (.nil _), rfl, .refl _⟩

theorem trace_cut (h : Trace (Next cfg) q l q') :
    ∃ l', Trace (Next cfg) q l' q' ∧ l'.map Prod.fst = (l.map Prod.fst).flatMap Call.cut ∧
      SameTotals l' l := by
  obtain ⟨ls, hall, htrace⟩ := h.expand (fun _ _ _ hnext => hnext.cut)
  refine ⟨_, htrace, ?_⟩
  clear h htrace
  induction hall with
  | nil => exact ⟨rfl, .refl []⟩
  | @cons i l₁ l ls first _ ih =>
    obtain ⟨hcalls, htotals⟩ := ih
    constructor
    · rw [List.flatten_cons, List.map_append, first.1, hcalls]
      rfl
    · rw [List.flatten_cons]
      exact first.2.append htotals

end
end PointQueue

namespace KDTreeImpl
variable {Dim : ℕ} [NeZero Dim] {K : Type*} [Field K] [LinearOrder K] [IsStrictOrderedRing K]
variable {env : Env K} {cfg : Config K} {s s' u' : KDTreeImpl Dim K}

theorem Reachable.queued (hB : 2 * cfg.leafBucketSize ≤ 65535) (h : Reachable env cfg s) :
    Queued cfg s s.evictionOrder :=
  ⟨h.sound hB, h.config.1, h.config.2.2, rfl⟩

/-- From a reachable state, two runs of calls that are cut into the same calls take in and let go
as many points, give the same answers to their searches, and end with the same points, as long as
the evictions can be foreseen. Only the calls are the same, not the states between them. -/
theorem batches_unobservable (hB : 2 * cfg.leafBucketSize ≤ 65535) (hs : Reachable env cfg s)
    {l l' : List (Call Dim K × Answer Dim K)} (h : Trace (Answers env) s l s')
    (h' : Trace (Answers env) s l' u')
    (hcut : (l.map Prod.fst).flatMap Call.cut = (l'.map Prod.fst).flatMap Call.cut)
    (hf : (foreseeAll cfg (Outline.ofList s.evictionOrder)
      (updates ((l.map Prod.fst).flatMap Call.cut))).isSome = true) :
    SameTotals l l' ∧ s'.evictionOrder.Perm u'.evictionOrder := by
  obtain ⟨q, hq, hqueued⟩ := answers_simulated.trace h (hs.queued hB)
  obtain ⟨q', hq', hqueued'⟩ := answers_simulated.trace h' (hs.queued hB)
  obtain ⟨c, hc, hcalls, htotals⟩ := trace_cut hq
  obtain ⟨c', hc', hcalls', htotals'⟩ := trace_cut hq'
  have hsame : c.map Prod.fst = c'.map Prod.fst := by rw [hcalls, hcalls', hcut]
  rw [← hcalls] at hf
  obtain ⟨hvisible, hperm⟩ := answers_foreseen hc hc' hsame (describes_ofList _)
    (describes_ofList _) hf
  rw [hqueued.order, hqueued'.order]
  exact ⟨htotals.symm.trans ((sameTotals_of_visible hsame hvisible).trans htotals'), hperm⟩

def wholeCalls : List (Call 2 ℚ) :=
  [.update (.insert [![4, 0], ![5, 0]]), .size, .update (.remove [![2, 0], ![3, 0]]),
    .radius ![4, 0] 4]

def pieceCalls : List (Call 2 ℚ) :=
  [.update (.insert [![4, 0]]), .update .rebuildAll, .update (.insert [![5, 0]]), .size,
    .update (.remove [![2, 0]]), .update (.remove [![3, 0]]), .radius ![4, 0] 4]

theorem batches_unobservable_row :
    SameTotals (replies wordEnv rowRun wholeCalls) (replies wordEnv rowRun pieceCalls) ∧
      (after wordEnv rowRun wholeCalls).evictionOrder.Perm
        (after wordEnv rowRun pieceCalls).evictionOrder :=
  batches_unobservable (by decide)
    (reachable_run (plane_accepted (by decide) (by norm_num)) (by decide +kernel))
    (replies_trace (by decide +kernel)) (replies_trace (by decide +kernel)) rfl (by decide +kernel)

end KDTreeImpl
end Copse

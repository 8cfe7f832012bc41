import Copse.PointQueue
import Copse.KDTreeViews

set_option autoImplicit false

/-!
# The tree refines the queue

Every sequence of calls and answers that the tree can show, searches included,
is one of the queue of points. What holds of all traces of the queue then holds
of the tree.
-/
namespace Copse
open PointStore PointQueue QueueOutline SearchKernel SwapQueue TransitionRuns

namespace KDTreeImpl
variable {Dim : ℕ} [NeZero Dim] {K : Type*} [Field K] [LinearOrder K] [IsStrictOrderedRing K]

def answer (env : Env K) (s : KDTreeImpl Dim K) : Call Dim K → KDTreeImpl Dim K × Answer Dim K
  | .update op => ((s.apply env op).1, .count (s.apply env op).2)
  | .knn query k => (s, .found (s.knnSearch env query k))
  | .radius query r => (s, .found (s.radiusSearch env query r))
  | .hybrid query k r => (s, .found (s.hybridSearch env query k r))
  | .size => (s, .count s.size)

/-- A call with its answer, in a run where no word wraps. -/
def Answers (env : Env K) (s : KDTreeImpl Dim K) (i : Call Dim K × Answer Dim K)
    (s' : KDTreeImpl Dim K) : Prop :=
  (s', i.2) = s.answer env i.1 ∧ s'.NoWrap

/-- The points in the order of their eviction. -/
def evictionOrder (s : KDTreeImpl Dim K) : List (Point Dim K) := s.points.forEachLive.map Prod.snd

/-- A sound state of the configuration stands for its points in the order of their eviction. -/
structure Queued (cfg : Config K) (s : KDTreeImpl Dim K) (q : List (Point Dim K)) : Prop where
  sound : ∃ o, Sound s o
  config : s.cfg = cfg
  capacity : s.points.capacity = cfg.capacity
  order : s.evictionOrder = q

section
variable {env : Env K} {cfg : Config K} {s s' : KDTreeImpl Dim K} {q : List (Point Dim K)}
variable {points : PointStore Dim K} {window free : List ℕ}

section
omit [NeZero Dim] [IsStrictOrderedRing K]

omit [LinearOrder K] in
theorem forEachLive_points (h : Ring points window free) :
    points.forEachLive.map Prod.snd = window.map points.point := by
  rw [← forEachLive_fst h, List.map_map]
  exact List.map_congr_left (fun m hm => forEachLive_snd points m hm)

theorem crowded_window (h : Ring points window free) (sqRadius : K) (x : Point Dim K) :
    crowded sqRadius points x =
      (window.map points.point).any (fun y => decide (y.sqDist x < sqRadius)) := by
  rw [Bool.eq_iff_iff, crowded, List.any_eq_true, List.any_eq_true]
  simp only [mem_liveSlots, h.isLive_iff, List.mem_map, exists_exists_and_eq_and]

theorem storeInsert_admitAll (h : Ring points window free) (batch : List (Point Dim K))
    {capacity : ℕ} (hcap : points.capacity = capacity) (sqRadius : K) :
    ∃ window' free', Ring (storeInsert sqRadius points batch).1 window' free' ∧
      (window'.map (storeInsert sqRadius points batch).1.point,
          (storeInsert sqRadius points batch).2) =
        admitAll (fun y x => decide (y.sqDist x < sqRadius)) capacity (window.map points.point)
          batch := by
  induction batch generalizing points window free with
  | nil => exact ⟨window, free, h, rfl⟩
  | cons x batch ih =>
    rw [storeInsert, admitAll, crowded_window h]
    split_ifs
    · exact ih h hcap
    · obtain ⟨window', free', hring, hmap⟩ := acquire_coordinates h x
      obtain ⟨window'', free'', hring', heq⟩ := ih hring (by rw [acquire_capacity, hcap])
      refine ⟨window'', free'', hring', ?_⟩
      rw [hcap, ← admitOne] at hmap
      rw [hmap] at heq
      rw [← heq]

omit [LinearOrder K] in
theorem ClearsEach.removedEach {points' : PointStore Dim K} {hits : List (Point Dim K → Bool)}
    {n : ℕ} (hc : ClearsEach points hits points' n) (h : Ring points window free) :
    ∃ window' free', Ring points' window' free' ∧
      RemovedEach (window.map points.point) hits (window'.map points'.point) n := by
  induction hc generalizing window free with
  | nil => exact ⟨window, free, h, .nil _⟩
  | cons first rest ih =>
    obtain ⟨window', free', hring, hremoved, rfl⟩ := first.swapRemoved h
    obtain ⟨window'', free'', hring', hrest⟩ := ih hring
    exact ⟨window'', free'', hring', .cons hremoved hrest⟩

theorem Nearest.nearestIn {query : Point Dim K} {k : ℕ∞} {bound : WithTop K}
    {result : List (Neighbor Dim K)} (h : Nearest points query k bound result)
    (hring : Ring points window free) : NearestIn (window.map points.point) query k bound result := by
  have hwindow := liveSlots_perm hring.window_nodup hring.isLive_iff
  have hperm : points.coordinates.Perm (window.map points.point) := (hwindow.symm.map points.point)
  obtain ⟨slots, hd, hlive, hresult⟩ := h.slots
  refine ⟨h.sorted, ⟨slots.map points.point, ?_, ?_⟩, ?_, ?_⟩
  · obtain ⟨l, hl, hsub⟩ := hd.subperm (fun i hi => (hring.isLive_iff i).mp (hlive i hi))
    exact ⟨l.map points.point, hl.map _, hsub.map _⟩
  · rw [hresult, List.map_map]
    rfl
  · rw [h.length, ← (hperm.filter _).length_eq, coordinates, List.filter_map, List.length_map]
    rfl
  · rw [h.distances, liveDistances_coordinates]
    congr 1
    exact insertionSort_congr ((hperm.filter _).map _)

theorem Queued.ring (h : Queued cfg s q) :
    ∃ window free, Ring s.points window free ∧ q = window.map s.points.point := by
  obtain ⟨o, hs⟩ := h.sound
  obtain ⟨window, free, hring⟩ := hs.ring
  refine ⟨window, free, hring, ?_⟩
  rw [← h.order, evictionOrder, forEachLive_points hring]

end

theorem apply_config (op : Op Dim K) :
    (s.apply env op).1.cfg = s.cfg ∧ (s.apply env op).1.points.capacity = s.points.capacity :=
  ((steps_chain env s op).invariant
    (P := fun u => u.cfg = s.cfg ∧ u.points.capacity = s.points.capacity)
    (fun m _ hm => ⟨(act_cfg env m.2).1.trans hm.1, (act_cfg env m.2).2.trans hm.2⟩)
    ⟨rfl, rfl⟩).2

theorem run_cfg (ops : List (Op Dim K)) : (run env s ops).cfg = s.cfg := by
  induction ops generalizing s with
  | nil => rfl
  | cons op ops ih => exact ih.trans (apply_config op).1

theorem Queued.apply (h : Queued cfg s q) (op : Op Dim K) (hn : (s.apply env op).1.NoWrap) :
    ∃ q', Next cfg q (.update op, .count (s.apply env op).2) q' ∧
      Queued cfg (s.apply env op).1 q' := by
  obtain ⟨o, hs⟩ := h.sound
  obtain ⟨window, free, hring, rfl⟩ := h.ring
  have hconfig : (s.apply env op).1.cfg = s.cfg ∧
      (s.apply env op).1.points.capacity = s.points.capacity := apply_config op
  have hres : s.sqResolution = cfg.resolution * cfg.resolution := by rw [sqResolution, h.config]
  have queued : ∀ {window' free' : List ℕ}, Ring (s.apply env op).1.points window' free' →
      Queued cfg (s.apply env op).1 (window'.map (s.apply env op).1.points.point) :=
    fun hring' => ⟨apply_sound hs hn, hconfig.1.trans h.config, hconfig.2.trans h.capacity,
      forEachLive_points hring'⟩
  by_cases hop : ∃ batch, op = .insert batch
  · obtain ⟨batch, rfl⟩ := hop
    have hstore := insert_points batch hs hn
    obtain ⟨window', free', hring', hadmit⟩ := storeInsert_admitAll hring batch h.capacity
      s.sqResolution
    rw [← hstore, hres] at hadmit
    rw [← hstore] at hring'
    refine ⟨_, ?_, queued hring'⟩
    have hnext : Next cfg (window.map s.points.point) _ _ := .insert _ batch
    rw [show near cfg = fun y x => decide (y.sqDist x < cfg.resolution * cfg.resolution) from rfl,
      ← hadmit] at hnext
    exact hnext
  · have hop' : ∀ batch, op ≠ .insert batch := fun batch heq => hop ⟨batch, heq⟩
    obtain ⟨window', free', hring', hremoved⟩ := (apply_rounds op hop' hs hn).removedEach hring
    rw [hres] at hremoved
    exact ⟨_, .delete op hop' hremoved, queued hring'⟩

omit [NeZero Dim] in
theorem Queued.search (h : Queued cfg s q) (std : StdAlgorithm K) (query : Point Dim K) :
    (∀ (k : ℕ) (bound : WithTop K), NearestIn q query k bound
      (SearchKernel.search std s.pools s.points s.root query k bound)) ∧
      ∀ bound : WithTop K, NearestIn q query ⊤ bound
        (SearchKernel.search std s.pools s.points s.root query sizeMax bound) := by
  obtain ⟨o, hs⟩ := h.sound
  obtain ⟨window, free, hring, rfl⟩ := h.ring
  refine ⟨fun k bound => (hs.search_nearest std query k bound).nearestIn hring, fun bound => ?_⟩
  exact ((hs.search_nearest std query sizeMax bound).unbounded
    (liveSlots_length_lt hs.noWrap)).nearestIn hring

omit [NeZero Dim] [IsStrictOrderedRing K] in
theorem Queued.size_eq (h : Queued cfg s q) : s.size = q.length := by
  obtain ⟨window, free, hring, rfl⟩ := h.ring
  rw [List.length_map, ← hring.live]
  rfl

/-- Every answer of the tree is one that the queue may give. -/
theorem answers_simulated :
    Simulation (Answers env) (Next cfg) (Queued cfg : KDTreeImpl Dim K → _ → Prop) := by
  refine ⟨fun s i s' q hi h => ?_⟩
  obtain ⟨call, ans⟩ := i
  obtain ⟨heq, hn⟩ := hi
  cases call with
  | update op =>
    cases heq
    exact h.apply op hn
  | knn query k =>
    cases heq
    exact ⟨q, .knn query k ((h.search env.std query).1 k ⊤), h⟩
  | radius query r =>
    cases heq
    exact ⟨q, .radius query r ((h.search env.std query).2 _), h⟩
  | hybrid query k r =>
    cases heq
    exact ⟨q, .hybrid query k r ((h.search env.std query).1 k _), h⟩
  | size =>
    cases heq
    have hnext : Next cfg q (Call.size, Answer.count q.length) q := .size q
    rw [← h.size_eq] at hnext
    exact ⟨q, hnext, h⟩

omit [NeZero Dim] [IsStrictOrderedRing K] in
theorem Fresh.queued (h : Fresh cfg s) (hB : 2 * cfg.leafBucketSize ≤ 65535) (hn : s.NoWrap) :
    Queued cfg s [] := by
  have hcap := create_capacity h.points
  have hsmall := hn.capacity
  rw [hcap] at hsmall
  refine ⟨⟨none, h.sound hB hn⟩, h.config, hcap, ?_⟩
  rw [evictionOrder, forEachLive_points (create_ring hsmall h.points), List.map_nil]

theorem exists_queue (hB : 2 * cfg.leafBucketSize ≤ 65535) (hs : create cfg = .ok s)
    (hn : s.NoWrap) {l : List (Call Dim K × Answer Dim K)} (h : Trace (Answers env) s l s') :
    ∃ q, Trace (Next cfg) [] l q ∧ Queued cfg s' q :=
  answers_simulated.trace h ((create_fresh hs).queued hB hn)

end

section
variable (env : Env K)

def after (s : KDTreeImpl Dim K) (calls : List (Call Dim K)) : KDTreeImpl Dim K :=
  calls.foldl (fun s call => (s.answer env call).1) s

def replies : KDTreeImpl Dim K → List (Call Dim K) → List (Call Dim K × Answer Dim K)
  | _, [] => []
  | s, call :: calls => (call, (s.answer env call).2) :: replies (s.answer env call).1 calls

def repliesFit : KDTreeImpl Dim K → List (Call Dim K) → Bool
  | _, [] => true
  | s, call :: calls => (s.answer env call).1.fits && repliesFit (s.answer env call).1 calls

theorem replies_trace {env : Env K} {s : KDTreeImpl Dim K} {calls : List (Call Dim K)}
    (h : repliesFit env s calls = true) :
    Trace (Answers env) s (replies env s calls) (after env s calls) := by
  induction calls generalizing s with
  | nil => exact .nil s
  | cons call calls ih =>
    rw [repliesFit, Bool.and_eq_true] at h
    exact .cons ⟨rfl, noWrap_of_fits h.1⟩ (ih h.2)

end

def queueCalls : List (Call 2 ℚ) :=
  [.update (.insert [![0, 0], ![1, 0], ![2, 0], ![1, 0]]), .knn ![0, 0] 2,
    .update (.remove [![0, 0]]), .update (.insert [![3, 0], ![4, 0]]), .size, .radius ![4, 0] 3]

section
variable {env : Env K} {cfg : Config K} {s s' : KDTreeImpl Dim K}

/-- The tree refines the queue: whatever a run of calls answers, searches included, a run of the
same calls on the queue may answer, and it ends with the points of the tree in the order of their
eviction. -/
theorem traces_refine (hB : 2 * cfg.leafBucketSize ≤ 65535) (hs : create cfg = .ok s)
    (hn : s.NoWrap) {l : List (Call Dim K × Answer Dim K)} (h : Trace (Answers env) s l s') :
    Trace (Next cfg) [] l s'.evictionOrder := by
  obtain ⟨q, hq, hqueued⟩ := exists_queue hB hs hn h
  rw [hqueued.order]
  exact hq

theorem traces_refine_plane :
    Trace (Next (plane 3 (1 / 4))) [] (replies exactEnv (start (plane 3 (1 / 4))) queueCalls)
      (after exactEnv (start (plane 3 (1 / 4))) queueCalls).evictionOrder :=
  traces_refine (by decide) (create_start (plane_accepted (by decide) (by norm_num)))
    (noWrap_of_fits (by decide +kernel)) (replies_trace (by decide +kernel))

/-- The size of the tree is what the answers to its calls add up to. -/
theorem size_tally (hB : 2 * cfg.leafBucketSize ≤ 65535) (hs : create cfg = .ok s)
    (hn : s.NoWrap) {l : List (Call Dim K × Answer Dim K)} (h : Trace (Answers env) s l s') :
    s'.size = l.foldl (tally cfg.capacity) 0 := by
  obtain ⟨q, hq, hqueued⟩ := exists_queue hB hs hn h
  rw [hqueued.size_eq]
  exact length_tally hq (create_fresh hs).accepted.capacity

theorem size_tally_plane :
    (after exactEnv (start (plane 3 (1 / 4))) queueCalls).size =
      (replies exactEnv (start (plane 3 (1 / 4))) queueCalls).foldl (tally 3) 0 :=
  size_tally (by decide) (create_start (plane_accepted (by decide) (by norm_num)))
    (noWrap_of_fits (by decide +kernel)) (replies_trace (by decide +kernel))

/-- A search only reports points that came with an insertion before it and that no deletion since
then was about. -/
theorem found_justified (hB : 2 * cfg.leafBucketSize ≤ 65535) (hs : create cfg = .ok s)
    (hn : s.NoWrap) {past : List (Call Dim K × Answer Dim K)} {call : Call Dim K}
    {result : List (Neighbor Dim K)}
    (h : Trace (Answers env) s (past ++ [(call, .found result)]) s') {x : Neighbor Dim K}
    (hx : x ∈ result) : Justified cfg past x.coord := by
  obtain ⟨q', htrace, -⟩ := exists_queue hB hs hn h
  obtain ⟨q, hpast, hlast⟩ := htrace.split
  have hq := all_justified hpast
  cases hlast with
  | cons first _ =>
    cases first with
    | knn query k nearest => exact hq _ (nearest.mem hx).1
    | radius query r nearest => exact hq _ (nearest.mem hx).1
    | hybrid query k r nearest => exact hq _ (nearest.mem hx).1

def foundNear : List (Neighbor 2 ℚ) :=
  (after exactEnv (start (plane 3 (1 / 4))) queueCalls).knnSearch exactEnv ![4, 0] 1

theorem found_justified_plane :
    Justified (plane 3 (1 / 4)) (replies exactEnv (start (plane 3 (1 / 4))) queueCalls)
      (foundNear.get ⟨0, by decide +kernel⟩).coord := by
  have hfit : repliesFit exactEnv (start (plane 3 (1 / 4))) (queueCalls ++ [.knn ![4, 0] 1]) = true := by
    decide +kernel
  exact found_justified (by decide) (create_start (plane_accepted (by decide) (by norm_num)))
    (noWrap_of_fits (by decide +kernel)) (replies_trace hfit) (List.get_mem _ _)

end
end KDTreeImpl
end Copse

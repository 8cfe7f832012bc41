import Copse.KDTreeSearch

set_option autoImplicit false

namespace Copse
open ExtendedField FramedStore PointStore TreeBuilder TransitionRuns

section specification
variable {Dim : ℕ} {K : Type*} [Field K] [LinearOrder K]

/-- Some live point is closer to `x` than the given squared distance. -/
def crowded (sqRadius : K) (points : PointStore Dim K) (x : Point Dim K) : Bool :=
  points.liveSlots.any (fun i => decide ((points.point i).sqDist x < sqRadius))

/-- The insertion of a batch as the store alone sees it, and its count. -/
def storeInsert (sqRadius : K) (points : PointStore Dim K) :
    List (Point Dim K) → PointStore Dim K × ℕ
  | [] => (points, 0)
  | x :: rest =>
    if crowded sqRadius points x then storeInsert sqRadius points rest
    else
      let r := storeInsert sqRadius (points.acquire x).1 rest
      (r.1, r.2 + 1)

theorem crowded_eq_false_iff {sqRadius : K} {points : PointStore Dim K} {x : Point Dim K} :
    crowded sqRadius points x = false ↔
      ∀ i, points.isLive i = true → sqRadius ≤ (points.point i).sqDist x := by
  simp only [crowded, List.any_eq_false, mem_liveSlots, decide_eq_true_eq, not_lt]

theorem storeInsert_append (sqRadius : K) (points : PointStore Dim K) (pre post : List (Point Dim K)) :
    storeInsert sqRadius points (pre ++ post) =
      ((storeInsert sqRadius (storeInsert sqRadius points pre).1 post).1,
        (storeInsert sqRadius points pre).2 +
          (storeInsert sqRadius (storeInsert sqRadius points pre).1 post).2) := by
  induction pre generalizing points with
  | nil => simp [storeInsert]
  | cons x pre ih =>
    simp only [List.cons_append, storeInsert]
    split_ifs
    · exact ih points
    · rw [ih]
      simp only [Prod.mk.injEq, true_and]
      omega

def Op.deletes (sqResolution : K) : Op Dim K → Point Dim K → Bool
  | .remove queries, x => queries.any (fun q => decide (x.sqDist q < sqResolution))
  | .boxDelete boxes, x => boxes.any (fun box => box.contains x)
  | .radiusCrop center r, x => decide (r * r < x.sqDist center)
  | .insert _, _ => false
  | .rebuildAll, _ => false

/-- The tests of a call that deletes, one for each round of releases. -/
def Op.rounds (sqResolution : K) : Op Dim K → List (Point Dim K → Bool)
  | .remove queries => queries.map (fun q x => decide (x.sqDist q < sqResolution))
  | .boxDelete boxes => boxes.map (fun box x => box.contains x)
  | .radiusCrop center r => [fun x => decide (r * r < x.sqDist center)]
  | .insert _ => []
  | .rebuildAll => []

theorem Op.exists_round_iff {sqResolution : K} {op : Op Dim K} {x : Point Dim K} :
    (∃ hit ∈ op.rounds sqResolution, hit x = true) ↔ op.deletes sqResolution x = true := by
  cases op <;> simp [rounds, deletes]

end specification

namespace KDTreeImpl
variable {Dim : ℕ} [NeZero Dim] {K : Type*} [Field K] [LinearOrder K] [IsStrictOrderedRing K]
variable {env : Env K} {cfg : Config K} {s : KDTreeImpl Dim K} {o : Option (Tree Dim K)}

omit [NeZero Dim] in
theorem accepts_eq (x : Point Dim K) (h : Sound s o) :
    s.accepts x = !crowded s.sqResolution s.points x := by
  rw [Bool.eq_iff_iff, accepts_iff x h, Bool.not_eq_true', crowded_eq_false_iff]

theorem insertLoop_points (batch : List (Point Dim K)) (h : Sound s o)
    (hn : ∀ m ∈ stepsOf (act env) s (batch.map .insertPoint), (m.1.act env m.2).NoWrap) :
    ((insertLoop env s batch).1.points, (insertLoop env s batch).2) =
      storeInsert s.sqResolution s.points batch := by
  induction batch generalizing s o with
  | nil => rfl
  | cons x rest ih =>
    obtain ⟨o', -, hs'⟩ := act_sound env (.insertPoint x) h trivial (hn _ List.mem_cons_self)
    have hrest := ih hs' (fun m hm => hn m (List.mem_cons_of_mem _ hm))
    have haccepts := accepts_eq x h
    simp only [act, insertPoint] at hrest
    simp only [insertLoop, insertPoint, storeInsert]
    cases hc : crowded s.sqResolution s.points x with
    | true =>
      rw [hc, Bool.not_true] at haccepts
      simp only [haccepts, Bool.false_eq_true, ↓reduceIte, Nat.zero_add] at hrest ⊢
      exact hrest
    | false =>
      rw [hc, Bool.not_false] at haccepts
      simp only [haccepts, Bool.false_eq_true, ↓reduceIte] at hrest ⊢
      rw [acceptPoint_points, sqResolution, (acceptPoint_later s x).cfg] at hrest
      rw [← sqResolution] at hrest
      rw [← hrest, Nat.add_comm]

theorem insert_points (batch : List (Point Dim K)) (h : Sound s o)
    (hn : (s.insert env batch).1.NoWrap) :
    ((s.insert env batch).1.points, (s.insert env batch).2) =
      storeInsert s.sqResolution s.points batch := by
  have hwrap := steps_noWrap (show (s.apply env (.insert batch)).1.NoWrap from hn)
  rw [← insertLoop_points batch h (fun m hm => hwrap m (List.mem_append_left _ hm))]
  simp only [insert]
  split_ifs
  · rw [sweepFull_points]
  · rfl

/-- `insert` refines the store-only fold, so neither the shape of the tree nor
the cutting of the stream into batches is visible in the store. -/
theorem insert_refines (hB : 2 * cfg.leafBucketSize ≤ 65535) (h : Reachable env cfg s)
    (batch : List (Point Dim K)) (hn : (s.insert env batch).1.NoWrap) :
    ((s.insert env batch).1.points, (s.insert env batch).2) =
        storeInsert (cfg.resolution * cfg.resolution) s.points batch ∧
      (∀ (env' : Env K) (u : KDTreeImpl Dim K), Reachable env' cfg u → u.points = s.points →
        (u.insert env' batch).1.NoWrap →
        (u.insert env' batch).1.points = (s.insert env batch).1.points ∧
          (u.insert env' batch).2 = (s.insert env batch).2) ∧
      (∀ pre post, pre ++ post = batch → (s.insert env pre).1.NoWrap →
        ((s.insert env pre).1.insert env post).1.NoWrap →
        ((s.insert env pre).1.insert env post).1.points = (s.insert env batch).1.points ∧
          (s.insert env pre).2 + ((s.insert env pre).1.insert env post).2 =
            (s.insert env batch).2) := by
  have spec : ∀ (env' : Env K) (u : KDTreeImpl Dim K), Reachable env' cfg u →
      ∀ batch, (u.insert env' batch).1.NoWrap →
      ((u.insert env' batch).1.points, (u.insert env' batch).2) =
        storeInsert (cfg.resolution * cfg.resolution) u.points batch := by
    intro env' u hu batch hn
    obtain ⟨o, hs⟩ := hu.sound hB
    rw [insert_points batch hs hn, sqResolution, hu.config.1]
  have hspec := spec env s h batch hn
  refine ⟨hspec, ?_, ?_⟩
  · intro env' u hu hpts hnu
    have hspec' := spec env' u hu batch hnu
    rw [hpts, ← hspec, Prod.mk.injEq] at hspec'
    exact hspec'
  · rintro pre post rfl hpre hpost
    have hreach : Reachable env cfg (s.insert env pre).1 := .step (.insert pre) h ⟨rfl, hpre⟩
    have hspre := spec env s h pre hpre
    have hspost := spec env _ hreach post hpost
    rw [storeInsert_append, ← hspre, ← hspost, Prod.mk.injEq] at hspec
    exact ⟨hspec.1.symm, hspec.2.symm⟩

theorem insert_refines_plane :
    ((insert wordEnv (run wordEnv (start (plane 2 (1 / 4))) [.insert [![0, 0], ![1, 0]]])
        [![0, 0], ![2, 0], ![0, 0]]).1.points,
      (insert wordEnv (run wordEnv (start (plane 2 (1 / 4))) [.insert [![0, 0], ![1, 0]]])
        [![0, 0], ![2, 0], ![0, 0]]).2) =
      storeInsert (1 / 10 * (1 / 10) : ℚ)
        (run wordEnv (start (plane 2 (1 / 4))) [.insert [![0, 0], ![1, 0]]] : KDTreeImpl 2 ℚ).points
        [![0, 0], ![2, 0], ![0, 0]] :=
  (insert_refines (by decide)
    (reachable_run (plane_accepted (by decide) (by norm_num)) (by decide +kernel)) _
    (noWrap_of_fits (by decide +kernel))).1

/-- No two live points are closer than the given squared distance. -/
def Separated (sqRadius : K) (points : PointStore Dim K) : Prop :=
  ∀ i j, points.isLive i = true → points.isLive j = true → i ≠ j →
    sqRadius ≤ (points.point i).sqDist (points.point j)

omit [NeZero Dim] [IsStrictOrderedRing K] in
theorem Separated.releaseAll {sqRadius : K} {points : PointStore Dim K}
    (h : Separated sqRadius points) (l : List ℕ) : Separated sqRadius (points.releaseAll l) := by
  intro i j hi hj hij
  rw [releaseAll_isLive, Bool.and_eq_true] at hi hj
  rw [releaseAll_point, releaseAll_point]
  exact h i j hi.1 hj.1 hij

omit [NeZero Dim] [IsStrictOrderedRing K] in
theorem Separated.acquire {sqRadius : K} {points : PointStore Dim K} {window free : List ℕ}
    (h : Separated sqRadius points) (hr : Ring points window free) {x : Point Dim K}
    (hx : ∀ i, points.isLive i = true → sqRadius ≤ (points.point i).sqDist x) :
    Separated sqRadius (points.acquire x).1 := by
  intro i j hi hj hij
  rw [acquire_isLive x hr] at hi hj
  rw [acquire_point x hr, acquire_point x hr]
  by_cases hik : i = (points.acquire x).2
  · have hjk : j ≠ (points.acquire x).2 := fun hjk => hij (hik.trans hjk.symm)
    rw [if_pos hik, if_neg hjk, Point.sqDist_comm]
    exact hx j (hj.resolve_right hjk)
  · rw [if_neg hik]
    split_ifs with hjk
    · exact hx i (hi.resolve_right hik)
    · exact h i j (hi.resolve_right hik) (hj.resolve_right hjk) hij

theorem act_separated {sqRadius : K} (a : Action Dim K) (h : Sound s o)
    (hres : s.sqResolution = sqRadius) (hsep : Separated sqRadius s.points) :
    Separated sqRadius (s.act env a).points := by
  by_cases ha : ∀ x, a ≠ .insertPoint x
  · obtain ⟨l, hl⟩ := act_releases env s a ha
    rw [hl]
    exact hsep.releaseAll l
  · push Not at ha
    obtain ⟨x, rfl⟩ := ha
    simp only [act, insertPoint]
    split_ifs with hx
    · obtain ⟨window, free, hring⟩ := h.ring
      rw [acceptPoint_points]
      exact hsep.acquire hring (hres ▸ (accepts_iff x h).mp hx)
    · exact hsep

/-- In every reachable state the resolution separates the live points. -/
theorem live_separated (hB : 2 * cfg.leafBucketSize ≤ 65535) (h : Reachable env cfg s) {i j : ℕ}
    (hi : s.points.isLive i = true) (hj : s.points.isLive j = true) (hij : i ≠ j) :
    cfg.resolution * cfg.resolution ≤ (s.points.point i).sqDist (s.points.point j) := by
  obtain ⟨o, -, -, hsep⟩ := h.reachableWhen.invariant
    (P := fun s _ => s.cfg = cfg ∧ Separated (cfg.resolution * cfg.resolution) s.points) hB
    (fun s hf hs => ⟨hf.config, fun i _ hi => absurd hi (by simp [hs.reads.none i])⟩)
    (fun s a o o' hso _ _ _ _ hp => ⟨(act_cfg env a).1.trans hp.1,
      act_separated a hso (by rw [sqResolution, hp.1]) hp.2⟩)
  exact hsep i j hi hj hij

theorem live_separated_plane :
    (1 / 10 * (1 / 10) : ℚ) ≤
      ((run wordEnv (start (plane 2 (1 / 4))) [.insert [![0, 0], ![1, 0], ![2, 0]]] :
        KDTreeImpl 2 ℚ).points.point 0).sqDist
      ((run wordEnv (start (plane 2 (1 / 4))) [.insert [![0, 0], ![1, 0], ![2, 0]]] :
        KDTreeImpl 2 ℚ).points.point 1) :=
  live_separated (by decide)
    (reachable_run (plane_accepted (by decide) (by norm_num)) (by decide +kernel))
    (by decide +kernel) (by decide +kernel) (by decide)

/-- The slots released between two stores are the live ones whose point is hit,
`n` in all and each once. -/
def Clears (points : PointStore Dim K) (hit : Point Dim K → Prop) (points' : PointStore Dim K)
    (n : ℕ) : Prop :=
  ∃ l : List ℕ, points' = points.releaseAll l ∧ n = l.length ∧ l.Nodup ∧
    ∀ i, i ∈ l ↔ points.isLive i = true ∧ hit (points.point i)

section
omit [NeZero Dim] [LinearOrder K] [IsStrictOrderedRing K]

section clears
variable {points points' points'' : PointStore Dim K} {hit hit' : Point Dim K → Prop} {n n' : ℕ}

theorem Clears.refl (points : PointStore Dim K) : Clears points (fun _ => False) points 0 :=
  ⟨[], rfl, rfl, List.nodup_nil, by simp⟩

theorem Clears.congr (h : Clears points hit points' n) (heq : ∀ x, hit x ↔ hit' x) :
    Clears points hit' points' n := by
  rwa [show hit' = hit from funext (fun x => propext (heq x).symm)]

theorem Clears.trans (h : Clears points hit points' n) (h' : Clears points' hit' points'' n') :
    Clears points (fun x => hit x ∨ hit' x) points'' (n + n') := by
  obtain ⟨l, rfl, rfl, hd, hl⟩ := h
  obtain ⟨l', rfl, rfl, hd', hl'⟩ := h'
  have hl₂ : ∀ i, i ∈ l' ↔ (points.isLive i = true ∧ i ∉ l) ∧ hit' (points.point i) := by
    intro i
    rw [hl', releaseAll_isLive, releaseAll_point, Bool.and_eq_true, decide_eq_true_eq]
  refine ⟨l ++ l', (points.releaseAll_append l l').symm, (List.length_append).symm, ?_, ?_⟩
  · exact List.nodup_append.mpr ⟨hd, hd', fun i hi j hj hij => ((hl₂ j).mp hj).1.2 (hij ▸ hi)⟩
  · intro i
    rw [List.mem_append, hl₂, hl]
    by_cases hi : hit (points.point i) <;> simp [hi]

theorem Clears.isLive_iff (h : Clears points hit points' n) (i : ℕ) :
    points'.isLive i = true ↔ points.isLive i = true ∧ ¬ hit (points.point i) := by
  obtain ⟨l, rfl, -, -, hl⟩ := h
  rw [releaseAll_isLive, Bool.and_eq_true, decide_eq_true_eq, hl, not_and]
  exact ⟨fun hi => ⟨hi.1, hi.2 hi.1⟩, fun hi => ⟨hi.1, fun _ => hi.2⟩⟩

theorem Clears.survivor (h : Clears points hit points' n) (i : ℕ) :
    points'.point i = points.point i ∧ points'.generation i = points.generation i := by
  obtain ⟨l, rfl, -, -, -⟩ := h
  exact ⟨releaseAll_point _ _ _, releaseAll_generation _ _ _⟩

theorem Clears.count (h : Clears points hit points' n) :
    n = (points.liveSlots.filter (fun i => !points'.isLive i)).length := by
  have hlive := h.isLive_iff
  obtain ⟨l, rfl, rfl, hd, hl⟩ := h
  refine List.Perm.length_eq ?_
  refine (List.perm_ext_iff_of_nodup hd (points.liveSlots_nodup.filter _)).mpr (fun i => ?_)
  rw [List.mem_filter, mem_liveSlots, Bool.not_eq_true', ← Bool.not_eq_true, hlive, hl]
  exact ⟨fun hi => ⟨hi.1, fun hc => hc.2 hi.2⟩,
    fun hi => ⟨hi.1, by_contra (fun hc => hi.2 ⟨hi.1, hc⟩)⟩⟩

/-- Releases in rounds, each of the slots that its test finds. -/
inductive ClearsEach : PointStore Dim K → List (Point Dim K → Bool) → PointStore Dim K → ℕ → Prop where
  | nil (points : PointStore Dim K) : ClearsEach points [] points 0
  | cons {points points' points'' : PointStore Dim K} {hit : Point Dim K → Bool}
      {hits : List (Point Dim K → Bool)} {n n' : ℕ}
      (first : Clears points (fun x => hit x = true) points' n)
      (rest : ClearsEach points' hits points'' n') : ClearsEach points (hit :: hits) points'' (n + n')

theorem ClearsEach.clears {hits : List (Point Dim K → Bool)} (h : ClearsEach points hits points' n) :
    Clears points (fun x => ∃ hit ∈ hits, hit x = true) points' n := by
  induction h with
  | nil points => exact (Clears.refl points).congr (by simp)
  | cons first rest ih =>
    refine (first.trans ih).congr (fun x => ?_)
    rw [List.exists_mem_cons_iff]

end clears

end

omit [IsStrictOrderedRing K] in
theorem removals_cfg (env : Env K) (s : KDTreeImpl Dim K) (as : List (Action Dim K)) :
    (as.foldl (act env) s).cfg = s.cfg :=
  ((stepsOf_chain (act env) s as).invariant (P := fun u => u.cfg = s.cfg)
    (fun m _ hm => (act_cfg env m.2).1.trans hm) rfl).2

theorem removeLoop_clears (queries : List (Point Dim K)) (h : Sound s o)
    (hn : ∀ m ∈ removeSteps env s queries, (m.1.act env m.2).NoWrap) :
    ClearsEach s.points ((Op.remove queries).rounds s.sqResolution)
      (removeLoop env s queries).1.points (removeLoop env s queries).2 := by
  induction queries generalizing s o with
  | nil => exact .nil s.points
  | cons q rest ih =>
    let next := (s.removals q).foldl (act env) s
    have hfirst : Clears s.points (fun x => decide (x.sqDist q < s.sqResolution) = true) next.points
        (s.matchesOf q).length :=
      ⟨s.matchesOf q, removals_points _, rfl, matchesOf_nodup q h,
        fun i => by simpa using mem_matchesOf q h i⟩
    obtain ⟨-, o', hs'⟩ := removals_ready ⟨o, h⟩ (fun i hi => ((mem_matchesOf q h i).mp hi).1)
      (matchesOf_nodup q h) (fun m hm => hn m (List.mem_append_left _ hm))
    have hrest : ClearsEach next.points ((Op.remove rest).rounds next.sqResolution)
        (removeLoop env next rest).1.points (removeLoop env next rest).2 :=
      ih hs' (fun m hm => hn m (List.mem_append_right _ hm))
    have hcfg : next.sqResolution = s.sqResolution := by
      rw [sqResolution, removals_cfg, sqResolution]
    have hloop : removeLoop env s (q :: rest) =
        ((removeLoop env next rest).1, (s.matchesOf q).length + (removeLoop env next rest).2) := by
      rw [removeLoop, ← removeLoop_fst]
    rw [hcfg] at hrest
    rw [hloop]
    exact .cons hfirst hrest

omit [NeZero Dim] [IsStrictOrderedRing K] in
theorem deleteRegion_clears (c : Counter) (rg : Region Dim K) (h : Sound s o)
    (hn : (deleteRegion c s rg).1.NoWrap) :
    Clears s.points (fun x => rg.hit x = true) (deleteRegion c s rg).1.points
      (deleteRegion c s rg).2 := by
  cases o with
  | none =>
    rw [deleteRegion_vacant c rg h.reads]
    exact ⟨[], rfl, rfl, List.nodup_nil, fun i => by simp [h.reads.none i]⟩
  | some t =>
    obtain ⟨t', -, -, hpts, hcount⟩ := deleteRegion_holds c rg h hn
    refine ⟨s.hitSlots rg t, hpts, hcount, hitSlots_nodup rg h.reads, fun i => ?_⟩
    rw [mem_hitSlots, Holds.complete h.reads i]

omit [IsStrictOrderedRing K] in
theorem boxDeleteLoop_clears (boxes : List (BBox Dim K)) (h : Sound s o)
    (hn : ∀ m ∈ stepsOf (act env) s (boxes.map (fun box => .deleteRegion (Region.box box))),
      (m.1.act env m.2).NoWrap) :
    ClearsEach s.points ((Op.boxDelete boxes).rounds s.sqResolution)
      (boxDeleteLoop env s boxes).1.points (boxDeleteLoop env s boxes).2 := by
  induction boxes generalizing s o with
  | nil => exact .nil s.points
  | cons box rest ih =>
    have hfirst := deleteRegion_clears env.counter (Region.box box) h (hn _ List.mem_cons_self)
    obtain ⟨o', -, hs'⟩ := act_sound env (.deleteRegion (Region.box box)) h trivial
      (hn _ List.mem_cons_self)
    have hrest := ih hs' (fun m hm => hn m (List.mem_cons_of_mem _ hm))
    exact .cons hfirst hrest

/-- Every call but an insertion releases the live slots it deletes, round by round, and returns
their number. -/
theorem apply_rounds (op : Op Dim K) (hop : ∀ batch, op ≠ .insert batch) (h : Sound s o)
    (hn : (s.apply env op).1.NoWrap) :
    ClearsEach s.points (op.rounds s.sqResolution) (s.apply env op).1.points (s.apply env op).2 := by
  have hwrap := steps_noWrap hn
  cases op with
  | insert batch => exact absurd rfl (hop batch)
  | remove queries =>
    have hloop := removeLoop_clears queries h (fun m hm => hwrap m (List.mem_append_left _ hm))
    simp only [apply, remove]
    split_ifs
    · rw [sweep_points]
      exact hloop
    · exact hloop
  | boxDelete boxes =>
    have hloop := boxDeleteLoop_clears boxes h (fun m hm => hwrap m (List.mem_append_left _ hm))
    simp only [apply, boxDelete]
    split_ifs
    · rw [sweep_points]
      exact hloop
    · exact hloop
  | radiusCrop center r =>
    have hone := deleteRegion_clears env.counter (Region.crop center (r * r)) h
      (hwrap _ List.mem_cons_self)
    have hrounds : ClearsEach s.points ((Op.radiusCrop center r).rounds s.sqResolution)
        (s.radiusCropOne env center r).1.points (s.radiusCropOne env center r).2 :=
      .cons hone (.nil _)
    simp only [apply, radiusCrop]
    split_ifs
    · rw [sweep_points]
      exact hrounds
    · exact hrounds
  | rebuildAll =>
    simp only [apply, rebuildAll_points]
    exact .nil s.points

theorem apply_clears (op : Op Dim K) (hop : ∀ batch, op ≠ .insert batch) (h : Sound s o)
    (hn : (s.apply env op).1.NoWrap) :
    Clears s.points (fun x => op.deletes s.sqResolution x = true) (s.apply env op).1.points
      (s.apply env op).2 :=
  (apply_rounds op hop h hn).clears.congr (fun _ => Op.exists_round_iff)

/-- `remove` equals its oracle. -/
theorem remove_oracle (hB : 2 * cfg.leafBucketSize ≤ 65535) (h : Reachable env cfg s)
    (queries : List (Point Dim K)) (hn : (s.remove env queries).1.NoWrap) :
    (∀ i, (s.remove env queries).1.points.isLive i = true ↔ s.points.isLive i = true ∧
        ∀ q ∈ queries, cfg.resolution * cfg.resolution ≤ (s.points.point i).sqDist q) ∧
      (∀ i, (s.remove env queries).1.points.isLive i = true →
        (s.remove env queries).1.points.point i = s.points.point i ∧
        (s.remove env queries).1.points.generation i = s.points.generation i) ∧
      (s.remove env queries).2 =
        (s.points.liveSlots.filter
          (fun i => !(s.remove env queries).1.points.isLive i)).length := by
  obtain ⟨o, hs⟩ := h.sound hB
  have hclears := apply_clears (.remove queries) (by simp) hs hn
  simp only [apply] at hclears
  refine ⟨fun i => ?_, fun i _ => hclears.survivor i, hclears.count⟩
  have hlive := hclears.isLive_iff i
  simpa [Op.deletes, sqResolution, h.config.1] using hlive

theorem remove_oracle_plane :
    (remove wordEnv (run wordEnv (start (plane 3 (1 / 4))) [.insert [![0, 0], ![1, 0], ![2, 0]]])
        [![0, 0], ![1, 0], ![0, 0]]).2 =
      ((run wordEnv (start (plane 3 (1 / 4))) [.insert [![0, 0], ![1, 0], ![2, 0]]] :
        KDTreeImpl 2 ℚ).points.liveSlots.filter
        (fun i => !(remove wordEnv
          (run wordEnv (start (plane 3 (1 / 4))) [.insert [![0, 0], ![1, 0], ![2, 0]]])
          [![0, 0], ![1, 0], ![0, 0]]).1.points.isLive i)).length :=
  (remove_oracle (by decide)
    (reachable_run (plane_accepted (by decide) (by norm_num)) (by decide +kernel)) _
    (noWrap_of_fits (by decide +kernel))).2.2

/-- `box_delete` equals its oracle, for boxes of any shape. -/
theorem boxDelete_oracle (hB : 2 * cfg.leafBucketSize ≤ 65535) (h : Reachable env cfg s)
    (boxes : List (BBox Dim K)) (hn : (s.boxDelete env boxes).1.NoWrap) :
    (∀ i, (s.boxDelete env boxes).1.points.isLive i = true ↔ s.points.isLive i = true ∧
        ∀ box ∈ boxes, ¬ box.Mem (s.points.point i)) ∧
      (∀ i, (s.boxDelete env boxes).1.points.isLive i = true →
        (s.boxDelete env boxes).1.points.point i = s.points.point i ∧
        (s.boxDelete env boxes).1.points.generation i = s.points.generation i) ∧
      (s.boxDelete env boxes).2 =
        (s.points.liveSlots.filter
          (fun i => !(s.boxDelete env boxes).1.points.isLive i)).length := by
  obtain ⟨o, hs⟩ := h.sound hB
  have hclears := apply_clears (.boxDelete boxes) (by simp) hs hn
  simp only [apply] at hclears
  refine ⟨fun i => ?_, fun i _ => hclears.survivor i, hclears.count⟩
  rw [hclears.isLive_iff i]
  simp [Op.deletes, ← BBox.contains_iff]

def overlapping : List (BBox 2 ℚ) :=
  [⟨fun _ => val 0, ![val 1, val 0]⟩, ⟨![val 1, val 0], fun _ => ⊤⟩, ⟨fun _ => val 9, fun _ => val 0⟩]

theorem boxDelete_oracle_plane :
    (boxDelete wordEnv (run wordEnv (start (plane 3 (1 / 4))) [.insert [![0, 0], ![1, 0], ![2, 0]]])
        overlapping).2 =
      ((run wordEnv (start (plane 3 (1 / 4))) [.insert [![0, 0], ![1, 0], ![2, 0]]] :
        KDTreeImpl 2 ℚ).points.liveSlots.filter
        (fun i => !(boxDelete wordEnv
          (run wordEnv (start (plane 3 (1 / 4))) [.insert [![0, 0], ![1, 0], ![2, 0]]])
          overlapping).1.points.isLive i)).length :=
  (boxDelete_oracle (by decide)
    (reachable_run (plane_accepted (by decide) (by norm_num)) (by decide +kernel)) _
    (noWrap_of_fits (by decide +kernel))).2.2

/-- `radius_crop` equals its oracle: a point on the sphere stays. -/
theorem radiusCrop_oracle (hB : 2 * cfg.leafBucketSize ≤ 65535) (h : Reachable env cfg s)
    (center : Point Dim K) (r : K) (hn : (s.radiusCrop env center r).1.NoWrap) :
    (∀ i, (s.radiusCrop env center r).1.points.isLive i = true ↔ s.points.isLive i = true ∧
        (s.points.point i).sqDist center ≤ r * r) ∧
      (∀ i, (s.radiusCrop env center r).1.points.isLive i = true →
        (s.radiusCrop env center r).1.points.point i = s.points.point i ∧
        (s.radiusCrop env center r).1.points.generation i = s.points.generation i) ∧
      (s.radiusCrop env center r).2 =
        (s.points.liveSlots.filter
          (fun i => !(s.radiusCrop env center r).1.points.isLive i)).length := by
  obtain ⟨o, hs⟩ := h.sound hB
  have hclears := apply_clears (.radiusCrop center r) (by simp) hs hn
  simp only [apply] at hclears
  refine ⟨fun i => ?_, fun i _ => hclears.survivor i, hclears.count⟩
  rw [hclears.isLive_iff i]
  simp [Op.deletes]

theorem radiusCrop_oracle_plane :
    (radiusCrop wordEnv (run wordEnv (start (plane 3 (1 / 4))) [.insert [![0, 0], ![1, 0], ![2, 0]]])
        ![0, 0] 1).2 =
      ((run wordEnv (start (plane 3 (1 / 4))) [.insert [![0, 0], ![1, 0], ![2, 0]]] :
        KDTreeImpl 2 ℚ).points.liveSlots.filter
        (fun i => !(radiusCrop wordEnv
          (run wordEnv (start (plane 3 (1 / 4))) [.insert [![0, 0], ![1, 0], ![2, 0]]])
          ![0, 0] 1).1.points.isLive i)).length :=
  (radiusCrop_oracle (by decide)
    (reachable_run (plane_accepted (by decide) (by norm_num)) (by decide +kernel)) _ _
    (noWrap_of_fits (by decide +kernel))).2.2

end KDTreeImpl
end Copse

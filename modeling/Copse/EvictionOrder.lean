import Copse.KDTreeUpdates

set_option autoImplicit false

namespace Copse
open FramedStore PointStore QueueOutline TreeBuilder TransitionRuns

namespace PointStore
variable {Dim : ℕ} {K : Type*}

/-- Behind the first slot that goes, at most one stays. -/
def orderly (goes : ℕ → Bool) : List ℕ → Bool
  | [] => true
  | i :: rest =>
    if goes i then decide ((rest.filter (fun j => !goes j)).length ≤ 1) else orderly goes rest

theorem orderly_congr {goes goes' : ℕ → Bool} {order : List ℕ} (h : ∀ i ∈ order, goes i = goes' i) :
    orderly goes order = orderly goes' order := by
  induction order with
  | nil => rfl
  | cons i rest ih =>
    obtain ⟨hi, hrest⟩ := List.forall_mem_cons.mp h
    rw [orderly, orderly, hi, ih hrest, List.filter_congr (fun j hj => by rw [hrest j hj])]

theorem perm_eq_of_length_le_one {α : Type*} {l l' : List α} (h : l.Perm l')
    (hl : l'.length ≤ 1) : l = l' := by
  cases l' with
  | nil => exact h.eq_nil
  | cons x rest =>
    have hrest : rest = [] := by
      rw [List.length_cons] at hl
      exact List.eq_nil_of_length_eq_zero (by omega)
    rw [hrest] at h ⊢
    exact List.perm_singleton.mp h

/-- Where the removals are orderly, the survivors stay in order. -/
theorem orderly_swapRemoved {goes : ℕ → Bool} {order left : List ℕ}
    (h : SwapRemoved goes order left) (ho : orderly goes order = true) :
    left = order.filter (fun j => !goes j) := by
  induction order generalizing left with
  | nil => exact h.perm.eq_nil
  | cons i rest ih =>
    cases hi : goes i with
    | true =>
      -- at most one survives, so there is only one order
      have hshort : ((i :: rest).filter (fun j => !goes j)).length ≤ 1 := by
        rw [List.filter_cons_of_neg (by simp [hi])]
        simpa [orderly, hi] using ho
      exact perm_eq_of_length_le_one h.perm hshort
    | false =>
      obtain ⟨left, rfl, hrest⟩ := h.tail hi
      rw [List.filter_cons_of_pos (by simp [hi]), ih hrest (by simpa [orderly, hi] using ho)]

theorem releaseAll_order_ring {s : PointStore Dim K} {order free l : List ℕ}
    (h : Ring s order free) (hl : ∀ i ∈ l, i ∈ order) (hd : l.Nodup)
    (ho : orderly (fun j => decide (j ∈ l)) order = true) :
    ∃ free', Ring (s.releaseAll l) (order.filter (fun j => decide (j ∉ l))) free' := by
  obtain ⟨window', free', hring, hremoved⟩ := releaseAll_swapRemoved h hl hd
  rw [orderly_swapRemoved hremoved ho] at hring
  refine ⟨free', ?_⟩
  simpa using hring

theorem Ring.victim_eq {s : PointStore Dim K} {window free : List ℕ} (h : Ring s window free)
    (full : s.live = s.capacity) : window.head? = some s.victim := by
  obtain ⟨v, rest, rfl, rfl⟩ := h.exists_oldest full
  rw [(evict_ring h).1, List.head?_cons]

end PointStore

def Action.releases {Dim : ℕ} {K : Type*} [Field K] [LinearOrder K] : Action Dim K → Bool
  | .removeIndex _ => true
  | .deleteRegion _ => true
  | _ => false

namespace KDTreeImpl
variable {Dim : ℕ} [NeZero Dim] {K : Type*} [Field K] [LinearOrder K]

/-- The live slots in order of arrival after one action, from those before it. -/
def arrive (env : Env K) (order : List ℕ) (m : KDTreeImpl Dim K × Action Dim K) : List ℕ :=
  match m.2 with
  | .insertPoint x =>
    if m.1.accepts x then
      order.erase (m.1.points.acquire x).2 ++ [(m.1.points.acquire x).2]
    else order
  | a => order.filter (m.1.act env a).points.isLive

def arrivals (env : Env K) (order : List ℕ) (l : List (KDTreeImpl Dim K × Action Dim K)) : List ℕ :=
  l.foldl (arrive env) order

section
variable {env : Env K} {s s' : KDTreeImpl Dim K} {order : List ℕ}

omit [NeZero Dim] [Field K] [LinearOrder K] in
theorem filter_live_eq {points : PointStore Dim K} {free : List ℕ} (h : Ring points order free) :
    order.filter points.isLive = order :=
  List.filter_eq_self.mpr (fun i hi => (h.isLive_iff i).mpr hi)

theorem arrive_ring {m : KDTreeImpl Dim K × Action Dim K} (hm : m.2.releases = false)
    (h : ∃ free, Ring m.1.points order free) :
    ∃ free, Ring (m.1.act env m.2).points (arrive env order m) free := by
  obtain ⟨free, h⟩ := h
  have same : ∀ points : PointStore Dim K, points = m.1.points →
      ∃ free, Ring points (order.filter points.isLive) free := by
    rintro points rfl
    rw [filter_live_eq h]
    exact ⟨free, h⟩
  obtain ⟨u, a⟩ := m
  cases a with
  | insertPoint x =>
    simp only [act, arrive, insertPoint]
    split_ifs
    · rw [acceptPoint_points]
      exact acquire_ring h x
    · exact ⟨free, h⟩
  | removeIndex i => simp [Action.releases] at hm
  | deleteRegion rg => simp [Action.releases] at hm
  | sweepFull => exact same _ (sweepFull_points env u)
  | sweep => exact same _ (sweep_points env u)
  | rebuildAll => exact same _ (rebuildAll_points env u)

theorem arrivals_ring {l : List (KDTreeImpl Dim K × Action Dim K)} (hc : Chain (act env) s l s')
    (hl : ∀ m ∈ l, m.2.releases = false) (h : ∃ free, Ring s.points order free) :
    ∃ free, Ring s'.points (arrivals env order l) free := by
  induction hc generalizing order with
  | nil => exact h
  | cons a rest ih =>
    obtain ⟨ha, hrest⟩ := List.forall_mem_cons.mp hl
    exact ih hrest (arrive_ring ha h)

variable [IsStrictOrderedRing K]

omit [IsStrictOrderedRing K] in
theorem arrivals_filter {l : List (KDTreeImpl Dim K × Action Dim K)} (hc : Chain (act env) s l s')
    (hl : ∀ m ∈ l, ∀ x, m.2 ≠ .insertPoint x) (h : ∀ i ∈ order, s.points.isLive i = true) :
    arrivals env order l = order.filter s'.points.isLive := by
  induction hc generalizing order with
  | nil => exact (List.filter_eq_self.mpr h).symm
  | @cons s s' l a rest ih =>
    obtain ⟨ha, hrest⟩ := List.forall_mem_cons.mp hl
    have harrive : arrive env order (s, a) = order.filter (s.act env a).points.isLive := by
      cases a with
      | insertPoint x => exact absurd rfl (ha x)
      | _ => rfl
    have hlive : ∀ i, s'.points.isLive i = true → (s.act env a).points.isLive i = true := by
      have hkeep := rest.invariant
        (P := fun u => ∀ i, u.points.isLive i = true → (s.act env a).points.isLive i = true)
        (fun m hm hu i hi => by
          obtain ⟨l, hl⟩ := act_releases env m.1 m.2 (hrest m hm)
          rw [hl, releaseAll_isLive, Bool.and_eq_true] at hi
          exact hu i hi.1) (fun _ hi => hi)
      exact hkeep.2
    change arrivals env (arrive env order (s, a)) _ = _
    rw [harrive, ih hrest (fun i hi => (List.mem_filter.mp hi).2), List.filter_filter]
    refine List.filter_congr (fun i _ => ?_)
    cases hi : s'.points.isLive i with
    | false => rfl
    | true => simp [hlive i hi]

theorem insert_steps_release (batch : List (Point Dim K)) :
    ∀ m ∈ s.steps env (.insert batch), m.2.releases = false := by
  intro m hm
  rcases steps_takes hm with ⟨x, -, hx⟩ | hx
  · rw [hx]
    rfl
  · rw [hx]
    rfl

theorem delete_steps_insert {op : Op Dim K} (hop : ∀ batch, op ≠ .insert batch) :
    ∀ m ∈ s.steps env op, ∀ x, m.2 ≠ .insertPoint x := by
  intro m hm x heq
  have htakes := steps_takes hm
  rw [heq] at htakes
  cases op with
  | insert batch => exact hop batch rfl
  | _ => simp [Op.Takes] at htakes

/-- The calls that keep the ring in order of arrival: behind the first point
that a deletion takes, it leaves at most one. -/
def keepsOrder (w : KDTreeImpl Dim K × List ℕ) (op : Op Dim K) : Bool :=
  orderly (fun i => op.deletes w.1.sqResolution (w.1.points.point i)) w.2

/-- One call keeps the ring and the history together. -/
theorem apply_order_ring {o : Option (Tree Dim K)} (op : Op Dim K) (hs : Sound s o)
    (h : ∃ free, Ring s.points order free) (hn : (s.apply env op).1.NoWrap)
    (ho : keepsOrder (s, order) op = true) :
    ∃ free, Ring (s.apply env op).1.points (arrivals env order (s.steps env op)) free := by
  by_cases hop : ∀ batch, op ≠ .insert batch
  · obtain ⟨free, h⟩ := h
    have hlive : ∀ i ∈ order, s.points.isLive i = true := fun i hi => (h.isLive_iff i).mpr hi
    rw [arrivals_filter (steps_chain env s op) (delete_steps_insert hop) hlive]
    obtain ⟨l, hpts, -, hd, hl⟩ := apply_clears op hop hs hn
    have hgoes : ∀ i ∈ order, op.deletes s.sqResolution (s.points.point i) = decide (i ∈ l) := by
      intro i hi
      rw [Bool.eq_iff_iff, decide_eq_true_eq, hl, and_iff_right (hlive i hi)]
    have hsub : ∀ i ∈ l, i ∈ order := fun i hi => (h.isLive_iff i).mp ((hl i).mp hi).1
    obtain ⟨free', hring⟩ :=
      releaseAll_order_ring h hsub hd ((orderly_congr hgoes).symm.trans ho)
    refine ⟨free', ?_⟩
    rw [hpts, List.filter_congr (fun i hi => ?_)]
    · exact hring
    · rw [releaseAll_isLive, hlive i hi, Bool.true_and]
  · push Not at hop
    obtain ⟨batch, rfl⟩ := hop
    exact arrivals_ring (steps_chain env s _) (insert_steps_release batch) h

/-- A call together with what it does to the history. -/
def record (env : Env K) (w : KDTreeImpl Dim K × List ℕ) (op : Op Dim K) :
    KDTreeImpl Dim K × List ℕ :=
  ((w.1.apply env op).1, arrivals env w.2 (w.1.steps env op))

/-- Runs with their history: the live slots in order of arrival. -/
def History (env : Env K) (cfg : Config K) (ok : KDTreeImpl Dim K × List ℕ → Op Dim K → Bool) :
    KDTreeImpl Dim K × List ℕ → Prop :=
  Reach (fun w => create cfg = .ok w.1 ∧ w.1.NoWrap ∧ w.2 = [])
    (fun w op w' => w' = record env w op ∧ w'.1.NoWrap ∧ ok w op = true)

def recordMeets (env : Env K) (ok : KDTreeImpl Dim K × List ℕ → Op Dim K → Bool) :
    KDTreeImpl Dim K × List ℕ → List (Op Dim K) → Bool
  | w, [] => w.1.fits
  | w, op :: ops => w.1.fits && ok w op && recordMeets env ok (record env w op) ops

theorem history_run {cfg : Config K} {ok : KDTreeImpl Dim K × List ℕ → Op Dim K → Bool}
    (hcfg : Accepted cfg) {ops : List (Op Dim K)}
    (h : recordMeets env ok (start cfg, []) ops = true) :
    History env cfg ok (ops.foldl (record env) (start cfg, [])) := by
  have first : ∀ (w : KDTreeImpl Dim K × List ℕ) (ops : List (Op Dim K)),
      recordMeets env ok w ops = true → w.1.fits = true := by
    intro w ops hm
    cases ops with
    | nil => exact hm
    | cons op ops =>
      simp only [recordMeets, Bool.and_eq_true] at hm
      exact hm.1.1
  have go : ∀ (ops : List (Op Dim K)) (w : KDTreeImpl Dim K × List ℕ), History env cfg ok w →
      recordMeets env ok w ops = true → History env cfg ok (ops.foldl (record env) w) := by
    intro ops
    induction ops with
    | nil => exact fun w hw _ => hw
    | cons op ops ih =>
      intro w hw hm
      simp only [recordMeets, Bool.and_eq_true] at hm
      exact ih _ (.step op hw ⟨rfl, noWrap_of_fits (first _ _ hm.2), hm.1.2⟩) hm.2
  exact go ops _ (.init ⟨create_start hcfg, noWrap_of_fits (first _ _ h), rfl⟩) h

/-- As long as every deletion leaves at most one point behind the first it takes,
the ring lists the live slots in order of arrival, and a full store evicts the
point that arrived first. -/
theorem evicts_oldest {cfg : Config K} (hB : 2 * cfg.leafBucketSize ≤ 65535)
    (h : History env cfg keepsOrder (s, order)) :
    s.points.forEachLive.map Prod.fst = order ∧
      ∀ (op : Op Dim K) (pre post : List (KDTreeImpl Dim K × Action Dim K)) (u : KDTreeImpl Dim K)
        (x : Point Dim K), s.steps env op = pre ++ (u, .insertPoint x) :: post →
        u.accepts x = true → u.points.live = u.points.capacity →
        (arrivals env order pre).head? = some u.points.victim := by
  have hring : ∃ free, Ring s.points order free := by
    have hinv := Reach.invariant
      (P := fun w => (∃ o, Sound w.1 o) ∧ ∃ free, Ring w.1.points w.2 free) ?_ ?_ h
    · exact hinv.2
    · rintro ⟨u, l⟩ ⟨hc, hn, rfl⟩
      have hf := create_fresh hc
      exact ⟨⟨none, hf.sound hB hn⟩, _, create_ring (create_capacity hf.points ▸ hn.capacity) hf.points⟩
    · rintro ⟨u, l⟩ op - - ⟨⟨o, hs⟩, hr⟩ ⟨rfl, hn, hok⟩
      exact ⟨apply_sound hs hn, apply_order_ring op hs hr hn hok⟩
  refine ⟨?_, fun op pre post u x hsteps _ hfull => ?_⟩
  · obtain ⟨free, hr⟩ := hring
    exact forEachLive_fst hr
  · have hop : ∃ batch, op = .insert batch := by
      by_contra hno
      push Not at hno
      have hm : (u, Action.insertPoint x) ∈ s.steps env op := by
        rw [hsteps]
        exact List.mem_append_right _ List.mem_cons_self
      exact delete_steps_insert hno _ hm x rfl
    obtain ⟨batch, rfl⟩ := hop
    have hquiet : ∀ m ∈ s.steps env (.insert batch), m.2.releases = false :=
      insert_steps_release batch
    have hchain := steps_chain env s (.insert batch)
    rw [hsteps] at hquiet hchain
    obtain ⟨v, hpre, hrest⟩ := hchain.split
    obtain ⟨free, hr⟩ := arrivals_ring hpre (fun m hm => hquiet m (List.mem_append_left _ hm)) hring
    cases hrest with
    | cons _ _ => exact hr.victim_eq hfull

end

def gapRun : KDTreeImpl 2 ℚ × List ℕ :=
  [.insert [![0, 0], ![1, 0], ![2, 0]], .remove [![0, 0]], .insert [![3, 0]]].foldl (record wordEnv)
    (start (plane 3 (1 / 4)), [])

theorem evicts_newer_plane :
    History wordEnv (plane 3 (1 / 4)) (fun _ _ => true) gapRun ∧
      gapRun.1.accepts ![4, 0] = true ∧ gapRun.1.points.live = gapRun.1.points.capacity ∧
      gapRun.2.head? = some 1 ∧ gapRun.1.points.victim = 2 :=
  ⟨history_run (plane_accepted (by decide) (by norm_num)) (by decide +kernel), by decide +kernel,
    by decide +kernel, by decide +kernel, by decide +kernel⟩

def tailRun : KDTreeImpl 2 ℚ × List ℕ :=
  [.insert [![0, 0], ![1, 0]], .remove [![0, 0]]].foldl (record wordEnv) (start (plane 2 (1 / 4)), [])

theorem evicts_oldest_plane :
    (arrivals wordEnv tailRun.2 [(tailRun.1, .insertPoint ![2, 0])]).head? =
      some (tailRun.1.act wordEnv (.insertPoint ![2, 0])).points.victim :=
  (evicts_oldest (by decide)
    (history_run (plane_accepted (by decide) (by norm_num)) (by decide +kernel))).2
    (.insert [![2, 0], ![3, 0]]) _ _ _ ![3, 0] rfl (by decide +kernel) (by decide +kernel)

end KDTreeImpl
end Copse

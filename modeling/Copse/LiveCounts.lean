import Copse.TreeCounts

set_option autoImplicit false

namespace Copse
open PointStore TreeBuilder TransitionRuns

namespace Tree
variable {Dim : ℕ} {K : Type*} [Field K] [LinearOrder K]

def LiveCounted (c : Counter) (points : PointStore Dim K) (t : Tree Dim K) : Prop :=
  t.live = c.wrap (t.validIn points).length

/-- The slot is not valid left of a node that splits at its coordinate. -/
def TieFree (points : PointStore Dim K) (index : ℕ) : Tree Dim K → Prop
  | leaf .. => True
  | node _ _ _ dim split left right =>
    (index ∈ left.validIn points → points.point index dim ≠ split) ∧
      left.TieFree points index ∧ right.TieFree points index

section
variable {c : Counter} {points points' : PointStore Dim K} {t t' : Tree Dim K}

section
omit [LinearOrder K]

theorem LiveCounted.congr (h : t.LiveCounted c points)
    (hv : ∀ e ∈ t.entries, points'.valid e = points.valid e) : t.LiveCounted c points' := by
  rw [LiveCounted, validIn_congr hv]
  exact h

theorem liveCounted_congr (h : t.All (LiveCounted c points))
    (hv : ∀ e ∈ t.entries, points'.valid e = points.valid e) : t.All (LiveCounted c points') :=
  h.imp (fun _ _ hs hu => hu.congr (fun e he => hv e (hs.entries_sublist.subset he)))

theorem acquire_valid_of_room {window free : List ℕ} (hr : Ring points window free)
    (x : Point Dim K) (fit : (points.acquire x).1.StampsFit) (hs : t.Stamped points)
    (hroom : points.live ≠ points.capacity) :
    ∀ e ∈ t.entries, (points.acquire x).1.valid e = points.valid e := by
  intro e he
  rw [acquire_valid hr x fit hs e he]
  cases hv : points.valid e with
  | false => rfl
  | true =>
    have hne : e.index ≠ (points.acquire x).2 := by
      intro heq
      have hlive := ((points.valid_iff e).mp hv).2
      rw [heq, acquire_not_live x hr hroom] at hlive
      cases hlive
    simpa using hne

theorem liveCounted_release {i : ℕ} (h : t.All (LiveCounted c points))
    (hi : i ∉ t.validIn points) : t.All (LiveCounted c (points.release i)) := by
  refine liveCounted_congr h (fun e he => ?_)
  rw [points.release_valid]
  cases hv : points.valid e with
  | false => rfl
  | true =>
    have hne : e.index ≠ i := by
      rintro rfl
      exact hi (mem_validIn.mpr ⟨e, he, hv, rfl⟩)
    simpa using hne

theorem validIn_release_length {i : ℕ} (hd : (t.validIn points).Nodup) (hi : i ∈ t.validIn points) :
    (t.validIn (points.release i)).length + 1 = (t.validIn points).length := by
  have hpos := List.length_pos_of_mem hi
  have herase : (t.validIn points).filter (fun j => decide (j ≠ i)) = (t.validIn points).erase i := by
    rw [hd.erase_eq_filter]
    exact List.filter_congr (fun j _ => by rw [Bool.eq_iff_iff, decide_eq_true_eq, bne_iff_ne])
  rw [validIn_release, herase, List.length_erase_of_mem hi]
  omega

end

omit [Field K] in
theorem live_tombstone (x : Point Dim K) (t : Tree Dim K) :
    (t.tombstone c x).live = c.wrap (t.live + -1) := by
  cases t with
  | leaf => rfl
  | node id live total dim split left right =>
    rw [tombstone, addLive, live_withCounts]
    split_ifs <;> rfl

theorem LiveCounted.tombstone {i : ℕ} (h : t.LiveCounted c points)
    (hd : (t.validIn points).Nodup) (hi : i ∈ t.validIn points) (x : Point Dim K) :
    (t.tombstone c x).LiveCounted c (points.release i) := by
  have hlen := validIn_release_length hd hi
  rw [LiveCounted, live_tombstone, h, Counter.wrap_wrap_add,
    validIn_of_dropLive (dropLive_tombstone c x t), ← hlen]
  congr 1
  push_cast
  omega

/-- The descent of a tombstone without ties passes exactly the nodes above the slot. -/
theorem liveCounted_tombstone {i : ℕ} (h : t.All (LiveCounted c points)) (hp : t.Placed points)
    (hd : (t.validIn points).Nodup) (hi : i ∈ t.validIn points) (hfree : t.TieFree points i) :
    (t.tombstone c (points.point i)).All (LiveCounted c (points.release i)) := by
  have hroot := h.root.tombstone hd hi (points.point i)
  induction t with
  | leaf => exact hroot
  | node id live total dim split left right ihl ihr =>
    obtain ⟨-, hl, hr⟩ := h
    obtain ⟨hle, hge, hpl, hpr⟩ := hp
    obtain ⟨hne, hfl, hfr⟩ := hfree
    rw [validIn_node, List.nodup_append] at hd
    obtain ⟨hdl, hdr, hdis⟩ := hd
    rw [validIn_node, List.mem_append] at hi
    by_cases hil : i ∈ left.validIn points
    · have hside : points.point i dim < split := lt_of_le_of_ne (hle i hil) (hne hil)
      have hout : i ∉ right.validIn points := fun hir => hdis i hil i hir rfl
      simp only [Tree.tombstone, hside, ↓reduceIte] at hroot ⊢
      exact ⟨hroot, ihl hl hpl hdl hil hfl (hl.root.tombstone hdl hil _), liveCounted_release hr hout⟩
    · have hir := hi.resolve_left hil
      have hside : ¬ points.point i dim < split := not_lt.mpr (hge i hir)
      simp only [Tree.tombstone, hside, ↓reduceIte] at hroot ⊢
      exact ⟨hroot, liveCounted_release hl hil, ihr hr hpr hdr hir hfr (hr.root.tombstone hdr hir _)⟩

omit [LinearOrder K]

theorem countP_gone {hit : Point Dim K → Bool} {es : List BucketEntry}
    (hv : ∀ e ∈ es, points'.valid e = (points.valid e && !gone points hit e)) :
    es.countP points'.valid + es.countP (gone points hit) = es.countP points.valid := by
  induction es with
  | nil => rfl
  | cons e es ih =>
    have hrest := ih (fun f hf => hv f (List.mem_cons_of_mem _ hf))
    have he := hv e List.mem_cons_self
    simp only [List.countP_cons, he]
    cases hvalid : points.valid e <;> cases hhit : hit (points.point e.index) <;>
      simp [gone, hvalid, hhit] <;> omega

omit [Field K] in
theorem Discounted.live_eq {gone : BucketEntry → Bool} (h : t.Discounted c gone t')
    (hlive : ∃ n : ℤ, t.live = c.wrap n) :
    t'.live = c.wrap (t.live + -(t.entries.countP gone : ℤ)) := by
  cases h with
  | untouched _ none =>
    obtain ⟨n, hn⟩ := hlive
    have hzero : t.entries.countP gone = 0 :=
      List.countP_eq_zero.mpr (fun e he => by simp [none e he])
    rw [hzero, hn, Counter.wrap_wrap_add]
    simp
  | leaf => rfl
  | node id live total dim split left right left' right' hl hr =>
    change c.wrap (live + _) = _
    rw [← List.countP_append]
    rfl

theorem LiveCounted.discounted {hit : Point Dim K → Bool} (h : t.LiveCounted c points)
    (hd : t.Discounted c (gone points hit) t')
    (hv : ∀ e ∈ t.entries, points'.valid e = (points.valid e && !gone points hit e)) :
    t'.LiveCounted c points' := by
  have hcount := countP_gone hv
  rw [LiveCounted, hd.live_eq ⟨_, h⟩, h, Counter.wrap_wrap_add, validIn_length, validIn_length,
    entries_of_dropLive hd.dropLive, ← hcount]
  congr 1
  push_cast
  omega

theorem Discounted.liveCounted {hit : Point Dim K → Bool}
    (h : t.Discounted c (gone points hit) t') (hc : t.All (LiveCounted c points))
    (hv : ∀ e ∈ t.entries, points'.valid e = (points.valid e && !gone points hit e)) :
    t'.All (LiveCounted c points') := by
  have hroot := hc.root.discounted h hv
  induction h with
  | untouched t none =>
    refine liveCounted_congr hc (fun e he => ?_)
    rw [hv e he, none e he]
    simp
  | leaf => exact hroot
  | node id live total dim split left right left' right' hl hr ihl ihr =>
    have hvl := fun e he => hv e (List.mem_append_left _ he)
    have hvr := fun e he => hv e (List.mem_append_right _ he)
    exact ⟨hroot, ihl hc.2.1 hvl (hc.2.1.root.discounted hl hvl),
      ihr hc.2.2 hvr (hc.2.2.root.discounted hr hvr)⟩

end
end Tree

namespace TreeBuilder
variable {Dim : ℕ} {K : Type*} [Field K] [LinearOrder K]

section
variable {c : Counter} {B : ℕ} {b : TreeBuilder K} {points : PointStore Dim K} {index : ℕ}
variable {t t' : Tree Dim K}

theorem Built.liveCounted {indices : List ℕ} (h : Built c points B indices t)
    (hlive : ∀ i ∈ indices, points.isLive i = true) : t.All (Tree.LiveCounted c points) := by
  refine h.all (fun l u hu _ hmem => ?_)
  have hperm := hu.validIn_perm (fun i hi => hlive i (hmem i hi))
  rw [Tree.LiveCounted, hperm.length_eq]
  exact hu.counts.1

theorem Rebuilt.liveCounted (h : Rebuilt c points B t t') :
    t'.All (Tree.LiveCounted c points) :=
  h.built.liveCounted (fun _ hi => Tree.live_of_mem_validIn hi)

theorem Inserted.liveCounted_root (h : Inserted b points index t t')
    (hlive : points.isLive index = true) (hc : t.LiveCounted b.env.counter points) :
    t'.LiveCounted b.env.counter points := by
  have hpath : t'.live = b.env.counter.wrap (t.live + 1) → t'.LiveCounted b.env.counter points := by
    intro hlive'
    rw [Tree.LiveCounted, hlive', (h.validIn_perm hlive).length_eq, hc, Counter.wrap_wrap_add,
      List.length_cons]
    push_cast
    rfl
  cases h with
  | push => exact hpath rfl
  | split _ _ _ _ _ _ _ _ t' _ rebuilt => exact rebuilt.liveCounted.root
  | left => exact hpath rfl
  | right => exact hpath rfl

theorem Inserted.liveCounted (h : Inserted b points index t t')
    (hlive : points.isLive index = true) (hc : t.All (Tree.LiveCounted b.env.counter points)) :
    t'.All (Tree.LiveCounted b.env.counter points) := by
  have hroot := h.liveCounted_root hlive hc.root
  induction h with
  | push => exact hroot
  | split id live total offset cap bboxIdx es bbox t' _ rebuilt => exact rebuilt.liveCounted
  | left id live total dim split left right left' side inserted ih =>
    exact ⟨hroot, ih hc.2.1 (inserted.liveCounted_root hlive hc.2.1.root), hc.2.2⟩
  | right id live total dim split left right right' side inserted ih =>
    exact ⟨hroot, hc.2.1, ih hc.2.2 (inserted.liveCounted_root hlive hc.2.2.root)⟩

theorem Swept.liveCounted_root {visit : ℕ → Bool} {called : Bool}
    (h : Swept b points visit called t t') (hc : t.LiveCounted b.env.counter points) :
    t'.LiveCounted b.env.counter points := by
  have hlen := h.renewed.perm.length_eq
  cases h with
  | skip => exact hc
  | leaf => exact hc
  | rebuild _ _ _ rebuilt => exact rebuilt.liveCounted.root
  | keep id live total dim split left right left' right' =>
    rw [Tree.LiveCounted, hlen]
    exact hc
  | again _ _ _ _ _ _ _ _ _ _ _ _ _ _ rebuilt => exact rebuilt.liveCounted.root

theorem Swept.liveCounted {visit : ℕ → Bool} {called : Bool} (h : Swept b points visit called t t')
    (hc : t.All (Tree.LiveCounted b.env.counter points)) :
    t'.All (Tree.LiveCounted b.env.counter points) := by
  have hroot := h.liveCounted_root hc.root
  induction h with
  | skip t => exact hc
  | leaf => exact hc
  | rebuild t t' _ rebuilt => exact rebuilt.liveCounted
  | keep id live total dim split left right left' right' _ hl hr _ ihl ihr =>
    exact ⟨hroot, ihl hc.2.1 (hl.liveCounted_root hc.2.1.root),
      ihr hc.2.2 (hr.liveCounted_root hc.2.2.root)⟩
  | again id live total dim split left right left' right' t' _ _ _ _ rebuilt _ _ =>
    exact rebuilt.liveCounted

end

def tieFree (points : PointStore Dim K) (index : ℕ) : ℕ → Pools Dim K → ℕ → Bool
  | 0, _, _ => true
  | fuel + 1, p, nodeIdx =>
    match (p.node nodeIdx).body with
    | .leaf .. => true
    | .internal dim split left right =>
      !(decide (index ∈ collectLiveIndicesInSubtree points fuel p left) &&
          decide (points.point index dim = split)) &&
        tieFree points index fuel p left && tieFree points index fuel p right

theorem tieFree_spec {points : PointStore Dim K} {index : ℕ} {p : Pools Dim K} {t : Tree Dim K}
    (h : t.Rep p) (fuel : ℕ) (hfuel : t.height < fuel)
    (hfree : tieFree points index fuel p t.id = true) : t.TieFree points index := by
  induction t generalizing fuel with
  | leaf => trivial
  | node id live total dim split left right ihl ihr =>
    obtain ⟨fuel, rfl⟩ : ∃ n, fuel = n + 1 := ⟨fuel - 1, by omega⟩
    simp only [Tree.height] at hfuel
    simp only [tieFree, Tree.id_node, h.node_body, Bool.and_eq_true,
      collect_eq points h.left fuel (by omega)] at hfree
    obtain ⟨⟨htie, hl⟩, hr⟩ := hfree
    refine ⟨fun hmem heq => ?_, ihl h.left fuel (by omega) hl, ihr h.right fuel (by omega) hr⟩
    simp [hmem, heq] at htie

end TreeBuilder

namespace KDTreeImpl
variable {Dim : ℕ} [NeZero Dim] {K : Type*} [Field K] [LinearOrder K]

def evicts (s : KDTreeImpl Dim K) : Action Dim K → Bool
  | .insertPoint x => s.accepts x && decide (s.points.live = s.points.capacity)
  | _ => false

def strays (s : KDTreeImpl Dim K) : Action Dim K → Bool
  | .removeIndex i => !tieFree s.points i s.pools.nodes.length s.pools s.root
  | _ => false

section
variable {env : Env K} {cfg : Config K} {s : KDTreeImpl Dim K} {a : Action Dim K}
variable {o o' : Option (Tree Dim K)}

omit [NeZero Dim] in
theorem deleteRegion_valid (rg : Region Dim K) {t : Tree Dim K} (h : Sound s (some t))
    (hn : (deleteRegion env.counter s rg).1.NoWrap) :
    ∀ e ∈ t.entries, (deleteRegion env.counter s rg).1.points.valid e =
      (s.points.valid e && !gone s.points rg.hit e) := by
  intro e he
  obtain ⟨-, -, -, hpts, -⟩ := deleteRegion_holds env.counter rg h hn
  rw [hpts, releaseAll_valid]
  cases hv : s.points.valid e with
  | false => rfl
  | true =>
    have hmem : e.index ∈ t.validIn s.points := Tree.mem_validIn.mpr ⟨e, he, hv, rfl⟩
    cases hh : rg.hit (s.points.point e.index) with
    | false => simp [gone, hv, hh, mem_hitSlots]
    | true => simp [gone, hv, hh, mem_hitSlots, hmem]

omit [NeZero Dim] in
theorem tieFree_of_strays {i : ℕ} {t : Tree Dim K} (h : Holds s t)
    (hs : s.strays (.removeIndex i) = false) : t.TieFree s.points i := by
  rw [strays, Bool.not_eq_false', ← h.root] at hs
  exact tieFree_spec h.rep _ h.height_lt hs

theorem act_liveCounted (hs : Sound s o) (ready : s.Ready a) (hev : Evolved env s a o o')
    (hs' : Sound (s.act env a) o') (hroom : s.evicts a = false) (htie : s.strays a = false)
    (h : Tree.IfAny (Tree.All (Tree.LiveCounted env.counter s.points)) o) :
    Tree.IfAny (Tree.All (Tree.LiveCounted env.counter (s.act env a).points)) o' := by
  obtain ⟨window, free, hring⟩ := hs.ring
  cases hev with
  | rejected x o hx =>
    rw [act_rejected env hx]
    exact h
  | first x t' hx built =>
    rw [act_accepted env hx]
    exact built.liveCounted (List.forall_mem_singleton.mpr (acquire_self_live x hring))
  | inserted x t t' hx ins =>
    have stamps := hs'.noWrap.stamps
    rw [act_accepted env hx] at stamps ⊢
    have hfull : s.points.live ≠ s.points.capacity := by simpa [evicts, hx] using hroom
    refine ins.liveCounted (acquire_self_live x hring) ?_
    exact Tree.liveCounted_congr h
      (Tree.acquire_valid_of_room hring x stamps (Holds.stamped hs.reads) hfull)
  | tombstoned i t =>
    have holds : Holds s t := hs.reads
    have hnew := Tree.liveCounted_tombstone h holds.placed holds.nodup
      ((holds.complete i).mp ready) (tieFree_of_strays holds htie)
    exact hnew
  | missing rg => trivial
  | discounted rg t t' hd =>
    exact hd.liveCounted h (deleteRegion_valid rg hs hs'.noWrap)
  | idleFull => trivial
  | idle => trivial
  | sweptFull t t' swept =>
    have hpts : (s.act env .sweepFull).points = s.points := sweepFull_points env s
    rw [hpts]
    exact swept.liveCounted h
  | swept called t t' swept =>
    have hpts : (s.act env .sweep).points = s.points := sweep_points env s
    rw [hpts]
    exact swept.liveCounted h
  | emptied o => trivial
  | rebuilt o window t' hlive built =>
    have hpts : (s.act env .rebuildAll).points = s.points := rebuildAll_points env s
    rw [hpts]
    exact built.liveCounted (fun i hi => (hlive i).mp hi)

omit [NeZero Dim] in
theorem Sound.size_eq {t : Tree Dim K} (h : Sound s (some t)) :
    (t.validIn s.points).length = s.size := by
  obtain ⟨window, free, hring⟩ := h.ring
  have holds : Holds s t := h.reads
  have hperm : (t.validIn s.points).Perm window :=
    (List.perm_ext_iff_of_nodup holds.nodup hring.window_nodup).mpr
      (fun i => (holds.complete i).symm.trans (hring.isLive_iff i))
  rw [hperm.length_eq, ← hring.live]
  rfl

omit [NeZero Dim] in
theorem Sound.size_lt (h : Sound s o) : s.size < 2 ^ 32 := by
  obtain ⟨window, free, hring⟩ := h.ring
  have hlen := hring.length_add
  have hsmall := hring.small
  have hlive := hring.live
  simp only [size, PointStore.size]
  omega

variable [IsStrictOrderedRing K]

/-- As long as no insertion evicts and no tombstone descent strays, every reachable
node counts the valid entries below it, and the root counts `size()`. -/
theorem liveCounts_agree (hB : 2 * cfg.leafBucketSize ≤ 65535)
    (h : ReachableWhen env cfg (fun s a => s.evicts a = false ∧ s.strays a = false) s)
    (hroot : s.root ≠ invalid) :
    (∀ d i, s.pools.Below s.root d i → (s.pools.node i).subtreeLiveCount =
        (collectLiveIndicesInSubtree s.points s.pools.nodes.length s.pools i).length) ∧
      (s.pools.node s.root).subtreeLiveCount = s.size := by
  obtain ⟨o, hs, hcount⟩ := h.invariant
    (P := fun s o => Tree.IfAny (Tree.All (Tree.LiveCounted env.counter s.points)) o) hB
    (fun _ _ _ => trivial)
    (fun _ _ _ _ hs ready hev hs' hok hp => act_liveCounted hs ready hev hs' hok.1 hok.2 hp)
  cases o with
  | none => exact absurd hs.reads.root hroot
  | some t =>
    have holds : Holds s t := hs.reads
    have hlt : (t.validIn s.points).length < 2 ^ 32 := hs.size_eq ▸ hs.size_lt
    have node : ∀ d i, s.pools.Below s.root d i → (s.pools.node i).subtreeLiveCount =
        (collectLiveIndicesInSubtree s.points s.pools.nodes.length s.pools i).length := by
      intro d i hi
      rw [← holds.root] at hi
      obtain ⟨u, hsub, hu, -, hnode, hcollect⟩ :=
        holds.rep.below_counts s.points hcount hi
      have hle := (hsub.validIn_sublist s.points).length_le
      rw [hnode, Tree.live_header, hu.root, hcollect]
      exact Counter.wrap_of_fits _ (by omega) (by omega)
    refine ⟨node, ?_⟩
    rw [node 0 s.root (.refl _), ← holds.root,
      collect_eq s.points holds.rep _ holds.height_lt, hs.size_eq]

end

def overfullRun : KDTreeImpl 2 ℚ :=
  run wordEnv (start (plane 2 (1 / 4))) [.insert [![0, 0], ![8, 0], ![12, 0]]]

/-- The eviction is not counted. -/
theorem liveCount_evicted_plane :
    Reachable wordEnv (plane 2 (1 / 4)) overfullRun ∧ overfullRun.root = 0 ∧
      (overfullRun.pools.node 0).subtreeLiveCount = 3 ∧ overfullRun.size = 2 :=
  ⟨reachable_run (plane_accepted (by decide) (by norm_num)) (by decide +kernel),
    by decide +kernel, by decide +kernel, by decide +kernel⟩

def roomyRun : KDTreeImpl 2 ℚ :=
  run wordEnv (start (plane 4 (1 / 4))) [.insert [![0, 0], ![8, 0], ![12, 0]], .remove [![8, 0]]]

theorem liveCounts_agree_plane :
    (roomyRun.pools.node roomyRun.root).subtreeLiveCount = roomyRun.size :=
  have hrun : ReachableWhen wordEnv (plane 4 (1 / 4))
      (fun s a => s.evicts a = false ∧ s.strays a = false) roomyRun :=
    reachableWhen_run (fun s a (h : (!s.evicts a && !s.strays a) = true) => by simpa using h)
      (plane_accepted (by decide) (by norm_num)) (by decide +kernel)
  (liveCounts_agree (by decide) hrun (by decide +kernel)).2

end KDTreeImpl
end Copse

import Copse.KDTreePartition
import Copse.KDTreeViews
import Copse.TombstoneDescent

set_option autoImplicit false

namespace Copse
open FramedStore PointStore TreeBuilder

namespace Tree
variable {Dim : ℕ} {K : Type*}

/-- `t'` is `t` with its subtree `u` replaced by `u'`. -/
inductive Grafted (u u' : Tree Dim K) : Tree Dim K → Tree Dim K → Prop where
  | here : Grafted u u' u u'
  | left (id : ℕ) (live total : ℤ) (dim : Fin Dim) (split : K) {left left' right : Tree Dim K}
      (h : Grafted u u' left left') :
    Grafted u u' (node id live total dim split left right)
      (node id live total dim split left' right)
  | right (id : ℕ) (live total : ℤ) (dim : Fin Dim) (split : K) {left right right' : Tree Dim K}
      (h : Grafted u u' right right') :
    Grafted u u' (node id live total dim split left right)
      (node id live total dim split left right')

section
variable {p p' : Pools Dim K} {t t' u u' : Tree Dim K} {d : ℕ}

theorem Sub.grafted (h : t.Sub d u) (u' : Tree Dim K) : ∃ t', Grafted u u' t t' := by
  induction h with
  | refl t => exact ⟨u', .here⟩
  | left id live total dim split _ ih =>
    obtain ⟨left', hg⟩ := ih
    exact ⟨_, .left id live total dim split hg⟩
  | right id live total dim split _ ih =>
    obtain ⟨right', hg⟩ := ih
    exact ⟨_, .right id live total dim split hg⟩

theorem Grafted.sub (h : Grafted u u' t t') : ∃ d, t'.Sub d u' := by
  induction h with
  | here => exact ⟨0, .refl u'⟩
  | left id live total dim split _ ih =>
    obtain ⟨d, hs⟩ := ih
    exact ⟨d + 1, .left id live total dim split hs⟩
  | right id live total dim split _ ih =>
    obtain ⟨d, hs⟩ := ih
    exact ⟨d + 1, .right id live total dim split hs⟩

theorem Grafted.update (h : Grafted u u' t t') (ht : t.Rep p) (hup : u.Update p p' u') :
    t.Update p p' t' := by
  induction h with
  | here => exact hup
  | left id live total dim split _ ih => exact ht.update_left (ih ht.left)
  | right id live total dim split _ ih => exact ht.update_right (ih ht.right)

variable [Field K] [LinearOrder K] {points : PointStore Dim K} {B : ℕ}

theorem Grafted.renewed (h : Grafted u u' t t') (hu : Renewed points B u u') :
    Renewed points B t t' := by
  induction h with
  | here => exact hu
  | left id live total dim split _ ih => exact ih.left id live total dim split _
  | right id live total dim split _ ih => exact ih.right id live total dim split _

end
end Tree

namespace Pools
variable {Dim : ℕ} {K : Type*} [Field K]

/-- Slot `pos.2` of the bucket of the leaf `pos.1`, which is below node `i`, holds `e`. -/
def EntryBelow (p : Pools Dim K) (i : ℕ) (pos : ℕ × ℕ) (e : BucketEntry) : Prop :=
  (∃ d, p.Below i d pos.1) ∧ ∃ offset size cap bboxIdx,
    (p.node pos.1).body = .leaf offset size cap bboxIdx ∧ pos.2 < size ∧
      p.leafBuckets.data[offset + pos.2]? = some e

theorem exists_entryBelow {p : Pools Dim K} {t : Tree Dim K} (h : t.Rep p) {e : BucketEntry} :
    (∃ pos, p.EntryBelow t.id pos e) ↔ e ∈ t.entries := by
  constructor
  · rintro ⟨pos, hpos⟩
    exact (h.at_iff.mpr hpos).mem
  · intro he
    obtain ⟨pos, hpos⟩ := Tree.exists_at he
    exact ⟨pos, h.at_iff.mp hpos⟩

end Pools

namespace TreeBuilder
variable {Dim : ℕ} [NeZero Dim] {K : Type*} [Field K] [LinearOrder K]
variable {points : PointStore Dim K} {c : Counter} {B : ℕ} {p : Pools Dim K} {t t' : Tree Dim K}

theorem rebuildSubtreeInPlace_read (env : Env K) (hpos : 0 < B) (hB : 2 * B < 2 ^ 16)
    (h : t.Rep p) (fit : (rebuildSubtreeInPlace env points B p t.id).Fit) {a : Addr}
    (ha : a ≠ .node t.id) (hp : p.read a ≠ none) :
    (rebuildSubtreeInPlace env points B p t.id).read a = p.read a := by
  simp only [rebuildSubtreeInPlace] at fit ⊢
  have fit' := fit.of_grown (Pools.setNode_grown _ _ _)
  obtain ⟨u, -, -, app⟩ := buildRecursive_spec hpos hB _ p _ le_rfl fit'
  rw [Tree.read_setNode (h.id_lt.trans_le (buildRecursive_grown _ p _).nodes), if_neg ha]
  exact app.framed.keep a (Set.notMem_empty a) hp

omit [NeZero Dim] [LinearOrder K] in
theorem stamp_of_valid {e : BucketEntry} (h : points.valid e = true) :
    stamp points e.index = e := by
  rw [stamp, ((points.valid_iff e).mp h).1]

omit [NeZero Dim] in
theorem Rebuilt.entries_perm (h : Rebuilt c points B t t') :
    t'.entries.Perm (t.entries.filter points.valid) := by
  have hstamps : (t.validIn points).map (stamp points) = t.entries.filter points.valid := by
    rw [Tree.validIn, List.map_map]
    refine (List.map_congr_left (fun e he => ?_)).trans (List.map_id _)
    exact stamp_of_valid (List.mem_filter.mp he).2
  rw [← hstamps]
  exact h.built.entries_perm

variable {b : TreeBuilder K} {visit : ℕ → Bool}

/-- A sweep comes to each of its rebuilds with a tree that may stand for the one it started from,
and rebuilds a subtree of it. -/
theorem sweepRebuilds_renewed (hpos : 0 < b.leafBucketSize) (hB : 2 * b.leafBucketSize < 2 ^ 16)
    (h : t.Rep p) (hs : t.Shape b.leafBucketSize) (fuel : ℕ) (hfuel : t.height < fuel)
    (fit : (b.sweep points visit fuel p t.id).Fit) :
    ∀ m ∈ b.sweepRebuilds points visit fuel p t.id, ∃ t', t.Update p m.1 t' ∧
      t.Renewed points b.leafBucketSize t' ∧ ∃ d u, t'.Sub d u ∧ u.id = m.2 := by
  induction fuel generalizing p t with
  | zero => omega
  | succ fuel ih =>
    have hvalid := h.id_valid (fit.of_grown (sweep_grown _ _ _))
    have hvio := isViolator_eq b h
    intro m hm
    cases t with
    | leaf id live total offset cap bboxIdx es bbox =>
      rw [Tree.id_leaf] at hvalid hm
      rw [sweepRebuilds_leaf fuel hvalid h.leaf_body, if_neg (entries_le hs)] at hm
      cases hm
    | node id live total dim split left right =>
      have hbody := h.node_body
      simp only [Tree.id_node] at hvalid hvio fit hm
      simp only [Tree.height] at hfuel
      rw [sweep_internal fuel hvalid hbody, hvio] at fit
      rw [sweepRebuilds_internal fuel hvalid hbody, hvio] at hm
      cases hbefore : b.violates (.node id live total dim split left right) with
      | true =>
        rw [hbefore, if_pos rfl, List.mem_singleton] at hm
        subst hm
        exact ⟨_, .refl h, .refl _ _ _, 0, _, .refl _, rfl⟩
      | false =>
        simp only [hbefore, Bool.false_eq_true, ↓reduceIte] at fit hm
        have fit₂ := fit.of_grown (sweepAgain_grown _ _)
        have fit₁ := fit₂.of_grown (sweepChild_grown _ _ _)
        obtain ⟨left', hsl, hul⟩ := sweepChild_spec hpos hB h.left hs.1 fuel (by omega) fit₁
        have hup := h.update_left hul
        have hnew := hsl.renewed.left id live total dim split right
        obtain ⟨right', hsr, hur⟩ :=
          sweepChild_spec hpos hB hup.rep.right hs.2 fuel (by omega) fit₂
        rcases List.mem_append.mp hm with hm | hm
        · rcases List.mem_append.mp hm with hm | hm
          · -- on the way through the left child the right one is untouched
            split_ifs at hm with hv
            · rw [sweepChild, if_pos hv] at fit₁
              obtain ⟨t', hut, hren, d, u, hsub, hu⟩ :=
                ih h.left hs.1 (by omega) fit₁ m hm
              exact ⟨_, h.update_left hut, hren.left id live total dim split right, d + 1, u,
                .left id live total dim split hsub, hu⟩
            · cases hm
          · split_ifs at hm with hv
            · rw [sweepChild, if_pos hv] at fit₂
              obtain ⟨t', hut, hren, d, u, hsub, hu⟩ :=
                ih hup.rep.right hs.2 (by omega) fit₂ m hm
              exact ⟨_, hup.trans (hup.rep.update_right hut),
                hnew.trans (hren.right id live total dim split left'), d + 1, u,
                .right id live total dim split hsub, hu⟩
            · cases hm
        · split_ifs at hm
          · rw [List.mem_singleton] at hm
            subst hm
            exact ⟨_, hup.trans (hup.rep.update_right hur),
              hnew.trans (hsr.renewed.right id live total dim split left'), 0, _,
              .refl _, rfl⟩
          · cases hm

end TreeBuilder

namespace KDTreeImpl
variable {Dim : ℕ} [NeZero Dim] {K : Type*} [Field K] [LinearOrder K]

def rebuildSubtreeInPlace (env : Env K) (s : KDTreeImpl Dim K) (scapegoat : ℕ) :
    KDTreeImpl Dim K :=
  { s with pools :=
    TreeBuilder.rebuildSubtreeInPlace env s.points s.cfg.leafBucketSize s.pools scapegoat }

/-- The rebuilds of a sweep that enters the children in `visit`, each with the state that the sweep
has made by then and its node. -/
def rebuildsOf (env : Env K) (s : KDTreeImpl Dim K) (visit : ℕ → Bool) :
    List (KDTreeImpl Dim K × ℕ) :=
  ((s.builder env).sweepRebuilds s.points visit s.pools.nodes.length s.pools s.root).map
    (fun m => ({ s with pools := m.1 }, m.2))

/-- All that was there before stays, but for node `i` and the stale entries below it. -/
structure RebuiltAt (s s' : KDTreeImpl Dim K) (i : ℕ) : Prop where
  points : s'.points = s.points
  rootBBox : s'.rootBBox = s.rootBBox
  nodes : ∀ j < s.pools.nodes.length, j ≠ i → s'.pools.nodes[j]? = s.pools.nodes[j]?
  slots : ∀ j < s.pools.leafBuckets.data.length,
    s'.pools.leafBuckets.data[j]? = s.pools.leafBuckets.data[j]?
  boxes : ∀ j < s.pools.leafBBoxes.length, s'.pools.leafBBoxes[j]? = s.pools.leafBBoxes[j]?
  entries : ∀ e, (∃ pos, s'.pools.EntryBelow i pos e) ↔
    (∃ pos, s.pools.EntryBelow i pos e) ∧ s.points.valid e = true
  once : ∀ {pos pos' : ℕ × ℕ} {e e' : BucketEntry}, s'.pools.EntryBelow i pos e →
    s'.pools.EntryBelow i pos' e' → e.index = e'.index → pos = pos'
  left : ∀ {j d n l r : ℕ} {dim : Fin Dim} {split : K} {pos : ℕ × ℕ} {e : BucketEntry},
    s'.pools.Below s'.root d j → (s'.pools.node j).body = .internal dim split l r →
    s'.pools.Below l n i → s'.pools.EntryBelow i pos e → s'.points.point e.index dim ≤ split
  right : ∀ {j d n l r : ℕ} {dim : Fin Dim} {split : K} {pos : ℕ × ℕ} {e : BucketEntry},
    s'.pools.Below s'.root d j → (s'.pools.node j).body = .internal dim split l r →
    s'.pools.Below r n i → s'.pools.EntryBelow i pos e → split ≤ s'.points.point e.index dim

section
variable {env : Env K} {cfg : Config K} {s u : KDTreeImpl Dim K} {o : Option (Tree Dim K)}

theorem Sound.rebuiltAt {t : Tree Dim K} (h : Sound s (some t)) {i d : ℕ}
    (hi : s.pools.Below s.root d i) (hn : (s.rebuildSubtreeInPlace env i).NoWrap) :
    (∃ t', Sound (s.rebuildSubtreeInPlace env i) (some t')) ∧
      RebuiltAt s (s.rebuildSubtreeInPlace env i) i := by
  have holds : Holds s t := h.reads
  obtain ⟨v, hs, rfl⟩ := holds.rep.below_iff.mp (holds.root ▸ hi)
  have hv := hs.rep holds.rep
  obtain ⟨v', rebuilt, hup⟩ := rebuildSubtreeInPlace_spec env h.pos h.small hv hn.pools
  obtain ⟨t', hg⟩ := hs.grafted v'
  have renewed := rebuilt.renewed (b := s.builder env)
  have hperm := renewed.perm
  have sound : Sound (s.rebuildSubtreeInPlace env v.id) (some t') :=
    h.renewed (hg.update holds.rep hup) (hg.renewed renewed) s.modifiedNodes hn
  have holds' : Holds (s.rebuildSubtreeInPlace env v.id) t' := sound.reads
  obtain ⟨m, hsub⟩ := hg.sub
  have hm := holds'.rep.below_iff.mpr ⟨v', hsub, hup.id_eq⟩
  rw [holds'.root] at hm
  have read : ∀ {a : Addr}, a ≠ .node v.id → s.pools.read a ≠ none →
      (s.rebuildSubtreeInPlace env v.id).pools.read a = s.pools.read a :=
    fun ha hp => rebuildSubtreeInPlace_read env h.pos h.small hv hn.pools ha hp
  have hentries : ∀ e, (∃ pos, (s.rebuildSubtreeInPlace env v.id).pools.EntryBelow v.id pos e) ↔
      (∃ pos, s.pools.EntryBelow v.id pos e) ∧ s.points.valid e = true := by
    intro e
    have hafter := Pools.exists_entryBelow hup.rep (e := e)
    rw [hup.id_eq] at hafter
    rw [Pools.exists_entryBelow hv]
    exact hafter.trans (rebuilt.entries_perm.mem_iff.trans List.mem_filter)
  have valid : ∀ {pos : ℕ × ℕ} {e : BucketEntry},
      (s.rebuildSubtreeInPlace env v.id).pools.EntryBelow v.id pos e → s.points.valid e = true :=
    fun he => ((hentries _).mp ⟨_, he⟩).2
  have entryAt : ∀ {pos : ℕ × ℕ} {e : BucketEntry},
      (s.rebuildSubtreeInPlace env v.id).pools.EntryBelow v.id pos e →
        (s.rebuildSubtreeInPlace env v.id).EntryAt pos e := by
    rintro pos e ⟨⟨n, hb⟩, hleaf⟩
    exact ⟨holds'.root_valid hn, ⟨m + n, hm.trans hb⟩, hleaf⟩
  refine ⟨⟨t', sound⟩, ?_⟩
  exact
    { points := rfl
      rootBBox := rfl
      nodes := fun j hj hne => Pools.read_node_eq (read (by simpa using hne)
        (Pools.read_node_ne_none.mpr hj))
      slots := fun j hj => Pools.read_slot_eq (read (by simp) (Pools.read_slot_ne_none.mpr hj))
      boxes := fun j hj => Pools.read_box_eq (read (by simp) (Pools.read_box_ne_none.mpr hj))
      entries := hentries
      once := by
        intro pos pos' e e' he he' heq
        have hd := hperm.nodup_iff.mpr ((hs.validIn_sublist s.points).nodup holds.nodup)
        have hat : v'.At pos e := hup.rep.at_iff.mpr (by rw [hup.id_eq]; exact he)
        have hat' : v'.At pos' e' := hup.rep.at_iff.mpr (by rw [hup.id_eq]; exact he')
        exact hat.unique hd hat' (valid he) (valid he') heq
      left := by
        intro j k n l r dim split pos e hj hbody hl he
        obtain ⟨n', hb⟩ := he.1
        exact sound.le_split hj hbody (hl.trans hb) (entryAt he) (valid he)
      right := by
        intro j k n l r dim split pos e hj hbody hr he
        obtain ⟨n', hb⟩ := he.1
        exact sound.split_le hj hbody (hr.trans hb) (entryAt he) (valid he) }

theorem Sound.rebuildsOf (h : Sound s o) {visit : ℕ → Bool}
    (fit : ((s.builder env).sweep s.points visit s.pools.nodes.length s.pools s.root).Fit) :
    ∀ m ∈ s.rebuildsOf env visit, (∃ t', Sound m.1 (some t')) ∧
      (∃ d, m.1.pools.Below m.1.root d m.2) ∧ (m.1.rebuildSubtreeInPlace env m.2).NoWrap := by
  intro m hm
  obtain ⟨q, hq, rfl⟩ := List.mem_map.mp hm
  cases o with
  | none =>
    have hroot : s.root = invalid := h.reads.root
    rw [hroot, sweepRebuilds_invalid] at hq
    cases hq
  | some t =>
    have holds : Holds s t := h.reads
    have fit' := fit.of_grown (sweepRebuilds_grown _ _ _ q hq)
    rw [← holds.root] at fit hq
    obtain ⟨t', hup, hnew, d, u, hs, hu⟩ := sweepRebuilds_renewed (b := s.builder env) h.pos
      h.small holds.rep holds.shape _ holds.height_lt fit q hq
    have hn : ({ s with pools := q.1 } : KDTreeImpl Dim K).NoWrap :=
      ⟨h.noWrap.capacity, h.noWrap.stamps, fit'.of_grown (rebuildAt_grown q.1 q.2)⟩
    have sound := h.renewed hup hnew s.modifiedNodes hn
    refine ⟨⟨t', sound⟩, ⟨d, ?_⟩, ⟨hn.capacity, hn.stamps, fit'⟩⟩
    have hbelow := hup.rep.below_iff.mpr ⟨u, hs, hu⟩
    rwa [hup.id_eq, holds.root] at hbelow

theorem Sound.swept (h : Sound s o) (hn : (s.maybePartialRebuild env).NoWrap) :
    ∃ o', Sound (s.maybePartialRebuild env) o' := by
  obtain ⟨o', -, hs⟩ := act_sound env .sweep h trivial hn
  exact ⟨o', hs⟩

theorem Sound.sweptFull (h : Sound s o) (hn : (s.maybePartialRebuildFull env).NoWrap) :
    ∃ o', Sound (s.maybePartialRebuildFull env) o' := by
  obtain ⟨o', -, hs⟩ := act_sound env .sweepFull h trivial hn
  exact ⟨o', hs⟩

variable [IsStrictOrderedRing K]

omit [NeZero Dim] in
theorem Sound.sameView_of_points {o' : Option (Tree Dim K)} (h : Sound s o) (h' : Sound u o')
    (hpoints : u.points = s.points) : SameView env s u := by
  refine h.sameView h' ?_
  rw [hpoints]

/-- A rebuild in place changes one old node and drops the stale entries below it, wherever a sweep
makes it. Searches do not see it, nor do they see a sweep. -/
theorem rebuilds_transparent (hB : 2 * cfg.leafBucketSize ≤ 65535) (h : Reachable env cfg s)
    (hu : s.Amid env u) :
    (∀ i, (∃ d, u.root ≠ invalid ∧ u.pools.Below u.root d i) →
      (u.rebuildSubtreeInPlace env i).NoWrap →
        RebuiltAt u (u.rebuildSubtreeInPlace env i) i ∧
          SameView env u (u.rebuildSubtreeInPlace env i)) ∧
    (∀ visit, ((u.builder env).sweep u.points visit u.pools.nodes.length u.pools u.root).Fit →
      ∀ m ∈ u.rebuildsOf env visit, (∃ d, m.1.pools.Below m.1.root d m.2) ∧
        RebuiltAt m.1 (m.1.rebuildSubtreeInPlace env m.2) m.2) ∧
    ((u.maybePartialRebuild env).NoWrap → SameView env u (u.maybePartialRebuild env)) ∧
    ((u.maybePartialRebuildFull env).NoWrap → SameView env u (u.maybePartialRebuildFull env)) := by
  obtain ⟨o, hs⟩ := h.sound hB
  obtain ⟨o', hsu⟩ := hs.amid hu
  refine ⟨?_, ?_, ?_, ?_⟩
  · rintro i ⟨d, hroot, hi⟩ hn
    cases o' with
    | none => exact absurd hsu.reads.root hroot
    | some t =>
      obtain ⟨⟨t', sound⟩, hreb⟩ := hsu.rebuiltAt hi hn
      exact ⟨hreb, hsu.sameView_of_points sound hreb.points⟩
  · intro visit fit m hm
    obtain ⟨⟨t, sound⟩, ⟨d, hd⟩, hn⟩ := hsu.rebuildsOf fit m hm
    exact ⟨⟨d, hd⟩, (sound.rebuiltAt hd hn).2⟩
  · intro hn
    obtain ⟨o₁, hs₁⟩ := hsu.swept hn
    exact hsu.sameView_of_points hs₁ (sweep_points env u)
  · intro hn
    obtain ⟨o₁, hs₁⟩ := hsu.sweptFull hn
    exact hsu.sameView_of_points hs₁ (sweepFull_points env u)

end

def quarteredRun : KDTreeImpl 2 ℚ :=
  run wordEnv (start (plane 5 (1 / 4))) [.insert [![0, 0], ![1, 0], ![2, 0], ![3, 0]], .rebuildAll]

def thinned : KDTreeImpl 2 ℚ := (removeLoop wordEnv quarteredRun [![0, 0]]).1

theorem thinned_amid : quarteredRun.Amid wordEnv thinned :=
  Or.inr ⟨.remove [![0, 0]], .sweep, noWrap_of_fits (by decide +kernel),
    List.mem_append_right _ (closing_mem .sweep (by decide +kernel))⟩

/-- Node 1 keeps one entry of two, and the sweep rebuilds the root. -/
theorem rebuilds_transparent_plane :
    RebuiltAt thinned (thinned.rebuildSubtreeInPlace wordEnv 1) 1 ∧
      (thinned.rebuildsOf wordEnv thinned.visits).map Prod.snd = [thinned.root] ∧
      (∀ m ∈ thinned.rebuildsOf wordEnv thinned.visits,
        RebuiltAt m.1 (m.1.rebuildSubtreeInPlace wordEnv m.2) m.2) ∧
      SameView wordEnv thinned (thinned.maybePartialRebuild wordEnv) := by
  have hrun : Reachable wordEnv (plane 5 (1 / 4)) quarteredRun :=
    reachable_run (plane_accepted (by decide) (by norm_num)) (by decide +kernel)
  have hbody : (thinned.pools.node thinned.root).body = .internal 0 2 1 4 := by decide +kernel
  have hbelow : thinned.pools.Below thinned.root 1 1 := .left hbody (.refl 1)
  have hroot : thinned.root ≠ invalid := by decide +kernel
  have fit : ((thinned.builder wordEnv).sweep thinned.points thinned.visits
      thinned.pools.nodes.length thinned.pools thinned.root).Fit :=
    ⟨by decide +kernel, by decide +kernel, by decide +kernel⟩
  obtain ⟨hnode, hrebuilds, hsweep, -⟩ := rebuilds_transparent (by decide) hrun thinned_amid
  exact ⟨(hnode 1 ⟨1, hroot, hbelow⟩ (noWrap_of_fits (by decide +kernel))).1, by decide +kernel,
    fun m hm => (hrebuilds thinned.visits fit m hm).2,
    hsweep (noWrap_of_fits (by decide +kernel))⟩

end KDTreeImpl
end Copse

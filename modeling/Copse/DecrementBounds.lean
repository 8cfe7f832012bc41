import Copse.LiveCounts

set_option autoImplicit false

namespace Copse
open PointStore TreeBuilder TransitionRuns

namespace Tree
variable {Dim : ℕ} {K : Type*} [Field K] [LinearOrder K]

def childTotals : Tree Dim K → ℤ
  | leaf .. => 0
  | node _ _ _ _ _ left right => left.total + right.total

/-- The counters bound what they count, and the total bounds those of the children. -/
structure Covered (points : PointStore Dim K) (t : Tree Dim K) : Prop where
  valid : ((t.validIn points).length : ℤ) ≤ t.live
  live : t.live ≤ t.total
  children : t.childTotals ≤ t.total

section
variable {c : Counter} {points points' : PointStore Dim K} {t t' : Tree Dim K}

section
omit [LinearOrder K]

theorem Covered.total_nonneg (h : t.Covered points) : 0 ≤ t.total := by
  have hvalid := h.valid
  have hlive := h.live
  omega

theorem All.child_total_le {id : ℕ} {live total : ℤ} {dim : Fin Dim} {split : K}
    {left right : Tree Dim K} (h : (node id live total dim split left right).All (Covered points)) :
    left.total ≤ total ∧ right.total ≤ total := by
  have hsum : left.total + right.total ≤ total := h.root.children
  have hl := h.2.1.root.total_nonneg
  have hr := h.2.2.root.total_nonneg
  omega

theorem covered_fewer (h : t.All (Covered points))
    (hv : ∀ e ∈ t.entries, points'.valid e = true → points.valid e = true) :
    t.All (Covered points') := by
  refine h.imp (fun d u hs hu => ⟨?_, hu.live, hu.children⟩)
  have hle : (u.validIn points').length ≤ (u.validIn points).length := by
    rw [validIn_length, validIn_length]
    exact List.countP_mono_left (fun e he => hv e (hs.entries_sublist.subset he))
  have hvalid := hu.valid
  omega

theorem covered_release (i : ℕ) (h : t.All (Covered points)) :
    t.All (Covered (points.release i)) :=
  covered_fewer h (fun e he hv => (fewer_release points i t e he hv).1)

end

omit [Field K] in
theorem total_tombstone (x : Point Dim K) (t : Tree Dim K) : (t.tombstone c x).total = t.total := by
  rw [← total_dropLive, dropLive_tombstone, total_dropLive]

omit [LinearOrder K] in
theorem Covered.pred {i : ℕ} (h : t.Covered points) (hd : (t.validIn points).Nodup)
    (hi : i ∈ t.validIn points) (hlt : t.total < 2 ^ 32) (he : t'.entries = t.entries)
    (hlive : t'.live = c.wrap (t.live + -1)) (htotal : t'.total = t.total)
    (hchild : t'.childTotals = t.childTotals) : t'.Covered (points.release i) := by
  have hlen := validIn_release_length hd hi
  obtain ⟨hvalid, hle, hsum⟩ := h
  have hwrap : t'.live = t.live + -1 := by
    rw [hlive]
    exact c.wrap_of_fits (by omega) (by omega)
  refine ⟨?_, by omega, by omega⟩
  rw [validIn_eq_of_entries he]
  omega

theorem covered_tombstone {i : ℕ} (h : t.All (Covered points)) (hlt : t.total < 2 ^ 32)
    (hp : t.Placed points) (hd : (t.validIn points).Nodup) (hi : i ∈ t.validIn points)
    (hfree : t.TieFree points i) :
    (t.tombstone c (points.point i)).All (Covered (points.release i)) := by
  induction t with
  | leaf id live total offset cap bboxIdx es bbox =>
    have hroot : Covered points (leaf id live total offset cap bboxIdx es bbox) := h
    exact hroot.pred hd hi hlt rfl rfl rfl rfl
  | node id live total dim split left right ihl ihr =>
    obtain ⟨hle, hge, hpl, hpr⟩ := hp
    obtain ⟨hne, hfl, hfr⟩ := hfree
    have hltl : left.total < 2 ^ 32 := h.child_total_le.1.trans_lt hlt
    have hltr : right.total < 2 ^ 32 := h.child_total_le.2.trans_lt hlt
    obtain ⟨hroot, hl, hr⟩ := h
    have hboth := hd
    rw [validIn_node, List.nodup_append] at hboth
    obtain ⟨hdl, hdr, hdis⟩ := hboth
    have hmem := hi
    rw [validIn_node, List.mem_append] at hmem
    by_cases hil : i ∈ left.validIn points
    · have hside : points.point i dim < split := lt_of_le_of_ne (hle i hil) (hne hil)
      simp only [tombstone, hside, ↓reduceIte]
      refine ⟨hroot.pred hd hi hlt ?_ rfl rfl ?_, ihl hl hltl hpl hdl hil hfl, covered_release i hr⟩
      · exact congrArg (· ++ right.entries) (entries_of_dropLive (dropLive_tombstone c _ left))
      · exact congrArg (· + right.total) (total_tombstone _ left)
    · have hir := hmem.resolve_left hil
      have hside : ¬ points.point i dim < split := not_lt.mpr (hge i hir)
      simp only [tombstone, hside, ↓reduceIte]
      refine ⟨hroot.pred hd hi hlt ?_ rfl rfl ?_, covered_release i hl, ihr hr hltr hpr hdr hir hfr⟩
      · exact congrArg (left.entries ++ ·) (entries_of_dropLive (dropLive_tombstone c _ right))
      · exact congrArg (left.total + ·) (total_tombstone _ right)

omit [LinearOrder K]

theorem countP_gone_le (points : PointStore Dim K) (hit : Point Dim K → Bool) (t : Tree Dim K) :
    t.entries.countP (gone points hit) ≤ (t.validIn points).length := by
  rw [validIn_length]
  exact List.countP_mono_left (fun e _ he => (Bool.and_eq_true_iff.mp he).1)

theorem Discounted.covered {hit : Point Dim K → Bool} (h : t.Discounted c (gone points hit) t')
    (hc : t.All (Covered points)) (hlt : t.total < 2 ^ 32)
    (hv : ∀ e ∈ t.entries, points'.valid e = (points.valid e && !gone points hit e)) :
    t'.All (Covered points') ∧ t'.total = t.total := by
  have hroot : ∀ {u u' : Tree Dim K}, u.Covered points → u.total < 2 ^ 32 →
      (∀ e ∈ u.entries, points'.valid e = (points.valid e && !gone points hit e)) →
      u'.entries = u.entries → u'.total = u.total → u'.childTotals = u.childTotals →
      u'.live = c.wrap (u.live + -(u.entries.countP (gone points hit) : ℤ)) →
      u'.Covered points' := by
    intro u u' hu hul hvu he htotal hchild hlive
    obtain ⟨hvalid, hle, hsum⟩ := hu
    have hcount := countP_gone hvu
    have hgone := countP_gone_le points hit u
    rw [validIn_length] at hvalid hgone
    have hwrap : u'.live = u.live + -(u.entries.countP (gone points hit) : ℤ) := by
      rw [hlive]
      exact c.wrap_of_fits (by omega) (by omega)
    refine ⟨?_, by omega, by omega⟩
    rw [validIn_length, he]
    omega
  induction h with
  | untouched t none =>
    refine ⟨covered_fewer hc (fun e he hve => ?_), rfl⟩
    rw [hv e he, Bool.and_eq_true] at hve
    exact hve.1
  | leaf id live total offset cap bboxIdx es bbox =>
    exact ⟨hroot hc.root hlt hv rfl rfl rfl rfl, rfl⟩
  | node id live total dim split left right left' right' hl hr ihl ihr =>
    have hltl : left.total < 2 ^ 32 := hc.child_total_le.1.trans_lt hlt
    have hltr : right.total < 2 ^ 32 := hc.child_total_le.2.trans_lt hlt
    obtain ⟨hcl, htl⟩ := ihl hc.2.1 hltl (fun e he => hv e (List.mem_append_left _ he))
    obtain ⟨hcr, htr⟩ := ihr hc.2.2 hltr (fun e he => hv e (List.mem_append_right _ he))
    refine ⟨⟨hroot hc.root hlt hv ?_ rfl ?_ ?_, hcl, hcr⟩, rfl⟩
    · exact congrArg₂ (· ++ ·) (entries_of_dropLive hl.dropLive) (entries_of_dropLive hr.dropLive)
    · exact congrArg₂ (· + ·) htl htr
    · change c.wrap (live + _) = _
      rw [← List.countP_append]
      rfl

end
end Tree

namespace TreeBuilder
variable {Dim : ℕ} [NeZero Dim] {K : Type*} [Field K] [LinearOrder K]
omit [NeZero Dim]

section
variable {c : Counter} {B : ℕ} {b : TreeBuilder K} {points : PointStore Dim K} {index : ℕ}
variable {t t' : Tree Dim K}

theorem Built.total_eq {indices : List ℕ} (h : Built c points B indices t)
    (hlt : indices.length < 2 ^ 32) : t.total = indices.length := by
  rw [h.counts.2]
  exact c.wrap_of_fits (by omega) (by omega)

theorem Built.childTotals_le {indices : List ℕ} (h : Built c points B indices t)
    (hlt : indices.length < 2 ^ 32) : t.childTotals ≤ indices.length := by
  cases h with
  | leaf => exact Int.natCast_nonneg _
  | node id dim split _ lo hi left right large perm half below above pivot hl hr =>
    have hlen := perm.length_eq
    rw [List.length_append] at hlen
    have hlo := hl.total_eq (by omega)
    have hhi := hr.total_eq (by omega)
    simp only [Tree.childTotals]
    omega

theorem Built.covered {indices : List ℕ} (h : Built c points B indices t)
    (hlive : ∀ i ∈ indices, points.isLive i = true) (hlt : indices.length < 2 ^ 32) :
    t.All (Tree.Covered points) := by
  refine h.all (fun l u hu hle hmem => ?_)
  have hperm := hu.validIn_perm (fun i hi => hlive i (hmem i hi))
  have htotal := hu.total_eq (by omega)
  have hchild := hu.childTotals_le (by omega)
  have hcount : u.live = u.total := hu.counts.1.trans hu.counts.2.symm
  refine ⟨?_, hcount.le, by omega⟩
  rw [hperm.length_eq]
  omega

theorem Rebuilt.covered {n : ℤ} (h : Rebuilt c points B t t')
    (hvalid : ((t.validIn points).length : ℤ) ≤ n) (hlt : n < 2 ^ 32) :
    t'.All (Tree.Covered points) ∧ t'.total ≤ n := by
  have htotal := h.built.total_eq (by omega)
  exact ⟨h.built.covered (fun _ hi => Tree.live_of_mem_validIn hi) (by omega), by omega⟩

theorem Inserted.covered (h : Inserted b points index t t') (hlive : points.isLive index = true)
    (hc : t.All (Tree.Covered points)) (hlt : t.total + 1 < 2 ^ 32) :
    t'.All (Tree.Covered points) ∧ t'.total ≤ t.total + 1 := by
  -- one entry and one count more at a node of the path
  have hroot : ∀ {u u' : Tree Dim K}, Inserted b points index u u' → u.Covered points →
      u.total + 1 < 2 ^ 32 → u'.childTotals ≤ u.childTotals + 1 →
      u'.live = b.env.counter.wrap (u.live + 1) → u'.total = b.env.counter.wrap (u.total + 1) →
      u'.Covered points ∧ u'.total ≤ u.total + 1 := by
    intro u u' hu hcu hul hchild hulive hutotal
    have hlen := (hu.validIn_perm hlive).length_eq
    rw [List.length_cons] at hlen
    obtain ⟨hvalid, hle, hsum⟩ := hcu
    have hwlive : u'.live = u.live + 1 := by
      rw [hulive]
      exact Counter.wrap_of_fits _ (by omega) (by omega)
    have hwtotal : u'.total = u.total + 1 := by
      rw [hutotal]
      exact Counter.wrap_of_fits _ (by omega) (by omega)
    exact ⟨⟨by omega, by omega, by omega⟩, by omega⟩
  induction h with
  | push id live total offset cap bboxIdx es bbox room =>
    exact hroot (.push id live total offset cap bboxIdx es bbox room) hc.root hlt
      (by simp [Tree.childTotals]) rfl rfl
  | split id live total offset cap bboxIdx es bbox t' full rebuilt =>
    refine rebuilt.covered ?_ hlt
    have hlen := (validIn_push hlive id live total offset cap bboxIdx es bbox).length_eq
    have hvalid := hc.root.valid.trans hc.root.live
    rw [Tree.validIn_leaf] at hlen hvalid ⊢
    rw [hlen, List.length_cons]
    push_cast
    exact add_le_add_left hvalid 1
  | left id live total dim split left right left' side inserted ih =>
    have hltl : left.total + 1 < 2 ^ 32 := by
      have hle := hc.child_total_le.1
      simp only [Tree.total] at hlt
      omega
    obtain ⟨hcl, htl⟩ := ih hc.2.1 hltl
    obtain ⟨hr, ht⟩ := hroot (.left id live total dim split left right left' side inserted) hc.root
      hlt (by simp only [Tree.childTotals]; omega) rfl rfl
    exact ⟨⟨hr, hcl, hc.2.2⟩, ht⟩
  | right id live total dim split left right right' side inserted ih =>
    have hltr : right.total + 1 < 2 ^ 32 := by
      have hle := hc.child_total_le.2
      simp only [Tree.total] at hlt
      omega
    obtain ⟨hcr, htr⟩ := ih hc.2.2 hltr
    obtain ⟨hr, ht⟩ := hroot (.right id live total dim split left right right' side inserted) hc.root
      hlt (by simp only [Tree.childTotals]; omega) rfl rfl
    exact ⟨⟨hr, hc.2.1, hcr⟩, ht⟩

theorem Swept.covered {visit : ℕ → Bool} {called : Bool} (h : Swept b points visit called t t')
    (hc : t.All (Tree.Covered points)) (hlt : t.total < 2 ^ 32) :
    t'.All (Tree.Covered points) ∧ t'.total ≤ t.total := by
  have hvalid := hc.root.valid.trans hc.root.live
  induction h with
  | skip t => exact ⟨hc, le_rfl⟩
  | leaf => exact ⟨hc, le_rfl⟩
  | rebuild t t' _ rebuilt => exact rebuilt.covered hvalid hlt
  | keep id live total dim split left right left' right' _ hl hr _ ihl ihr =>
    obtain ⟨hle, hre⟩ := hc.child_total_le
    obtain ⟨hcl, htl⟩ := ihl hc.2.1 (hle.trans_lt hlt) (hc.2.1.root.valid.trans hc.2.1.root.live)
    obtain ⟨hcr, htr⟩ := ihr hc.2.2 (hre.trans_lt hlt) (hc.2.2.root.valid.trans hc.2.2.root.live)
    obtain ⟨hroot, hlive, hsum⟩ := hc.root
    have hlen := (hl.renewed.perm.append hr.renewed.perm).length_eq
    refine ⟨⟨⟨?_, hlive, ?_⟩, hcl, hcr⟩, le_rfl⟩
    · rw [Tree.validIn_node, hlen, ← Tree.validIn_node]
      exact hroot
    · simp only [Tree.childTotals] at hsum ⊢
      exact (add_le_add htl htr).trans hsum
  | again id live total dim split left right left' right' t' _ hl hr _ rebuilt _ _ =>
    have hlen := (hl.renewed.perm.append hr.renewed.perm).length_eq
    refine rebuilt.covered ?_ hlt
    rwa [Tree.validIn_node, hlen, ← Tree.validIn_node]

end

def tombstoneDecrements (c : Counter) (point : Point Dim K) : ℕ → Pools Dim K → ℕ → List (ℤ × ℤ)
  | 0, _, _ => []
  | fuel + 1, p, nodeIdx =>
    let held := (p.node nodeIdx).subtreeLiveCount
    let p := p.modifyNode nodeIdx (TreeNode.addLive c (-1))
    (held, 1) ::
      match (p.node nodeIdx).body with
      | .leaf .. => []
      | .internal dim split left right =>
        tombstoneDecrements c point fuel p (if point dim < split then left else right)

def releaseDecrements (c : Counter) :
    ℕ → Pools Dim K → PointStore Dim K → ℕ → List (ℤ × ℤ)
  | 0, _, _, _ => []
  | fuel + 1, p, points, nodeIdx =>
    match (p.node nodeIdx).body with
    | .leaf offset size _ _ =>
      [((p.node nodeIdx).subtreeLiveCount,
        ((clearEntries (fun _ => true) (p.view offset size) points).2 : ℤ))]
    | .internal _ _ left right =>
      let l := releaseSubtree c fuel p points left
      let r := releaseSubtree c fuel l.pools l.points right
      releaseDecrements c fuel p points left ++ releaseDecrements c fuel l.pools l.points right ++
        [((r.pools.node nodeIdx).subtreeLiveCount, ((l.cleared + r.cleared : ℕ) : ℤ))]

def deleteDecrements (c : Counter) (rg : Region Dim K) :
    ℕ → Pools Dim K → PointStore Dim K → ℕ → BBox Dim K → List ℕ → List (ℤ × ℤ)
  | 0, _, _, _, _, _ => []
  | fuel + 1, p, points, nodeIdx, partition, modified =>
    if rg.keeps partition then []
    else if rg.clears partition then releaseDecrements c p.nodes.length p points nodeIdx
    else
      match (p.node nodeIdx).body with
      | .leaf offset size _ bboxIdx =>
        let leafBBox := p.bbox bboxIdx
        if rg.keeps leafBBox then []
        else if rg.clears leafBBox then releaseDecrements c p.nodes.length p points nodeIdx
        else
          [((p.node nodeIdx).subtreeLiveCount,
            ((clearEntries rg.hit (p.view offset size) points).2 : ℤ))]
      | .internal dim split left right =>
        let l := deleteRecurse c rg fuel p points left (partition.left dim split) modified
        let r := deleteRecurse c rg fuel l.pools l.points right (partition.right dim split)
          l.modified
        deleteDecrements c rg fuel p points left (partition.left dim split) modified ++
          deleteDecrements c rg fuel l.pools l.points right (partition.right dim split)
            l.modified ++
          [((r.pools.node nodeIdx).subtreeLiveCount, ((l.cleared + r.cleared : ℕ) : ℤ))]

section
variable {c : Counter} {points : PointStore Dim K} {p : Pools Dim K} {t : Tree Dim K}

theorem tombstoneDecrements_le {i : ℕ} (h : t.Rep p) (fuel : ℕ) (hc : t.All (Tree.Covered points))
    (hp : t.Placed points) (hi : i ∈ t.validIn points) (hfree : t.TieFree points i) :
    ∀ m ∈ tombstoneDecrements c (points.point i) fuel p t.id, m.2 ≤ m.1 := by
  have held : ∀ {q : Pools Dim K} {u : Tree Dim K}, u.Rep q → u.Covered points →
      i ∈ u.validIn points → 1 ≤ (q.node u.id).subtreeLiveCount := by
    intro q u hu hcu hiu
    have hpos := List.length_pos_of_mem hiu
    have hvalid := hcu.valid
    rw [hu.node_eq, Tree.live_header]
    omega
  induction t generalizing p fuel with
  | leaf id live total offset cap bboxIdx es bbox =>
    cases fuel with
    | zero => simp [tombstoneDecrements]
    | succ fuel =>
      have hup := h.update_addLive c (-1)
      simp only [Tree.addLive, Tree.withCounts, Tree.id_leaf] at hup
      simp only [tombstoneDecrements, Tree.id_leaf, hup.rep.leaf_body]
      exact List.forall_mem_singleton.mpr (held h hc hi)
  | node id live total dim split left right ihl ihr =>
    cases fuel with
    | zero => simp [tombstoneDecrements]
    | succ fuel =>
      have hup := h.update_addLive c (-1)
      simp only [Tree.addLive, Tree.withCounts, Tree.id_node] at hup
      simp only [tombstoneDecrements, Tree.id_node, hup.rep.node_body]
      refine List.forall_mem_cons.mpr ⟨held h hc.root hi, ?_⟩
      obtain ⟨hle, hge, hpl, hpr⟩ := hp
      obtain ⟨hne, hfl, hfr⟩ := hfree
      rw [Tree.validIn_node, List.mem_append] at hi
      by_cases hil : i ∈ left.validIn points
      · have hside : points.point i dim < split := lt_of_le_of_ne (hle i hil) (hne hil)
        simp only [hside, ↓reduceIte]
        exact ihl hup.rep.left fuel hc.2.1 hpl hil hfl
      · have hir := hi.resolve_left hil
        have hside : ¬ points.point i dim < split := not_lt.mpr (hge i hir)
        simp only [hside, ↓reduceIte]
        exact ihr hup.rep.right fuel hc.2.2 hpr hir hfr

section
omit [LinearOrder K]

theorem gone_le_held (hit : Point Dim K → Bool) (h : t.Rep p) (hc : t.Covered points) :
    (t.entries.countP (gone points hit) : ℤ) ≤ (p.node t.id).subtreeLiveCount := by
  have hgone := Tree.countP_gone_le points hit t
  have hvalid := hc.valid
  rw [h.node_eq, Tree.live_header]
  omega

theorem join_decrements {hit : Point Dim K → Bool} {id : ℕ} {live total : ℤ} {dim : Fin Dim}
    {split : K} {left right : Tree Dim K} {l r : Released Dim K} {logl logr : List (ℤ × ℤ)}
    (h : (Tree.node id live total dim split left right).Rep p)
    (hc : (Tree.node id live total dim split left right).All (Tree.Covered points))
    (hd : ((Tree.node id live total dim split left right).validIn points).Nodup)
    (hl : Erased c p points hit left l)
    (hr : right.Rep l.pools → Erased c l.pools l.points hit right r)
    (hlogl : ∀ m ∈ logl, m.2 ≤ m.1)
    (hlogr : right.Rep l.pools → right.All (Tree.Covered l.points) → ∀ m ∈ logr, m.2 ≤ m.1) :
    ∀ m ∈ logl ++ logr ++ [((r.pools.node id).subtreeLiveCount, ((l.cleared + r.cleared : ℕ) : ℤ))],
      m.2 ≤ m.1 := by
  obtain ⟨left', hdl, hul⟩ := hl.tree
  have hup := h.update_left hul
  have hrr := hup.rep.right
  obtain ⟨hpts, hcleared, right', hdr, hur⟩ := hr hrr
  have hup' := hup.trans (hup.rep.update_right hur)
  have hcr : right.All (Tree.Covered l.points) := by
    rw [hl.points_eq]
    exact Tree.covered_fewer hc.2.2
      (fun e he hv => (Tree.fewer_releaseAll points _ right e he hv).1)
  have hjoin := (Erased.node h hd hl hr).cleared_eq
  change l.cleared + r.cleared = _ at hjoin
  refine List.forall_mem_append.mpr ⟨List.forall_mem_append.mpr ⟨hlogl, hlogr hrr hcr⟩, ?_⟩
  refine List.forall_mem_singleton.mpr ?_
  have hheld := gone_le_held hit h hc.root
  have hnode := hup'.rep.node_eq
  have hnode₀ := h.node_eq
  simp only [Tree.id_node, Tree.header] at hnode hnode₀ hheld
  rw [hjoin, hnode]
  rwa [hnode₀] at hheld

theorem releaseDecrements_le (h : t.Rep p) (fuel : ℕ) (hfuel : t.height < fuel)
    (hc : t.All (Tree.Covered points)) (hd : (t.validIn points).Nodup) :
    ∀ m ∈ releaseDecrements c fuel p points t.id, m.2 ≤ m.1 := by
  induction t generalizing p points fuel with
  | leaf id live total offset cap bboxIdx es bbox =>
    obtain ⟨fuel, rfl⟩ : ∃ n, fuel = n + 1 := ⟨fuel - 1, by omega⟩
    have hheld := gone_le_held (fun _ => true) h hc.root
    simp only [releaseDecrements, Tree.id_leaf, h.leaf_body, h.view_eq]
    rw [clearEntries_eq _ es points hd]
    exact List.forall_mem_singleton.mpr hheld
  | node id live total dim split left right ihl ihr =>
    obtain ⟨fuel, rfl⟩ : ∃ n, fuel = n + 1 := ⟨fuel - 1, by omega⟩
    simp only [Tree.height] at hfuel
    have hboth := hd
    rw [Tree.validIn_node, List.nodup_append] at hboth
    have hl := releaseSubtree_spec (c := c) h.left fuel (by omega) hboth.1
    have hdr := hl.other_nodup hboth.2.1
    simp only [releaseDecrements, Tree.id_node, h.node_body]
    exact join_decrements h hc hd hl (fun hrep => releaseSubtree_spec hrep fuel (by omega) hdr)
      (ihl h.left fuel (by omega) hc.2.1 hboth.1)
      (fun hrep hcr => ihr hrep fuel (by omega) hcr hdr)

end

theorem deleteDecrements_le (rg : Region Dim K) (h : t.Rep p) (fuel : ℕ) (hfuel : t.height < fuel)
    (hc : t.All (Tree.Covered points)) (hd : (t.validIn points).Nodup) (hp : t.Placed points)
    (partition : BBox Dim K) (hin : ∀ i ∈ t.validIn points, partition.Mem (points.point i))
    (modified : List ℕ) :
    ∀ m ∈ deleteDecrements c rg fuel p points t.id partition modified, m.2 ≤ m.1 := by
  induction fuel generalizing p points t partition modified with
  | zero => omega
  | succ fuel ih =>
    have hall : ∀ m ∈ releaseDecrements c p.nodes.length p points t.id, m.2 ≤ m.1 := by
      have hheight := h.height_lt
      exact releaseDecrements_le h _ (by omega) hc hd
    cases hk : rg.keeps partition with
    | true => simp [deleteDecrements, hk]
    | false =>
      cases hcl : rg.clears partition with
      | true =>
        simp only [deleteDecrements, hk, hcl, Bool.false_eq_true, ↓reduceIte]
        exact hall
      | false =>
        cases t with
        | leaf id live total offset cap bboxIdx es bbox =>
          have hheld := gone_le_held rg.hit h hc.root
          simp only [deleteDecrements, hk, hcl, Bool.false_eq_true, ↓reduceIte, Tree.id_leaf,
            h.leaf_body, h.leaf_bbox, h.view_eq]
          split_ifs
          · simp
          · exact hall
          · rw [clearEntries_eq _ es points hd]
            exact List.forall_mem_singleton.mpr hheld
        | node id live total dim split left right =>
          have hboth := hd
          rw [Tree.validIn_node, List.nodup_append] at hboth
          simp only [Tree.height] at hfuel
          have hl := deleteRecurse_spec (c := c) rg h.left fuel (by omega) hboth.1 hp.2.2.1
            (partition.left dim split) (hp.mem_left hin) modified
          have hdr := hl.other_nodup hboth.2.1
          have hpr := hl.other_placed hp.2.2.2
          have hinr := hl.other_mem (hp.mem_right hin)
          simp only [deleteDecrements, hk, hcl, Bool.false_eq_true, ↓reduceIte, Tree.id_node,
            h.node_body]
          exact join_decrements h hc hd hl
            (fun hrep => deleteRecurse_spec rg hrep fuel (by omega) hdr hpr _ hinr _)
            (ih h.left (by omega) hc.2.1 hboth.1 hp.2.2.1 _ (hp.mem_left hin) modified)
            (fun hrep hcr => ih hrep (by omega) hcr hdr hpr _ hinr _)

end
end TreeBuilder
end Copse

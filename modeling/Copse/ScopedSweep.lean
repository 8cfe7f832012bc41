import Copse.Violators
import Copse.BucketAccesses
import Copse.ModifiedNodes

set_option autoImplicit false

namespace Copse
open PointStore TreeBuilder

namespace Tree
variable {Dim : ℕ} {K : Type*}

/-- A recorded child has a recorded parent. -/
def Closed (M : List ℕ) : Tree Dim K → Prop
  | leaf .. => True
  | node id _ _ _ _ left right =>
    (left.id ∈ M ∨ right.id ∈ M → id ∈ M) ∧ left.Closed M ∧ right.Closed M

end Tree

namespace TreeBuilder
variable {Dim : ℕ} [NeZero Dim] {K : Type*} [Field K] [LinearOrder K]

/-- Every violator is at or below a subtree with `P`. -/
def Sheltered (b : TreeBuilder K) (P : Tree Dim K → Prop) : Tree Dim K → Prop
  | .leaf .. => True
  | t@(.node _ _ _ _ _ left right) =>
    P t ∨ b.violates t = false ∧ b.Sheltered P left ∧ b.Sheltered P right

def Covered (b : TreeBuilder K) (M : List ℕ) : Tree Dim K → Prop :=
  b.Sheltered (fun u => b.violates u = true ∧ u.id ∈ M)

section
variable {b : TreeBuilder K} {points : PointStore Dim K} {v w visit : ℕ → Bool} {M : List ℕ}
variable {p : Pools Dim K} {t u : Tree Dim K} {P Q : Tree Dim K → Prop} {d : ℕ}

section
omit [NeZero Dim]

section
omit [LinearOrder K]

theorem below_mem (h : t.Rep p) {i : ℕ} (hb : p.Below t.id d i) : Addr.node i ∈ t.addrs := by
  obtain ⟨u, hs, rfl⟩ := h.below_iff.mp hb
  exact hs.addrs_subset u.id_mem_addrs

theorem not_below_both {id : ℕ} {live total : ℤ} {dim : Fin Dim} {split : K}
    {left right : Tree Dim K} (h : (Tree.node id live total dim split left right).Rep p)
    {e i : ℕ} (hl : p.Below left.id d i) (hr : p.Below right.id e i) : False := by
  obtain ⟨-, -, -, hd, hrl, hrr⟩ := h
  exact Set.disjoint_left.mp hd (below_mem hrl hl) (below_mem hrr hr)

theorem below_child_ne {id : ℕ} {live total : ℤ} {dim : Fin Dim} {split : K}
    {left right : Tree Dim K} (h : (Tree.node id live total dim split left right).Rep p) :
    ¬ p.Below left.id d id ∧ ¬ p.Below right.id d id := by
  obtain ⟨-, hlt, hrt, -, hrl, hrr⟩ := h
  exact ⟨fun hb => hrl.not_mem_of_lt hlt (below_mem hrl hb),
    fun hb => hrr.not_mem_of_lt hrt (below_mem hrr hb)⟩

theorem closed_of_trails (h : t.Rep p)
    (hM : ∀ j ∈ M, (∃ d, p.Below t.id d j) → p.Trail M t.id j) : t.Closed M := by
  induction t with
  | leaf => trivial
  | node id live total dim split left right ihl ihr =>
    have hbody := h.node_body
    have hnot := fun {d : ℕ} => below_child_ne (d := d) h
    simp only [Tree.id_node] at hM
    refine ⟨fun hchild => ?_, ihl h.left fun j hj hb => ?_, ihr h.right fun j hj hb => ?_⟩
    · rcases hchild with hl | hr
      · exact (hM _ hl ⟨1, .left hbody (.refl _)⟩).head
      · exact (hM _ hr ⟨1, .right hbody (.refl _)⟩).head
    · obtain ⟨d, hd⟩ := hb
      cases hM j hj ⟨d + 1, .left hbody hd⟩ with
      | refl _ => exact absurd hd hnot.1
      | left _ hi rest =>
        cases hbody.symm.trans hi
        exact rest
      | right _ hi rest =>
        cases hbody.symm.trans hi
        obtain ⟨e, he⟩ := rest.reaches
        exact (not_below_both h hd he).elim
    · obtain ⟨d, hd⟩ := hb
      cases hM j hj ⟨d + 1, .right hbody hd⟩ with
      | refl _ => exact absurd hd hnot.2
      | left _ hi rest =>
        cases hbody.symm.trans hi
        obtain ⟨e, he⟩ := rest.reaches
        exact (not_below_both h he hd).elim
      | right _ hi rest =>
        cases hbody.symm.trans hi
        exact rest

end

theorem Sheltered.imp (h : b.Sheltered P t) (hPQ : ∀ u, P u → Q u) : b.Sheltered Q t := by
  induction t with
  | leaf => trivial
  | node id live total dim split left right ihl ihr =>
    exact Or.imp (hPQ _) (fun hrest => ⟨hrest.1, ihl hrest.2.1, ihr hrest.2.2⟩) h

theorem Sheltered.above (h : b.Sheltered P t) (hs : t.Sub d u) (hv : b.violates u = true) :
    ∃ e f a, t.Sub e a ∧ P a ∧ a.Sub f u := by
  induction hs with
  | refl t =>
    cases t with
    | leaf => cases hv
    | node id live total dim split left right =>
      rcases h with h | h
      · exact ⟨0, 0, _, .refl _, h, .refl _⟩
      · rw [h.1] at hv
        cases hv
  | left id live total dim split hs ih =>
    rcases h with h | h
    · exact ⟨0, _, _, .refl _, h, .left id live total dim split hs⟩
    · obtain ⟨e, f, a, ha, hP, hau⟩ := ih h.2.1 hv
      exact ⟨e + 1, f, a, .left id live total dim split ha, hP, hau⟩
  | right id live total dim split hs ih =>
    rcases h with h | h
    · exact ⟨0, _, _, .refl _, h, .right id live total dim split hs⟩
    · obtain ⟨e, f, a, ha, hP, hau⟩ := ih h.2.2 hv
      exact ⟨e + 1, f, a, .right id live total dim split ha, hP, hau⟩

/-- A violator that is recorded, or below one that is, at every violator. -/
def Screened (b : TreeBuilder K) (p : Pools Dim K) (M : List ℕ) (root i : ℕ) : Prop :=
  ∃ a ∈ M, b.isViolator p a = true ∧ (∃ e, p.Below root e a) ∧ ∃ f, p.Below a f i

theorem Covered.screened (hc : b.Covered M t) (h : t.Rep p) {i : ℕ} (hb : p.Below t.id d i)
    (hv : b.isViolator p i = true) : b.Screened p M t.id i := by
  obtain ⟨u, hs, rfl⟩ := h.below_iff.mp hb
  rw [isViolator_eq b (hs.rep h)] at hv
  obtain ⟨e, f, a, ha, ⟨hva, haM⟩, hau⟩ := Sheltered.above hc hs hv
  have hra := ha.rep h
  exact ⟨a.id, haM, (isViolator_eq b hra).trans hva, ⟨e, h.below_iff.mpr ⟨a, ha, rfl⟩⟩, f,
    hra.below_iff.mpr ⟨u, hau, rfl⟩⟩

theorem covered_of_screened (h : t.Rep p)
    (hc : ∀ d i, p.Below t.id d i → b.isViolator p i = true → b.Screened p M t.id i) :
    b.Covered M t := by
  induction t with
  | leaf => trivial
  | node id live total dim split left right ihl ihr =>
    have hbody := h.node_body
    have hvio := isViolator_eq b h
    have hnot := fun {d : ℕ} => below_child_ne (d := d) h
    simp only [Tree.id_node] at hc hvio
    cases hv : b.violates (.node id live total dim split left right) with
    | true =>
      rw [hv] at hvio
      obtain ⟨a, haM, -, ⟨e, hea⟩, f, hai⟩ := hc 0 id (.refl id) hvio
      refine Or.inl ⟨hv, ?_⟩
      -- nothing but the root is above the root
      cases hea with
      | refl => exact haM
      | left hi rest =>
        cases hbody.symm.trans hi
        exact absurd (rest.trans hai) hnot.1
      | right hi rest =>
        cases hbody.symm.trans hi
        exact absurd (rest.trans hai) hnot.2
    | false =>
      rw [hv] at hvio
      refine Or.inr ⟨hv, ihl h.left fun d i hb hvi => ?_, ihr h.right fun d i hb hvi => ?_⟩
      · obtain ⟨a, haM, hva, ⟨e, hea⟩, f, hai⟩ := hc (d + 1) i (.left hbody hb) hvi
        cases hea with
        | refl => exact absurd hva (Bool.eq_false_iff.mp hvio)
        | left hi rest =>
          cases hbody.symm.trans hi
          exact ⟨a, haM, hva, ⟨_, rest⟩, f, hai⟩
        | right hi rest =>
          cases hbody.symm.trans hi
          exact (not_below_both h hb (rest.trans hai)).elim
      · obtain ⟨a, haM, hva, ⟨e, hea⟩, f, hai⟩ := hc (d + 1) i (.right hbody hb) hvi
        cases hea with
        | refl => exact absurd hva (Bool.eq_false_iff.mp hvio)
        | left hi rest =>
          cases hbody.symm.trans hi
          exact (not_below_both h (rest.trans hai) hb).elim
        | right hi rest =>
          cases hbody.symm.trans hi
          exact ⟨a, haM, hva, ⟨_, rest⟩, f, hai⟩

theorem settled_of_unrecorded (hc : t.Closed M) (h : b.Covered M t) (hid : t.id ∉ M) :
    t.All b.Settled := by
  induction t with
  | leaf => rfl
  | node id live total dim split left right ihl ihr =>
    obtain ⟨hup, hcl, hcr⟩ := hc
    obtain ⟨hv, hl, hr⟩ := h.resolve_left (fun hrec => hid hrec.2)
    exact ⟨hv, ihl hcl hl (fun hmem => hid (hup (Or.inl hmem))),
      ihr hcr hr (fun hmem => hid (hup (Or.inr hmem)))⟩

end

theorem sweepRebuilds_invalid (fuel : ℕ) : b.sweepRebuilds points visit fuel p invalid = [] := by
  cases fuel with
  | zero => rfl
  | succ fuel => rw [sweepRebuilds, if_pos rfl]

theorem sweepRebuilds_leaf {i offset size cap bboxIdx : ℕ} (fuel : ℕ)
    (hi : i ≠ invalid) (hn : (p.node i).body = .leaf offset size cap bboxIdx) :
    b.sweepRebuilds points visit (fuel + 1) p i =
      if 2 * b.leafBucketSize < size then [(p, i)] else [] := by
  rw [sweepRebuilds, if_neg hi, hn]

theorem sweepRebuilds_internal {i left right : ℕ} {dim : Fin Dim} {split : K} (fuel : ℕ)
    (hi : i ≠ invalid) (hn : (p.node i).body = .internal dim split left right) :
    b.sweepRebuilds points visit (fuel + 1) p i =
      if b.isViolator p i then [(p, i)]
      else
        let q := b.sweepChild points visit fuel p left
        let r := b.sweepChild points visit fuel q right
        (if visit left then b.sweepRebuilds points visit fuel p left else []) ++
          (if visit right then b.sweepRebuilds points visit fuel q right else []) ++
            if b.isViolator r i then [(r, i)] else [] := by
  rw [sweepRebuilds, if_neg hi, hn]

theorem sweepRebuilds_idle (h : t.Rep p) (hs : t.Shape b.leafBucketSize)
    (hok : t.All b.Settled) (fuel : ℕ) : b.sweepRebuilds points visit fuel p t.id = [] := by
  induction fuel generalizing t with
  | zero => rfl
  | succ fuel ih =>
    by_cases hid : t.id = invalid
    · rw [sweepRebuilds, if_pos hid]
    · have hvio : b.isViolator p t.id = false := (isViolator_eq b h).trans hok.root
      cases t with
      | leaf id live total offset cap bboxIdx es bbox =>
        rw [sweepRebuilds_leaf fuel hid h.leaf_body, if_neg (entries_le hs)]
      | node id live total dim split left right =>
        have child : ∀ {u : Tree Dim K}, u.Rep p → u.Shape b.leafBucketSize → u.All b.Settled →
            b.sweepChild points visit fuel p u.id = p := by
          intro u hu hsu hoku
          unfold sweepChild
          split_ifs
          · exact sweep_idle hu hsu hoku fuel
          · rfl
        have hl := child h.left hs.1 hok.2.1
        have hr := child h.right hs.2 hok.2.2
        rw [sweepRebuilds_internal fuel hid h.node_body, hvio]
        simp only [hl, hr, ih h.left hs.1 hok.2.1, ih h.right hs.2 hok.2.2, hvio, ite_self,
          Bool.false_eq_true, ↓reduceIte, List.append_nil]

/-- Two sweeps that both come to all recorded nodes make the same rebuilds. -/
theorem sweep_agree (hpos : 0 < b.leafBucketSize) (hB : 2 * b.leafBucketSize < 2 ^ 16)
    (hv : ∀ i ∈ M, v i = true) (hw : ∀ i ∈ M, w i = true) (h : t.Rep p)
    (hs : t.Shape b.leafBucketSize) (hclosed : t.Closed M) (hcov : b.Covered M t) (fuel : ℕ)
    (hfuel : t.height < fuel) (fit : (b.sweep points v fuel p t.id).Fit) :
    b.sweep points w fuel p t.id = b.sweep points v fuel p t.id ∧
      b.sweepRebuilds points w fuel p t.id = b.sweepRebuilds points v fuel p t.id := by
  induction fuel generalizing p t with
  | zero => omega
  | succ fuel ih =>
    have hvalid := h.id_valid (fit.of_grown (sweep_grown _ _ _))
    have hvio := isViolator_eq b h
    cases t with
    | leaf id live total offset cap bboxIdx es bbox =>
      constructor
      · rw [sweep_leaf fuel hvalid h.leaf_body, sweep_leaf fuel hvalid h.leaf_body]
      · rw [sweepRebuilds_leaf fuel hvalid h.leaf_body, sweepRebuilds_leaf fuel hvalid h.leaf_body]
    | node id live total dim split left right =>
      have child : ∀ {q : Pools Dim K} {u : Tree Dim K}, u.Rep q → u.Shape b.leafBucketSize →
          u.Closed M → b.Covered M u → u.height < fuel → (b.sweepChild points v fuel q u.id).Fit →
          b.sweepChild points w fuel q u.id = b.sweepChild points v fuel q u.id ∧
            (if w u.id then b.sweepRebuilds points w fuel q u.id else []) =
              if v u.id then b.sweepRebuilds points v fuel q u.id else [] := by
        intro q u hu hsu hcu hcovu hheight hfit
        by_cases hid : u.id ∈ M
        · simp only [sweepChild, hv _ hid, hw _ hid, ↓reduceIte] at hfit ⊢
          exact ih hu hsu hcu hcovu hheight hfit
        · have hok := settled_of_unrecorded hcu hcovu hid
          simp only [sweepChild, sweep_idle hu hsu hok, sweepRebuilds_idle hu hsu hok, ite_self,
            and_self]
      have hbody := h.node_body
      simp only [Tree.id_node] at hvalid hvio fit ⊢
      rw [sweep_internal fuel hvalid hbody, sweep_internal fuel hvalid hbody,
        sweepRebuilds_internal fuel hvalid hbody, sweepRebuilds_internal fuel hvalid hbody, hvio]
      rw [sweep_internal fuel hvalid hbody, hvio] at fit
      cases hbefore : b.violates (.node id live total dim split left right) with
      | true => exact ⟨rfl, rfl⟩
      | false =>
        rw [hbefore] at fit
        obtain ⟨-, hcl, hcr⟩ := hclosed
        have hnot : ¬ (b.violates (.node id live total dim split left right) = true ∧ id ∈ M) := by
          rw [hbefore]
          exact fun hrec => Bool.false_ne_true hrec.1
        obtain ⟨-, hcovl, hcovr⟩ := hcov.resolve_left hnot
        simp only [Tree.height] at hfuel
        have fit₂ := fit.of_grown (sweepAgain_grown _ _)
        have fit₁ := fit₂.of_grown (sweepChild_grown _ _ _)
        obtain ⟨hpl, hrl⟩ := child h.left hs.1 hcl hcovl (by omega) fit₁
        obtain ⟨left', -, hul⟩ := sweepChild_spec hpos hB h.left hs.1 fuel (by omega) fit₁
        have hright := (h.update_left hul).rep.right
        obtain ⟨hpr, hrr⟩ := child hright hs.2 hcr hcovr (by omega) fit₂
        dsimp only
        rw [hpl, hrl, hpr, hrr]
        exact ⟨rfl, rfl⟩

theorem sweepRebuilds_visited (fuel i : ℕ) :
    ∀ m ∈ b.sweepRebuilds points visit fuel p i, m.2 = i ∨ visit m.2 = true := by
  induction fuel generalizing p i with
  | zero => exact List.forall_mem_nil _
  | succ fuel ih =>
    have child : ∀ (q : Pools Dim K) (j : ℕ),
        ∀ m ∈ if visit j then b.sweepRebuilds points visit fuel q j else [], visit m.2 = true := by
      intro q j m hm
      split_ifs at hm with hj
      · exact (ih j m hm).elim (fun h => h ▸ hj) (fun h => h)
      · cases hm
    by_cases hi : i = invalid
    · rw [sweepRebuilds, if_pos hi]
      exact List.forall_mem_nil _
    · cases hbody : (p.node i).body with
      | leaf offset size cap bboxIdx =>
        rw [sweepRebuilds_leaf fuel hi hbody]
        split_ifs
        · exact List.forall_mem_singleton.mpr (Or.inl rfl)
        · exact List.forall_mem_nil _
      | internal dim split left right =>
        rw [sweepRebuilds_internal fuel hi hbody]
        by_cases hvio : b.isViolator p i = true
        · rw [if_pos hvio]
          exact List.forall_mem_singleton.mpr (Or.inl rfl)
        · rw [if_neg hvio]
          intro m hm
          rw [List.mem_append, List.mem_append] at hm
          rcases hm with (hm | hm) | hm
          · exact Or.inr (child _ left m hm)
          · exact Or.inr (child _ right m hm)
          · split_ifs at hm
            · exact Or.inl (congrArg Prod.snd (List.mem_singleton.mp hm))
            · cases hm

theorem covered_of_rebuilds (hpos : 0 < b.leafBucketSize) (hB : 2 * b.leafBucketSize < 2 ^ 16)
    (h : t.Rep p) (hs : t.Shape b.leafBucketSize) (fuel : ℕ) (hfuel : t.height < fuel)
    (fit : (b.sweep points (fun _ => true) fuel p t.id).Fit)
    (hM : ∀ m ∈ b.sweepRebuilds points (fun _ => true) fuel p t.id, m.2 ∈ M) : b.Covered M t := by
  induction fuel generalizing p t with
  | zero => omega
  | succ fuel ih =>
    have hvalid := h.id_valid (fit.of_grown (sweep_grown _ _ _))
    have hvio := isViolator_eq b h
    cases t with
    | leaf => trivial
    | node id live total dim split left right =>
      have hbody := h.node_body
      simp only [Tree.id_node] at hvalid hvio fit hM
      rw [sweep_internal fuel hvalid hbody, hvio] at fit
      rw [sweepRebuilds_internal fuel hvalid hbody, hvio] at hM
      cases hbefore : b.violates (.node id live total dim split left right) with
      | true =>
        rw [hbefore] at hM
        exact Or.inl ⟨hbefore, hM _ (List.mem_singleton_self _)⟩
      | false =>
        rw [hbefore] at fit hM
        simp only [Tree.height] at hfuel
        have fit₂ := fit.of_grown (sweepAgain_grown _ _)
        have fit₁ := fit₂.of_grown (sweepChild_grown _ _ _)
        obtain ⟨left', -, hul⟩ := sweepChild_spec hpos hB h.left hs.1 fuel (by omega) fit₁
        have hright := (h.update_left hul).rep.right
        refine Or.inr ⟨hbefore, ih h.left hs.1 (by omega) fit₁ ?_,
          ih hright hs.2 (by omega) fit₂ ?_⟩
        · exact fun m hm => hM m (List.mem_append_left _ (List.mem_append_left _ hm))
        · exact fun m hm => hM m (List.mem_append_left _ (List.mem_append_right _ hm))

/-- After a full sweep every violator is inside a subtree that the sweep has built. -/
theorem sweep_shelters (hpos : 0 < b.leafBucketSize) (hB : 2 * b.leafBucketSize < 2 ^ 16)
    (h : t.Rep p) (hs : t.Shape b.leafBucketSize) (fuel : ℕ) (hfuel : t.height < fuel)
    (fit : (b.sweep points (fun _ => true) fuel p t.id).Fit) :
    ∃ t', t.Update p (b.sweep points (fun _ => true) fuel p t.id) t' ∧
      b.Sheltered (fun u => u.id ∈ (b.sweepRebuilds points (fun _ => true) fuel p t.id).map Prod.snd)
        t' := by
  have built : ∀ {J : List ℕ} {t' : Tree Dim K}, t'.id ∈ J → b.Sheltered (fun u => u.id ∈ J) t' := by
    intro J t' hid
    cases t' with
    | leaf => trivial
    | node => exact Or.inl hid
  induction fuel generalizing p t with
  | zero => omega
  | succ fuel ih =>
    have hvalid := h.id_valid (fit.of_grown (sweep_grown _ _ _))
    have hvio := isViolator_eq b h
    cases t with
    | leaf id live total offset cap bboxIdx es bbox =>
      rw [sweep_leaf_eq fuel hvalid h hs]
      exact ⟨_, Tree.Update.refl h, trivial⟩
    | node id live total dim split left right =>
      have hbody := h.node_body
      simp only [Tree.id_node] at hvalid hvio fit ⊢
      rw [sweep_internal fuel hvalid hbody, hvio] at fit ⊢
      rw [sweepRebuilds_internal fuel hvalid hbody, hvio]
      cases hbefore : b.violates (.node id live total dim split left right) with
      | true =>
        rw [hbefore] at fit
        obtain ⟨t', hreb, hup⟩ := rebuildSubtreeInPlace_spec b.env hpos hB h fit
        exact ⟨t', hup, built (hreb.id_eq.symm ▸ List.mem_singleton_self _)⟩
      | false =>
        rw [hbefore] at fit
        simp only [Tree.height] at hfuel
        have fit₂ := fit.of_grown (sweepAgain_grown _ _)
        have fit₁ := fit₂.of_grown (sweepChild_grown _ _ _)
        obtain ⟨left', hul, hsl⟩ := ih h.left hs.1 (by omega) fit₁
        have hup := h.update_left hul
        obtain ⟨right', hur, hsr⟩ := ih hup.rep.right hs.2 (by omega) fit₂
        have hup' := hup.trans (hup.rep.update_right hur)
        have hvio' : b.isViolator (b.sweepChild points (fun _ => true) fuel
            (b.sweepChild points (fun _ => true) fuel p left.id) right.id) id =
              b.violates (.node id live total dim split left' right') := isViolator_eq b hup'.rep
        simp only [Bool.false_eq_true, ↓reduceIte, sweepAgain, hvio'] at fit ⊢
        cases hafter : b.violates (.node id live total dim split left' right') with
        | true =>
          simp only [hafter, ↓reduceIte] at fit ⊢
          obtain ⟨t', hreb, hup''⟩ := rebuildSubtreeInPlace_spec b.env hpos hB hup'.rep fit
          refine ⟨t', hup'.trans hup'', built (hreb.id_eq.symm ▸ ?_)⟩
          rw [List.map_append]
          exact List.mem_append_right _ (List.mem_singleton_self _)
        | false =>
          refine ⟨_, hup', Or.inr ⟨hafter, hsl.imp fun u hu => ?_, hsr.imp fun u hu => ?_⟩⟩
          · rw [List.map_append, List.map_append]
            exact List.mem_append_left _ (List.mem_append_left _ hu)
          · rw [List.map_append, List.map_append]
            exact List.mem_append_left _ (List.mem_append_right _ hu)

end
end TreeBuilder
end Copse

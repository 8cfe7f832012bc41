import Copse.KDTreeReachable

set_option autoImplicit false

namespace Copse
open PointStore

namespace Pools
variable {Dim : ℕ} {K : Type*}

/-- Node `j` is reached from node `i` in `d` steps to a child. -/
inductive Below (p : Pools Dim K) : ℕ → ℕ → ℕ → Prop where
  | refl (i : ℕ) : Below p i 0 i
  | left {i d j left right : ℕ} {dim : Fin Dim} {split : K}
      (h : (p.node i).body = .internal dim split left right) (rest : Below p left d j) :
    Below p i (d + 1) j
  | right {i d j left right : ℕ} {dim : Fin Dim} {split : K}
      (h : (p.node i).body = .internal dim split left right) (rest : Below p right d j) :
    Below p i (d + 1) j

theorem node_invalid {p : Pools Dim K} (fit : p.Fit) :
    (p.node invalid).body = .leaf 0 0 0 invalid := by
  have hlen := fit.nodes
  rw [node, List.getD_eq_default _ _ (by simp only [invalid]; omega)]
  rfl

theorem below_of_leaf {p : Pools Dim K} {i d j offset size cap bboxIdx : ℕ}
    (hbody : (p.node i).body = .leaf offset size cap bboxIdx) (h : p.Below i d j) :
    d = 0 ∧ j = i := by
  cases h with
  | refl => exact ⟨rfl, rfl⟩
  | left hb _ =>
    rw [hbody] at hb
    cases hb
  | right hb _ =>
    rw [hbody] at hb
    cases hb

theorem below_invalid {p : Pools Dim K} (fit : p.Fit) {d i : ℕ} (h : p.Below invalid d i) :
    d = 0 ∧ i = invalid :=
  below_of_leaf (node_invalid fit) h

end Pools

namespace Tree
variable {Dim : ℕ} {K : Type*}

/-- `u` is a subtree of `t`, `d` levels down. -/
inductive Sub : Tree Dim K → ℕ → Tree Dim K → Prop where
  | refl (t : Tree Dim K) : Sub t 0 t
  | left (id : ℕ) (live total : ℤ) (dim : Fin Dim) (split : K) {left right u : Tree Dim K} {d : ℕ}
      (h : Sub left d u) : Sub (node id live total dim split left right) (d + 1) u
  | right (id : ℕ) (live total : ℤ) (dim : Fin Dim) (split : K) {left right u : Tree Dim K} {d : ℕ}
      (h : Sub right d u) : Sub (node id live total dim split left right) (d + 1) u

section
variable {p : Pools Dim K} {t u : Tree Dim K} {d : ℕ}

theorem Sub.rep (h : t.Sub d u) (hr : t.Rep p) : u.Rep p := by
  induction h with
  | refl t => exact hr
  | left id live total dim split _ ih => exact ih hr.left
  | right id live total dim split _ ih => exact ih hr.right

variable [Field K]

/-- Reachability through the pools is descent in the tree. -/
theorem Rep.below_iff (h : t.Rep p) {i : ℕ} :
    p.Below t.id d i ↔ ∃ u, t.Sub d u ∧ u.id = i := by
  induction t generalizing d with
  | leaf id live total offset cap bboxIdx es bbox =>
    have hbody := h.leaf_body
    constructor
    · intro hb
      cases hb with
      | refl => exact ⟨_, .refl _, rfl⟩
      | left hi _ =>
        rw [id_leaf, hbody] at hi
        cases hi
      | right hi _ =>
        rw [id_leaf, hbody] at hi
        cases hi
    · rintro ⟨u, hs, rfl⟩
      cases hs with
      | refl => exact .refl _
  | node id live total dim split left right ihl ihr =>
    have hbody := h.node_body
    constructor
    · intro hb
      cases hb with
      | refl => exact ⟨_, .refl _, rfl⟩
      | left hi rest =>
        rw [id_node, hbody] at hi
        injection hi with _ _ hi _
        obtain ⟨u, hs, hu⟩ := (ihl h.left).mp (hi ▸ rest)
        exact ⟨u, .left id live total dim split hs, hu⟩
      | right hi rest =>
        rw [id_node, hbody] at hi
        injection hi with _ _ _ hi
        obtain ⟨u, hs, hu⟩ := (ihr h.right).mp (hi ▸ rest)
        exact ⟨u, .right id live total dim split hs, hu⟩
    · rintro ⟨u, hs, rfl⟩
      cases hs with
      | refl => exact .refl _
      | left _ _ _ _ _ hs => exact .left hbody ((ihl h.left).mpr ⟨u, hs, rfl⟩)
      | right _ _ _ _ _ hs => exact .right hbody ((ihr h.right).mpr ⟨u, hs, rfl⟩)

/-- The entry in slot `pos.2` of the bucket of the leaf with index `pos.1`. -/
def At (pos : ℕ × ℕ) (e : BucketEntry) : Tree Dim K → Prop
  | leaf id _ _ _ _ _ entries _ => id = pos.1 ∧ entries[pos.2]? = some e
  | node _ _ _ _ _ left right => left.At pos e ∨ right.At pos e

omit [Field K] in
theorem At.mem {pos : ℕ × ℕ} {e : BucketEntry} (h : t.At pos e) : e ∈ t.entries := by
  induction t with
  | leaf => exact List.mem_of_getElem? h.2
  | node id live total dim split left right ihl ihr =>
    rcases h with h | h
    · exact List.mem_append_left _ (ihl h)
    · exact List.mem_append_right _ (ihr h)

omit [Field K] in
theorem exists_at {e : BucketEntry} (h : e ∈ t.entries) : ∃ pos, t.At pos e := by
  induction t with
  | leaf id live total offset cap bboxIdx entries bbox =>
    obtain ⟨j, hj⟩ := List.mem_iff_getElem?.mp h
    exact ⟨(id, j), rfl, hj⟩
  | node id live total dim split left right ihl ihr =>
    rcases List.mem_append.mp h with h | h
    · obtain ⟨pos, hp⟩ := ihl h
      exact ⟨pos, Or.inl hp⟩
    · obtain ⟨pos, hp⟩ := ihr h
      exact ⟨pos, Or.inr hp⟩

/-- The entries of a represented tree are the filled bucket slots of its reachable leaves. -/
theorem Rep.at_iff (h : t.Rep p) {pos : ℕ × ℕ} {e : BucketEntry} :
    t.At pos e ↔ (∃ d, p.Below t.id d pos.1) ∧ ∃ offset size cap bboxIdx,
      (p.node pos.1).body = .leaf offset size cap bboxIdx ∧ pos.2 < size ∧
        p.leafBuckets.data[offset + pos.2]? = some e := by
  have leafAt : ∀ {id live total offset cap bboxIdx entries bbox},
      (leaf id live total offset cap bboxIdx entries bbox : Tree Dim K).Rep p →
      (entries[pos.2]? = some e ↔
        pos.2 < entries.length ∧ p.leafBuckets.data[offset + pos.2]? = some e) := by
    intro id live total offset cap bboxIdx entries bbox hl
    obtain ⟨-, -, -, he, -⟩ := hl
    constructor
    · intro hj
      exact ⟨(List.getElem?_eq_some_iff.mp hj).choose, he _ _ hj⟩
    · rintro ⟨hj, hd⟩
      have hj' := List.getElem?_eq_getElem hj
      rw [he _ _ hj', Option.some.injEq] at hd
      rw [hj', hd]
  have sub_at : ∀ {v u : Tree Dim K} {d : ℕ}, v.Sub d u → u.At pos e → v.At pos e := by
    intro v u d hs
    induction hs with
    | refl => exact fun hu => hu
    | left _ _ _ _ _ _ ih => exact fun hu => Or.inl (ih hu)
    | right _ _ _ _ _ _ ih => exact fun hu => Or.inr (ih hu)
  constructor
  · intro ha
    induction t with
    | leaf id live total offset cap bboxIdx entries bbox =>
      obtain ⟨rfl, hj⟩ := ha
      obtain ⟨hlt, hd⟩ := (leafAt h).mp hj
      exact ⟨⟨0, .refl _⟩, offset, entries.length, cap, bboxIdx, h.leaf_body, hlt, hd⟩
    | node id live total dim split left right ihl ihr =>
      rcases ha with ha | ha
      · obtain ⟨⟨d, hb⟩, hrest⟩ := ihl h.left ha
        exact ⟨⟨d + 1, .left h.node_body hb⟩, hrest⟩
      · obtain ⟨⟨d, hb⟩, hrest⟩ := ihr h.right ha
        exact ⟨⟨d + 1, .right h.node_body hb⟩, hrest⟩
  · rintro ⟨⟨d, hb⟩, offset, size, cap, bboxIdx, hbody, hlt, hd⟩
    obtain ⟨u, hs, hu⟩ := h.below_iff.mp hb
    have hur := hs.rep h
    refine sub_at hs ?_
    cases u with
    | leaf id live total offset' cap' bboxIdx' entries bbox =>
      rw [← hu, id_leaf, hur.leaf_body] at hbody
      injection hbody with h1 h2 h3 h4
      subst h1 h2
      exact ⟨hu, (leafAt hur).mpr ⟨hlt, hd⟩⟩
    | node id live total dim split left right =>
      rw [← hu, id_node, hur.node_body] at hbody
      cases hbody

theorem unique_index {valid : BucketEntry → Bool} {es : List BucketEntry}
    (hd : ((es.filter valid).map BucketEntry.index).Nodup) {j j' : ℕ} {e e' : BucketEntry}
    (hj : es[j]? = some e) (hj' : es[j']? = some e') (hv : valid e = true) (hv' : valid e' = true)
    (hi : e.index = e'.index) : j = j' := by
  rw [List.Nodup, List.pairwise_map, List.pairwise_filter] at hd
  have apart := List.pairwise_iff_getElem.mp hd
  obtain ⟨hl, rfl⟩ := List.getElem?_eq_some_iff.mp hj
  obtain ⟨hl', rfl⟩ := List.getElem?_eq_some_iff.mp hj'
  rcases Nat.lt_trichotomy j j' with h | h | h
  · exact absurd hi (apart j j' hl hl' h hv hv')
  · exact h
  · exact absurd hi.symm (apart j' j hl' hl h hv' hv)

omit [Field K] in
theorem At.unique_of {valid : BucketEntry → Bool}
    (hd : ((t.entries.filter valid).map BucketEntry.index).Nodup) {pos pos' : ℕ × ℕ}
    {e e' : BucketEntry} (h : t.At pos e) (h' : t.At pos' e') (hv : valid e = true)
    (hv' : valid e' = true) (hi : e.index = e'.index) : pos = pos' := by
  induction t with
  | leaf id live total offset cap bboxIdx entries bbox =>
    obtain ⟨hid, hj⟩ := h
    obtain ⟨hid', hj'⟩ := h'
    exact Prod.ext (hid.symm.trans hid') (unique_index hd hj hj' hv hv' hi)
  | node id live total dim split left right ihl ihr =>
    rw [entries, List.filter_append, List.map_append, List.nodup_append] at hd
    obtain ⟨hdl, hdr, hdis⟩ := hd
    have found : ∀ {u : Tree Dim K} {pos : ℕ × ℕ} {e : BucketEntry}, u.At pos e → valid e = true →
        e.index ∈ (u.entries.filter valid).map BucketEntry.index :=
      fun h hv => List.mem_map_of_mem (List.mem_filter.mpr ⟨h.mem, hv⟩)
    rcases h with h | h <;> rcases h' with h' | h'
    · exact ihl hdl h h'
    · exact absurd hi (hdis _ (found h hv) _ (found h' hv'))
    · exact absurd hi.symm (hdis _ (found h' hv') _ (found h hv))
    · exact ihr hdr h h'

theorem At.unique [LinearOrder K] {points : PointStore Dim K} (hd : (t.validIn points).Nodup)
    {pos pos' : ℕ × ℕ} {e e' : BucketEntry} (h : t.At pos e) (h' : t.At pos' e')
    (hv : points.valid e = true) (hv' : points.valid e' = true) (hi : e.index = e'.index) :
    pos = pos' := h.unique_of hd h' hv hv' hi

end
end Tree

namespace KDTreeImpl
variable {Dim : ℕ} [NeZero Dim] {K : Type*} [Field K] [LinearOrder K]

/-- `e` is in one of the first `bucket_size` slots of a leaf reachable from the root. -/
def EntryAt (s : KDTreeImpl Dim K) (pos : ℕ × ℕ) (e : BucketEntry) : Prop :=
  s.root ≠ invalid ∧ (∃ d, s.pools.Below s.root d pos.1) ∧ ∃ offset size cap bboxIdx,
    (s.pools.node pos.1).body = .leaf offset size cap bboxIdx ∧ pos.2 < size ∧
      s.pools.leafBuckets.data[offset + pos.2]? = some e

section
variable {env : Env K} {cfg : Config K} {s : KDTreeImpl Dim K}

omit [NeZero Dim] in
theorem Sound.entryAt_iff {t : Tree Dim K} (h : Sound s (some t)) {pos : ℕ × ℕ} {e : BucketEntry} :
    s.EntryAt pos e ↔ t.At pos e := by
  have holds : Holds s t := h.reads
  rw [EntryAt, ← holds.root, ← holds.rep.at_iff]
  exact and_iff_right (holds.root ▸ holds.root_valid h.noWrap)

variable [IsStrictOrderedRing K]

/-- The valid reachable entries and the live slots correspond one to one. -/
theorem validEntries_correspond (hB : 2 * cfg.leafBucketSize ≤ 65535) (h : Reachable env cfg s) :
    (∀ i, s.points.isLive i = true →
        ∃! pos : ℕ × ℕ, ∃ e, s.EntryAt pos e ∧ s.points.valid e = true ∧ e.index = i) ∧
      (∀ pos e, s.EntryAt pos e → s.points.valid e = true → s.points.isLive e.index = true) ∧
      (s.root = invalid → ∀ i, s.points.isLive i = false) := by
  obtain ⟨o, hs⟩ := h.sound hB
  refine ⟨?_, fun _ e _ hv => ((s.points.valid_iff e).mp hv).2, ?_⟩
  · intro i hi
    cases o with
    | none => exact absurd hi (by simp [hs.reads.none i])
    | some t =>
      have holds : Holds s t := hs.reads
      obtain ⟨e, he, hv, rfl⟩ := Tree.mem_validIn.mp ((holds.complete i).mp hi)
      obtain ⟨pos, hpos⟩ := Tree.exists_at he
      refine ⟨pos, ⟨e, hs.entryAt_iff.mpr hpos, hv, rfl⟩, ?_⟩
      rintro pos' ⟨e', he', hv', hi'⟩
      exact (hs.entryAt_iff.mp he').unique holds.nodup hpos hv' hv hi'
  · intro hroot i
    cases o with
    | none => exact hs.reads.none i
    | some t => exact absurd hroot (Holds.root_valid hs.reads hs.noWrap)

theorem validEntries_correspond_plane :
    ∃! pos : ℕ × ℕ, ∃ e,
      (run wordEnv (start (plane 2 (1 / 4))) [.insert [![0, 0], ![1, 0], ![2, 0]]] :
        KDTreeImpl 2 ℚ).EntryAt pos e ∧
      (run wordEnv (start (plane 2 (1 / 4))) [.insert [![0, 0], ![1, 0], ![2, 0]]] :
        KDTreeImpl 2 ℚ).points.valid e = true ∧ e.index = 0 :=
  (validEntries_correspond (by decide)
    (reachable_run (plane_accepted (by decide) (by norm_num)) (by decide +kernel))).1 0
    (by decide +kernel)

end
end KDTreeImpl
end Copse

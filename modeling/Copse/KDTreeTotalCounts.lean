import Copse.TotalCounts

set_option autoImplicit false

namespace Copse
open PointStore TreeBuilder TransitionRuns

namespace TreeBuilder
variable {Dim : ℕ} {K : Type*} [Field K] [LinearOrder K]

def entriesBelow : ℕ → Pools Dim K → ℕ → List BucketEntry
  | 0, _, _ => []
  | fuel + 1, p, nodeIdx =>
    match (p.node nodeIdx).body with
    | .leaf offset size _ _ => p.view offset size
    | .internal _ _ left right => entriesBelow fuel p left ++ entriesBelow fuel p right

/-- Whether the leaf at the end of the descent is split without loss, if it is split. -/
def splitsClean (points : PointStore Dim K) (index : ℕ) : ℕ → Pools Dim K → ℕ → Bool
  | 0, _, _ => true
  | fuel + 1, p, nodeIdx =>
    match (p.node nodeIdx).body with
    | .leaf offset size capacity _ =>
      decide (size + 1 ≠ capacity) || (p.view offset size).all points.valid
    | .internal dim split left right =>
      splitsClean points index fuel p (if points.point index dim < split then left else right)

/-- Whether a sweep called at a node rebuilds without loss. -/
def sweepsClean (b : TreeBuilder K) (points : PointStore Dim K) (visit : ℕ → Bool) :
    ℕ → Pools Dim K → ℕ → Bool
  | 0, _, _ => true
  | fuel + 1, p, nodeIdx =>
    match (p.node nodeIdx).body with
    | .leaf .. => true
    | .internal _ _ left right =>
      if b.isViolator p nodeIdx then (entriesBelow (fuel + 1) p nodeIdx).all points.valid
      else (!visit left || sweepsClean b points visit fuel p left) &&
        (!visit right || sweepsClean b points visit fuel p right)

/-- The same for a sweep from the root, which may itself be rebuilt. -/
def sweepsCleanBelow (b : TreeBuilder K) (points : PointStore Dim K) (visit : ℕ → Bool)
    (fuel : ℕ) (p : Pools Dim K) (root : ℕ) : Bool :=
  match (p.node root).body with
  | .leaf .. => true
  | .internal _ _ left right =>
    b.isViolator p root ||
      (!visit left || sweepsClean b points visit fuel p left) &&
        (!visit right || sweepsClean b points visit fuel p right)

section
variable {b : TreeBuilder K} {points : PointStore Dim K} {index : ℕ} {visit : ℕ → Bool}
variable {p : Pools Dim K} {t : Tree Dim K}

omit [LinearOrder K] in
theorem entriesBelow_eq (h : t.Rep p) (fuel : ℕ) (hfuel : t.height < fuel) :
    entriesBelow fuel p t.id = t.entries := by
  induction t generalizing fuel with
  | leaf id live total offset cap bboxIdx es bbox =>
    obtain ⟨fuel, rfl⟩ : ∃ n, fuel = n + 1 := ⟨fuel - 1, by omega⟩
    simp only [entriesBelow, Tree.id_leaf, h.leaf_body, h.view_eq]
    rfl
  | node id live total dim split left right ihl ihr =>
    obtain ⟨fuel, rfl⟩ : ∃ n, fuel = n + 1 := ⟨fuel - 1, by omega⟩
    simp only [Tree.height] at hfuel
    simp only [entriesBelow, Tree.id_node, h.node_body]
    rw [ihl h.left fuel (by omega), ihr h.right fuel (by omega)]
    rfl

theorem splitsClean_spec (h : t.Rep p) (fuel : ℕ) (hfuel : t.height < fuel)
    (hclean : splitsClean points index fuel p t.id = true) : t.SplitsClean points index := by
  induction t generalizing fuel with
  | leaf id live total offset cap bboxIdx es bbox =>
    obtain ⟨fuel, rfl⟩ : ∃ n, fuel = n + 1 := ⟨fuel - 1, by omega⟩
    simp only [splitsClean, Tree.id_leaf, h.leaf_body, h.view_eq, Bool.or_eq_true,
      decide_eq_true_eq, List.all_eq_true] at hclean
    exact fun hfull => hclean.resolve_left (not_not.mpr hfull)
  | node id live total dim split left right ihl ihr =>
    obtain ⟨fuel, rfl⟩ : ∃ n, fuel = n + 1 := ⟨fuel - 1, by omega⟩
    simp only [Tree.height] at hfuel
    simp only [splitsClean, Tree.id_node, h.node_body] at hclean
    unfold Tree.SplitsClean
    split_ifs at hclean ⊢
    · exact ihl h.left fuel (by omega) hclean
    · exact ihr h.right fuel (by omega) hclean

theorem sweepsClean_spec (h : t.Rep p) (fuel : ℕ) (hfuel : t.height < fuel)
    (hclean : sweepsClean b points visit fuel p t.id = true) : t.SweepsClean b points visit := by
  induction t generalizing fuel with
  | leaf => trivial
  | node id live total dim split left right ihl ihr =>
    obtain ⟨fuel, rfl⟩ : ∃ n, fuel = n + 1 := ⟨fuel - 1, by omega⟩
    have hheight := hfuel
    simp only [Tree.height] at hfuel
    have hvio := isViolator_eq b h
    have hentries := entriesBelow_eq h (fuel + 1) hheight
    simp only [Tree.id_node] at hvio hentries
    simp only [sweepsClean, Tree.id_node, h.node_body, hvio, hentries] at hclean
    unfold Tree.SweepsClean
    split_ifs at hclean ⊢
    · exact List.all_eq_true.mp hclean
    · rw [Bool.and_eq_true] at hclean
      refine ⟨fun hv => ihl h.left fuel (by omega) ?_, fun hv => ihr h.right fuel (by omega) ?_⟩
      · simpa [hv] using hclean.1
      · simpa [hv] using hclean.2

theorem sweepsCleanBelow_spec (h : t.Rep p) (fuel : ℕ) (hfuel : t.height < fuel)
    (hclean : sweepsCleanBelow b points visit fuel p t.id = true) :
    t.SweepsCleanBelow b points visit := by
  cases t with
  | leaf => trivial
  | node id live total dim split left right =>
    simp only [Tree.height] at hfuel
    have hvio := isViolator_eq b h
    simp only [Tree.id_node] at hvio
    intro hkept
    simp only [sweepsCleanBelow, Tree.id_node, h.node_body, hvio, hkept, Bool.false_or,
      Bool.and_eq_true] at hclean
    refine ⟨fun hv => sweepsClean_spec h.left fuel (by omega) ?_,
      fun hv => sweepsClean_spec h.right fuel (by omega) ?_⟩
    · simpa [hv] using hclean.1
    · simpa [hv] using hclean.2

end
end TreeBuilder

namespace KDTreeImpl
variable {Dim : ℕ} [NeZero Dim] {K : Type*} [Field K] [LinearOrder K]

/-- Whether the split of an insertion is at the root, or loses nothing. -/
def splitClean (s : KDTreeImpl Dim K) (x : Point Dim K) : Bool :=
  match (s.pools.node s.root).body with
  | .leaf .. => true
  | .internal .. =>
    splitsClean (s.points.acquire x).1 (s.points.acquire x).2 s.pools.nodes.length s.pools s.root

/-- Whether an action rebuilds a node below the root and drops a stale entry. -/
def drops (env : Env K) (s : KDTreeImpl Dim K) : Action Dim K → Bool
  | .insertPoint x => s.accepts x && !s.splitClean x
  | .sweepFull => !sweepsCleanBelow (s.builder env) s.points (fun _ => true)
      s.pools.nodes.length s.pools s.root
  | .sweep => !sweepsCleanBelow (s.builder env) s.points s.visits s.pools.nodes.length s.pools
      s.root
  | _ => false

section
variable {env : Env K} {cfg : Config K} {s : KDTreeImpl Dim K} {a : Action Dim K}
variable {o o' : Option (Tree Dim K)}

omit [NeZero Dim] in
theorem act_totalCounted (hs : Sound s o) (hev : Evolved env s a o o')
    (hclean : s.drops env a = false)
    (h : Tree.IfAny (Tree.All (Tree.TotalCounted env.counter)) o) :
    Tree.IfAny (Tree.All (Tree.TotalCounted env.counter)) o' := by
  obtain ⟨window, free, hring⟩ := hs.ring
  cases hev with
  | rejected x o hx => exact h
  | first x t' hx built => exact built.totalCounted
  | inserted x t t' hx ins =>
    have holds : Holds s t := hs.reads
    cases t with
    | leaf id live total offset cap bboxIdx es bbox => exact ins.totalCounted_leaf h.root
    | node id live total dim split left right =>
      have hbody : (s.pools.node s.root).body = .internal dim split left.id right.id := by
        rw [← holds.root]
        exact holds.rep.node_body
      have hsplit : s.splitClean x = true := by simpa [drops, hx] using hclean
      rw [splitClean, hbody, ← holds.root] at hsplit
      have hclean := splitsClean_spec holds.rep _ holds.height_lt hsplit
      exact (ins.totalCounted (acquire_self_live x hring) h hclean).1
  | tombstoned i t => exact Tree.totalCounted_of_dropLive (t.dropLive_tombstone _ _) h
  | missing rg => trivial
  | discounted rg t t' hd => exact Tree.totalCounted_of_dropLive hd.dropLive h
  | idleFull => trivial
  | idle => trivial
  | sweptFull t t' swept =>
    have holds : Holds s t := hs.reads
    rw [drops, Bool.not_eq_false', ← holds.root] at hclean
    exact swept.totalCounted_root h (sweepsCleanBelow_spec holds.rep _ holds.height_lt hclean)
  | swept called t t' swept =>
    have holds : Holds s t := hs.reads
    rw [drops, Bool.not_eq_false', ← holds.root] at hclean
    exact swept.totalCounted_root h (sweepsCleanBelow_spec holds.rep _ holds.height_lt hclean)
  | emptied o => trivial
  | rebuilt o window t' hlive built => exact built.totalCounted

variable [IsStrictOrderedRing K]

/-- As long as no rebuild below the root drops an entry, a reachable leaf counts its
bucket, and a reachable internal node counts what its children count. -/
theorem totalCounts_add (hB : 2 * cfg.leafBucketSize ≤ 65535)
    (h : ReachableWhen env cfg (fun s a => s.drops env a = false) s) (hroot : s.root ≠ invalid) :
    ∀ d i, s.pools.Below s.root d i →
      match (s.pools.node i).body with
      | .leaf _ size _ _ => (s.pools.node i).subtreeTotalCount = size
      | .internal _ _ left right => (s.pools.node i).subtreeTotalCount =
          (s.pools.node left).subtreeTotalCount + (s.pools.node right).subtreeTotalCount := by
  obtain ⟨o, hs, hcount⟩ := h.invariant
    (P := fun _ o => Tree.IfAny (Tree.All (Tree.TotalCounted env.counter)) o) hB
    (fun _ _ _ => trivial)
    (fun _ _ _ _ hs _ hev _ hok hp => act_totalCounted hs hev hok hp)
  intro d i hi
  cases o with
  | none => exact absurd hs.reads.root hroot
  | some t =>
    have holds : Holds s t := hs.reads
    have hslots := hs.noWrap.pools.slots
    have exact_total : ∀ {u : Tree Dim K}, u.Rep s.pools → Tree.TotalCounted env.counter u →
        u.total = u.entries.length := by
      intro u hu hc
      have hle := hu.entries_length_le
      rw [hc]
      exact Counter.wrap_of_fits _ (by omega) (by omega)
    rw [← holds.root] at hi
    obtain ⟨u, -, hall, hu, hnode, -⟩ := holds.rep.below_counts s.points hcount hi
    have htotal := exact_total hu hall.root
    rw [hnode]
    cases u with
    | leaf id live total offset cap bboxIdx es bbox => exact htotal
    | node id live total dim split left right =>
      change total = (s.pools.node left.id).subtreeTotalCount +
        (s.pools.node right.id).subtreeTotalCount
      rw [hu.left.node_eq, hu.right.node_eq, Tree.total_header, Tree.total_header,
        exact_total hu.left hall.2.1.root, exact_total hu.right hall.2.2.root]
      rw [Tree.entries, List.length_append] at htotal
      exact_mod_cast htotal

end

def staleSplitRun : KDTreeImpl 2 ℚ :=
  run wordEnv (start (plane 2 (1 / 4))) [.insert [![0, 0], ![8, 0], ![12, 0], ![-1, 0]]]

/-- The root still counts the entry that the split dropped. -/
theorem totalCount_inflated_plane :
    Reachable wordEnv (plane 2 (1 / 4)) staleSplitRun ∧ staleSplitRun.root = 0 ∧
      (staleSplitRun.pools.node 0).body = .internal 0 8 2 3 ∧
      (staleSplitRun.pools.node 0).subtreeTotalCount = 4 ∧
      (staleSplitRun.pools.node 2).subtreeTotalCount = 1 ∧
      (staleSplitRun.pools.node 3).subtreeTotalCount = 2 :=
  ⟨reachable_run (plane_accepted (by decide) (by norm_num)) (by decide +kernel),
    by decide +kernel, by decide +kernel, by decide +kernel, by decide +kernel, by decide +kernel⟩

def cleanRun : KDTreeImpl 2 ℚ :=
  run wordEnv (start (plane 2 1)) [.insert [![0, 0], ![8, 0], ![12, 0]], .remove [![8, 0]]]

theorem totalCounts_add_plane :
    ∃ i left right, (cleanRun.pools.node i).body = .internal 0 8 left right ∧
      (cleanRun.pools.node i).subtreeTotalCount =
        (cleanRun.pools.node left).subtreeTotalCount +
          (cleanRun.pools.node right).subtreeTotalCount := by
  have hrun : ReachableWhen wordEnv (plane 2 1) (fun s a => s.drops wordEnv a = false) cleanRun :=
    reachableWhen_run (fun s a (h : (!s.drops wordEnv a) = true) => by simpa using h)
      (plane_accepted (by decide) (by norm_num)) (by decide +kernel)
  have hbody : (cleanRun.pools.node cleanRun.root).body = .internal 0 8 2 3 := by decide +kernel
  have hsum := totalCounts_add (by decide) hrun (by decide +kernel) 0 cleanRun.root (.refl _)
  rw [hbody] at hsum
  exact ⟨_, _, _, hbody, hsum⟩

end KDTreeImpl
end Copse

import Copse.TreeBuilder
import Copse.SearchKernel

set_option autoImplicit false

/-!
# The tree object

`KDTreeImpl`: configuration, storage, and the public operations that
orchestrate the store, the builder and the kernel. `work_indices_` is scratch
space that every operation overwrites before it reads it, so it is not state.
-/
namespace Copse

/-- Construction-time configuration, with the defaults of the header. -/
structure Config (K : Type*) [Field K] where
  capacity : ℕ := 0
  resolution : K := 0
  leafBucketSize : ℕ := 5
  alpha : K := 7 / 10
  tombstoneThreshold : K := 1 / 4

structure KDTreeImpl (Dim : ℕ) (K : Type*) [Field K] where
  cfg : Config K
  points : PointStore Dim K
  pools : Pools Dim K
  rootBBox : BBox Dim K
  root : ℕ
  /-- Internal nodes whose subtree counts changed since the last sweep. -/
  modifiedNodes : List ℕ

namespace KDTreeImpl
variable {Dim : ℕ} [NeZero Dim] {K : Type*} [Field K] [LinearOrder K]

/-- The constructor. The store is a member, so its check comes first. -/
def create (cfg : Config K) : Except String (KDTreeImpl Dim K) := do
  let points ← PointStore.create cfg.capacity
  if cfg.capacity = 0 then throw "KDTree::Config: capacity must be > 0"
  if ¬ 0 < cfg.resolution then throw "KDTree::Config: resolution must be > 0"
  if cfg.leafBucketSize = 0 then throw "KDTree::Config: leaf_bucket_size must be > 0"
  if ¬ (1 / 2 < cfg.alpha ∧ cfg.alpha < 1) then
    throw "KDTree::Config: alpha must lie in (0.5, 1.0)"
  if ¬ (0 ≤ cfg.tombstoneThreshold ∧ cfg.tombstoneThreshold ≤ 1) then
    throw "KDTree::Config: tombstone_threshold must lie in [0, 1]"
  .ok
    { cfg
      points
      pools := Pools.clear
      rootBBox := BBox.zero
      root := invalid
      modifiedNodes := [] }

variable (env : Env K) (s : KDTreeImpl Dim K)

def builder : TreeBuilder K :=
  ⟨env, s.cfg.leafBucketSize, s.cfg.alpha, s.cfg.tombstoneThreshold⟩

/-- `TreeBuilder::rebuild`, from scratch over the given live slots, and its assignment to `root_`. -/
def rebuild (liveIndices : List ℕ) : KDTreeImpl Dim K :=
  let s := { s with modifiedNodes := [] }
  if liveIndices = [] then { s with root := invalid }
  else
    let (pools, root) := TreeBuilder.buildRecursive env s.points s.cfg.leafBucketSize
      liveIndices.length s.pools liveIndices
    { s with pools, root, rootBBox := TreeBuilder.bboxOf s.points liveIndices }

/-- The sweep after a delete: full when there are many records, else only over recorded nodes. -/
def maybePartialRebuild : KDTreeImpl Dim K :=
  let b := s.builder env
  let fuel := s.pools.nodes.length
  if s.root = invalid ∨ s.modifiedNodes = [] then { s with modifiedNodes := [] }
  else
    let pools :=
      if s.pools.nodes.length ≤ s.modifiedNodes.length then
        b.sweepFull s.points fuel s.pools s.root
      else
        let dirty := (s.modifiedNodes.insertionSort (· ≤ ·)).destutter (· ≠ ·)
        b.sweepScoped s.points dirty fuel s.pools s.root
    { s with pools, modifiedNodes := [] }

def maybePartialRebuildFull : KDTreeImpl Dim K :=
  let s := { s with modifiedNodes := [] }
  if s.root = invalid then s
  else { s with pools :=
    (s.builder env).sweepFull s.points s.pools.nodes.length s.pools s.root }

def insertIndex (index : ℕ) : KDTreeImpl Dim K :=
  { s with
    rootBBox := s.rootBBox.expand (s.points.point index)
    pools := (s.builder env).insertIndex s.points index s.pools.nodes.length s.pools s.root }

def tombstoneIndex (index : ℕ) : KDTreeImpl Dim K :=
  let (pools, modifiedNodes) := TreeBuilder.tombstoneIndex env.counter (s.points.point index)
    s.pools.nodes.length s.pools s.root s.modifiedNodes
  { s with pools, modifiedNodes }

def sqResolution : K := s.cfg.resolution * s.cfg.resolution

/-- Whether the dedup test lets the point in. -/
def accepts (point : Point Dim K) : Bool :=
  !(s.root != invalid &&
    SearchKernel.anyWithin s.pools s.points s.root point s.sqResolution)

/-- Acquire a slot for an accepted point and put it into the tree. -/
def acceptPoint (point : Point Dim K) : KDTreeImpl Dim K :=
  let (points, index) := s.points.acquire point
  let s := { s with points }
  if s.root = invalid then s.rebuild env [index] else s.insertIndex env index

def insertPoint (point : Point Dim K) : KDTreeImpl Dim K × ℕ :=
  if s.accepts point then (s.acceptPoint env point, 1) else (s, 0)

def insertLoop (env : Env K) : KDTreeImpl Dim K → List (Point Dim K) → KDTreeImpl Dim K × ℕ
  | s, [] => (s, 0)
  | s, point :: rest =>
    let (s, i) := s.insertPoint env point
    let (s, n) := insertLoop env s rest
    (s, i + n)

def insert (batch : List (Point Dim K)) : KDTreeImpl Dim K × ℕ :=
  let (s, inserted) := insertLoop env s batch
  (if 0 < inserted then s.maybePartialRebuildFull env else s, inserted)

/-- Tombstone, then release. -/
def removeIndex (index : ℕ) : KDTreeImpl Dim K :=
  let s := s.tombstoneIndex env index
  { s with points := s.points.release index }

/-- The slots that the query of one `remove` iteration collects. -/
def matchesOf (query : Point Dim K) : List ℕ :=
  SearchKernel.collectIndicesWithin s.pools s.points s.root query s.sqResolution

def removeLoop (env : Env K) : KDTreeImpl Dim K → List (Point Dim K) → KDTreeImpl Dim K × ℕ
  | s, [] => (s, 0)
  | s, query :: rest =>
    let found := s.matchesOf query
    let (s, n) := removeLoop env (found.foldl (fun s i => s.removeIndex env i) s) rest
    (s, found.length + n)

def remove (queries : List (Point Dim K)) : KDTreeImpl Dim K × ℕ :=
  let (s, cleared) := removeLoop env s queries
  (if 0 < cleared then s.maybePartialRebuild env else s, cleared)

/-- One recursive delete from the root over the root box. -/
def deleteRegion (c : Counter) (s : KDTreeImpl Dim K) (rg : Region Dim K) :
    KDTreeImpl Dim K × ℕ :=
  if s.root = invalid then (s, 0)
  else
    let d := TreeBuilder.deleteRecurse c rg s.pools.nodes.length s.pools s.points s.root
      s.rootBBox s.modifiedNodes
    ({ s with pools := d.pools, points := d.points, modifiedNodes := d.modified }, d.cleared)

variable [IsStrictOrderedRing K]

def boxDeleteOne (box : BBox Dim K) : KDTreeImpl Dim K × ℕ :=
  deleteRegion env.counter s (Region.box box)

def radiusCropOne (center : Point Dim K) (r : K) : KDTreeImpl Dim K × ℕ :=
  deleteRegion env.counter s (Region.crop center (r * r))

def boxDeleteLoop (env : Env K) : KDTreeImpl Dim K → List (BBox Dim K) → KDTreeImpl Dim K × ℕ
  | s, [] => (s, 0)
  | s, box :: rest =>
    let (s, i) := s.boxDeleteOne env box
    let (s, n) := boxDeleteLoop env s rest
    (s, i + n)

def boxDelete (boxes : List (BBox Dim K)) : KDTreeImpl Dim K × ℕ :=
  let (s, cleared) := boxDeleteLoop env s boxes
  (if 0 < cleared then s.maybePartialRebuild env else s, cleared)

def radiusCrop (center : Point Dim K) (r : K) : KDTreeImpl Dim K × ℕ :=
  let (s, cleared) := s.radiusCropOne env center r
  (if 0 < cleared then s.maybePartialRebuild env else s, cleared)

def rebuildAll : KDTreeImpl Dim K :=
  let s := { s with pools := Pools.clear }
  let liveIndices := s.points.forEachLive.map Prod.fst
  if liveIndices = [] then { s with root := invalid } else s.rebuild env liveIndices

def size : ℕ := s.points.size

def knnSearch (query : Point Dim K) (k : ℕ) : List (Neighbor Dim K) :=
  SearchKernel.search env.std s.pools s.points s.root query k ⊤

def sizeMax : ℕ := 2 ^ 64 - 1

def radiusSearch (query : Point Dim K) (radius : K) : List (Neighbor Dim K) :=
  SearchKernel.search env.std s.pools s.points s.root query sizeMax
    ((radius * radius : K) : WithTop K)

def hybridSearch (query : Point Dim K) (k : ℕ) (radius : K) : List (Neighbor Dim K) :=
  SearchKernel.search env.std s.pools s.points s.root query k
    ((radius * radius : K) : WithTop K)

end KDTreeImpl
end Copse

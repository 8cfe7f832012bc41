import Copse.TreePools
import Copse.Region
import Copse.StdAlgorithm

set_option autoImplicit false

/-!
# The tree builder

`tree_builder.cpp` over explicit pools. A recursion over the nodes carries a
fuel argument; callers pass the size of the node pool, which no path of a
well-formed tree exceeds. A result that depends on the pools is returned next
to the pools it leaves behind.
-/
namespace Copse

/-- What the code takes from its surroundings: the library and the counter arithmetic. -/
structure Env (K : Type*) [LinearOrder K] where
  std : StdAlgorithm K
  counter : Counter

/-- The knobs a builder is constructed with. -/
structure TreeBuilder (K : Type*) [LinearOrder K] where
  env : Env K
  leafBucketSize : ℕ
  alpha : K
  tombstoneThreshold : K

namespace TreeBuilder
variable {Dim : ℕ} [NeZero Dim] {K : Type*} [Field K] [LinearOrder K]
open ExtendedField

def bboxOf (points : PointStore Dim K) (indices : List ℕ) : BBox Dim K :=
  indices.foldl (fun b i => b.expand (points.point i)) BBox.empty

/-- The first axis of widest extent over the subset. -/
def splitDimOf (points : PointStore Dim K) (indices : List ℕ) : Fin Dim :=
  let b := bboxOf points indices
  let range := fun dim => sub (b.maxCorner dim) (b.minCorner dim)
  (List.finRange Dim).foldl (fun best dim => if range best < range dim then dim else best) 0

def stamp (points : PointStore Dim K) (index : ℕ) : BucketEntry :=
  ⟨index, points.generation index⟩

def buildLeaf (c : Counter) (points : PointStore Dim K) (leafBucketSize : ℕ) (p : Pools Dim K)
    (nodeIdx : ℕ) (indices : List ℕ) : Pools Dim K :=
  let count := indices.length
  let cap := u16 (2 * leafBucketSize)
  let size := u16 count
  let (buckets, offset) := p.leafBuckets.allocate cap
  let buckets := buckets.fill offset (indices.map (stamp points))
  let bboxIdx := u32 p.leafBBoxes.length
  let p : Pools Dim K :=
    { p with leafBuckets := buckets, leafBBoxes := p.leafBBoxes ++ [bboxOf points indices] }
  p.setNode nodeIdx ⟨c.wrap count, c.wrap count, .leaf offset size cap bboxIdx⟩

/-- Build a subtree over `indices`; the new node's index is the pool size on entry. -/
def buildRecursive (env : Env K) (points : PointStore Dim K) (leafBucketSize : ℕ) :
    ℕ → Pools Dim K → List ℕ → Pools Dim K × ℕ
  | fuel, p, indices =>
    let count := indices.length
    let nodeIdx := u32 p.nodes.length
    let p := p.pushNode
    if count ≤ leafBucketSize then
      (buildLeaf env.counter points leafBucketSize p nodeIdx indices, nodeIdx)
    else
      match fuel with
      | 0 => (p, nodeIdx)
      | fuel + 1 =>
        let splitDim := splitDimOf points indices
        let mid := count / 2
        let parted := env.std.nthElement (fun i => points.point i splitDim) mid indices
        let splitValue := points.point (parted.getD mid 0) splitDim
        let (p, left) := buildRecursive env points leafBucketSize fuel p (parted.take mid)
        let (p, right) := buildRecursive env points leafBucketSize fuel p (parted.drop mid)
        let live := (p.node left).subtreeLiveCount + (p.node right).subtreeLiveCount
        let total := (p.node left).subtreeTotalCount + (p.node right).subtreeTotalCount
        (p.setNode nodeIdx ⟨env.counter.wrap live, env.counter.wrap total,
          .internal splitDim splitValue left right⟩, nodeIdx)

def collectLiveIndicesInSubtree (points : PointStore Dim K) :
    ℕ → Pools Dim K → ℕ → List ℕ
  | 0, _, _ => []
  | fuel + 1, p, nodeIdx =>
    match (p.node nodeIdx).body with
    | .leaf offset size _ _ => ((p.view offset size).filter points.valid).map BucketEntry.index
    | .internal _ _ left right =>
      collectLiveIndicesInSubtree points fuel p left ++
        collectLiveIndicesInSubtree points fuel p right

def rebuildSubtreeInPlace (env : Env K) (points : PointStore Dim K) (leafBucketSize : ℕ)
    (p : Pools Dim K) (scapegoat : ℕ) : Pools Dim K :=
  let liveIndices := collectLiveIndicesInSubtree points p.nodes.length p scapegoat
  let (p, newSubroot) :=
    buildRecursive env points leafBucketSize liveIndices.length p liveIndices
  p.setNode scapegoat (p.node newSubroot)

variable (b : TreeBuilder K)

def isViolator (p : Pools Dim K) (nodeIdx : ℕ) : Bool :=
  let n := p.node nodeIdx
  match n.body with
  | .leaf .. => false
  | .internal _ _ left right =>
    let total := n.subtreeTotalCount
    if total = 0 then false
    else
      let maxChild := max (p.node left).subtreeTotalCount (p.node right).subtreeTotalCount
      let unbalanced := decide (b.alpha * (total : K) < (maxChild : K))
      let tombstoned := decide (n.subtreeLiveCount < total) &&
        decide (b.tombstoneThreshold ≤
          ((total - n.subtreeLiveCount : ℤ) : K) / (total : K))
      unbalanced || tombstoned

def rebuildAt (points : PointStore Dim K) (p : Pools Dim K) (nodeIdx : ℕ) : Pools Dim K :=
  rebuildSubtreeInPlace b.env points b.leafBucketSize p nodeIdx

/-- Both sweeps: below a node that is not rebuilt, the children that `visit` accepts are swept. -/
def sweep (points : PointStore Dim K) (visit : ℕ → Bool) : ℕ → Pools Dim K → ℕ → Pools Dim K
  | 0, p, _ => p
  | fuel + 1, p, nodeIdx =>
    if nodeIdx = invalid then p
    else
      match (p.node nodeIdx).body with
      | .leaf _ size _ _ =>
        if 2 * b.leafBucketSize < size then b.rebuildAt points p nodeIdx else p
      | .internal _ _ left right =>
        if b.isViolator p nodeIdx then b.rebuildAt points p nodeIdx
        else
          let p := if visit left then sweep points visit fuel p left else p
          let p := if visit right then sweep points visit fuel p right else p
          if b.isViolator p nodeIdx then b.rebuildAt points p nodeIdx else p

def sweepFull (points : PointStore Dim K) (fuel : ℕ) (p : Pools Dim K) (nodeIdx : ℕ) :
    Pools Dim K :=
  b.sweep points (fun _ => true) fuel p nodeIdx

/-- `dirty` is sorted, so the binary search of the source is membership. -/
def sweepScoped (points : PointStore Dim K) (dirty : List ℕ) (fuel : ℕ) (p : Pools Dim K)
    (nodeIdx : ℕ) : Pools Dim K :=
  b.sweep points (fun i => decide (i ∈ dirty)) fuel p nodeIdx

/-- The descent of `insert_index` below `root_bbox_.expand`: count, push, split a full leaf. -/
def insertIndex (points : PointStore Dim K) (index : ℕ) :
    ℕ → Pools Dim K → ℕ → Pools Dim K
  | 0, p, _ => p
  | fuel + 1, p, nodeIdx =>
    let point := points.point index
    let c := b.env.counter
    let p := p.modifyNode nodeIdx (fun n => (n.addTotal c 1).addLive c 1)
    let n := p.node nodeIdx
    match n.body with
    | .leaf offset size capacity bboxIdx =>
      let (buckets, size, _) := p.leafBuckets.push offset size capacity (stamp points index)
      let p : Pools Dim K := { p with
        leafBuckets := buckets
        leafBBoxes := p.leafBBoxes.set bboxIdx ((p.bbox bboxIdx).expand point) }
      let p := p.setNode nodeIdx { n with body := .leaf offset size capacity bboxIdx }
      if size = capacity then b.rebuildAt points p nodeIdx else p
    | .internal dim split left right =>
      insertIndex points index fuel p (if point dim < split then left else right)

/-- Decrement along the descent path and record its internal nodes. -/
def tombstoneIndex (c : Counter) (point : Point Dim K) :
    ℕ → Pools Dim K → ℕ → List ℕ → Pools Dim K × List ℕ
  | 0, p, _, modified => (p, modified)
  | fuel + 1, p, nodeIdx, modified =>
    let p := p.modifyNode nodeIdx (TreeNode.addLive c (-1))
    match (p.node nodeIdx).body with
    | .leaf .. => (p, modified)
    | .internal dim split left right =>
      tombstoneIndex c point fuel p (if point dim < split then left else right)
        (modified ++ [nodeIdx])

/-- Scan a bucket and release its valid entries whose point is hit. -/
def clearEntries (hit : Point Dim K → Bool) :
    List BucketEntry → PointStore Dim K → PointStore Dim K × ℕ
  | [], points => (points, 0)
  | e :: es, points =>
    if !points.valid e || !hit (points.point e.index) then clearEntries hit es points
    else
      let (points, cleared) := clearEntries hit es (points.release e.index)
      (points, cleared + 1)

/-- Pools and points after a bulk release, and how many slots it released. -/
structure Released (Dim : ℕ) (K : Type*) where
  pools : Pools Dim K
  points : PointStore Dim K
  cleared : ℕ

def Released.discount (c : Counter) (r : Released Dim K) (nodeIdx : ℕ) : Released Dim K :=
  { r with pools := r.pools.modifyNode nodeIdx (TreeNode.addLive c (-(r.cleared : ℤ))) }

def releaseSubtree (c : Counter) :
    ℕ → Pools Dim K → PointStore Dim K → ℕ → Released Dim K
  | 0, p, points, _ => ⟨p, points, 0⟩
  | fuel + 1, p, points, nodeIdx =>
    match (p.node nodeIdx).body with
    | .leaf offset size _ _ =>
      let (points, cleared) := clearEntries (fun _ => true) (p.view offset size) points
      Released.discount c ⟨p, points, cleared⟩ nodeIdx
    | .internal _ _ left right =>
      let l := releaseSubtree c fuel p points left
      let r := releaseSubtree c fuel l.pools l.points right
      Released.discount c ⟨r.pools, r.points, l.cleared + r.cleared⟩ nodeIdx

def boxDeleteLeaf (queryBox : BBox Dim K) (entries : List BucketEntry) (points : PointStore Dim K) :
    PointStore Dim K × ℕ :=
  clearEntries queryBox.contains entries points

def radiusCropLeaf (center : Point Dim K) (sqRadius : K) (entries : List BucketEntry)
    (points : PointStore Dim K) : PointStore Dim K × ℕ :=
  clearEntries (fun x => decide (sqRadius < x.sqDist center)) entries points

/-- A recursive delete in progress: what it has done and the nodes it recorded. -/
structure Deletion (Dim : ℕ) (K : Type*) extends Released Dim K where
  modified : List ℕ

/-- Both recursive deletes: cut the partition box down on the way, stop at a
box that keeps or loses all its points, and test the points of a leaf. -/
def deleteRecurse (c : Counter) (rg : Region Dim K) :
    ℕ → Pools Dim K → PointStore Dim K → ℕ → BBox Dim K → List ℕ → Deletion Dim K
  | 0, p, points, _, _, modified => ⟨⟨p, points, 0⟩, modified⟩
  | fuel + 1, p, points, nodeIdx, partition, modified =>
    if rg.keeps partition then ⟨⟨p, points, 0⟩, modified⟩
    else if rg.clears partition then
      let r := releaseSubtree c p.nodes.length p points nodeIdx
      ⟨r, if r.cleared ≠ 0 then modified ++ [nodeIdx] else modified⟩
    else
      match (p.node nodeIdx).body with
      | .leaf offset size _ bboxIdx =>
        let leafBBox := p.bbox bboxIdx
        if rg.keeps leafBBox then ⟨⟨p, points, 0⟩, modified⟩
        else if rg.clears leafBBox then
          ⟨releaseSubtree c p.nodes.length p points nodeIdx, modified⟩
        else
          let (points, cleared) := clearEntries rg.hit (p.view offset size) points
          ⟨Released.discount c ⟨p, points, cleared⟩ nodeIdx, modified⟩
      | .internal dim split left right =>
        let l := deleteRecurse c rg fuel p points left (partition.left dim split) modified
        let r := deleteRecurse c rg fuel l.pools l.points right (partition.right dim split)
          l.modified
        let cleared := l.cleared + r.cleared
        ⟨Released.discount c ⟨r.pools, r.points, cleared⟩ nodeIdx,
          if cleared ≠ 0 then r.modified ++ [nodeIdx] else r.modified⟩

variable [IsStrictOrderedRing K]

def boxDeleteRecurse (c : Counter) (queryBox : BBox Dim K) (fuel : ℕ) (p : Pools Dim K)
    (points : PointStore Dim K) (nodeIdx : ℕ) (partition : BBox Dim K) (modified : List ℕ) :
    Deletion Dim K :=
  deleteRecurse c (Region.box queryBox) fuel p points nodeIdx partition modified

def radiusCropRecurse (c : Counter) (center : Point Dim K) (sqRadius : K) (fuel : ℕ)
    (p : Pools Dim K) (points : PointStore Dim K) (nodeIdx : ℕ) (partition : BBox Dim K)
    (modified : List ℕ) : Deletion Dim K :=
  deleteRecurse c (Region.crop center sqRadius) fuel p points nodeIdx partition modified

end TreeBuilder
end Copse

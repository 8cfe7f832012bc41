import Copse.PointStore

set_option autoImplicit false

/-!
# Nodes, buckets and leaf boxes

The three pools that the builder and the search kernel share. A node refers
to its children, its bucket slice and its leaf box by index, so a tree is a
set of pool cells; nothing in the types keeps two nodes from sharing one.
-/
namespace Copse

structure BucketEntry where
  index : ℕ
  gen : ℕ
  deriving DecidableEq, Inhabited

structure LeafBucket where
  data : List BucketEntry

namespace LeafBucket

def allocate (b : LeafBucket) (capacity : ℕ) : LeafBucket × ℕ :=
  (⟨b.data ++ List.replicate capacity ⟨0, 0⟩⟩, u32 b.data.length)

def view (b : LeafBucket) (offset size : ℕ) : List BucketEntry := (b.data.drop offset).take size

/-- Assign the entries of a slice from `offset` on, one by one. -/
def fill (b : LeafBucket) (offset : ℕ) : List BucketEntry → LeafBucket
  | [] => b
  | e :: es => fill ⟨b.data.set offset e⟩ (offset + 1) es

/-- The bucket pool and size after a push, and whether there was room. -/
def push (b : LeafBucket) (offset size capacity : ℕ) (entry : BucketEntry) :
    LeafBucket × ℕ × Bool :=
  if size = capacity then (b, size, false)
  else (⟨b.data.set (u32 (offset + size)) entry⟩, u16 (size + 1), true)

end LeafBucket

/-- The tagged union of a node: `leaf` when `is_leaf` is set. -/
inductive NodeBody (Dim : ℕ) (K : Type*) where
  | internal (splitDim : Fin Dim) (splitValue : K) (left right : ℕ)
  | leaf (bucketOffset bucketSize bucketCapacity leafBBoxIdx : ℕ)
  deriving DecidableEq

structure TreeNode (Dim : ℕ) (K : Type*) where
  /-- Live points in the subtree (excludes tombstones). -/
  subtreeLiveCount : ℤ
  /-- Includes tombstones. -/
  subtreeTotalCount : ℤ
  body : NodeBody Dim K

namespace TreeNode
variable {Dim : ℕ} {K : Type*}

def empty : TreeNode Dim K := ⟨0, 0, .leaf 0 0 0 invalid⟩

def isLeaf (n : TreeNode Dim K) : Bool :=
  match n.body with
  | .leaf .. => true
  | .internal .. => false

def addLive (c : Counter) (k : ℤ) (n : TreeNode Dim K) : TreeNode Dim K :=
  { n with subtreeLiveCount := c.wrap (n.subtreeLiveCount + k) }

def addTotal (c : Counter) (k : ℤ) (n : TreeNode Dim K) : TreeNode Dim K :=
  { n with subtreeTotalCount := c.wrap (n.subtreeTotalCount + k) }

end TreeNode

/-- `nodes_`, `leaf_buckets_` and `leaf_bboxes_`. -/
structure Pools (Dim : ℕ) (K : Type*) where
  nodes : List (TreeNode Dim K)
  leafBuckets : LeafBucket
  leafBBoxes : List (BBox Dim K)

namespace Pools
variable {Dim : ℕ} {K : Type*} [Field K]

def clear : Pools Dim K := ⟨[], ⟨[]⟩, []⟩

def node (p : Pools Dim K) (i : ℕ) : TreeNode Dim K := p.nodes.getD i TreeNode.empty

def bbox (p : Pools Dim K) (i : ℕ) : BBox Dim K := p.leafBBoxes.getD i BBox.zero

def pushNode (p : Pools Dim K) : Pools Dim K := { p with nodes := p.nodes ++ [TreeNode.empty] }

def setNode (p : Pools Dim K) (i : ℕ) (n : TreeNode Dim K) : Pools Dim K :=
  { p with nodes := p.nodes.set i n }

def modifyNode (p : Pools Dim K) (i : ℕ) (f : TreeNode Dim K → TreeNode Dim K) : Pools Dim K :=
  p.setNode i (f (p.node i))

def view (p : Pools Dim K) (offset size : ℕ) : List BucketEntry := p.leafBuckets.view offset size

end Pools

/-- The stale-entry test of every bucket scan: the stamp is current and the slot is live. -/
def PointStore.valid {Dim : ℕ} {K : Type*} [Field K] (s : PointStore Dim K) (e : BucketEntry) :
    Bool :=
  !(s.generation e.index != e.gen || !s.isLive e.index)

end Copse

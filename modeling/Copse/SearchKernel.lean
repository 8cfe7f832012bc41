import Copse.TreePools
import Copse.StdAlgorithm

set_option autoImplicit false

namespace Copse

structure Neighbor (Dim : ℕ) (K : Type*) where
  coord : Point Dim K
  sqDist : K

namespace SearchKernel
variable {Dim : ℕ} {K : Type*} [Field K] [LinearOrder K]

structure Best (Dim : ℕ) (K : Type*) where
  heap : List (HeapEntry K)
  worst : WithTop K
  minSqAxisDist : Fin Dim → K

def front (heap : List (HeapEntry K)) (worst : WithTop K) : WithTop K :=
  match heap with
  | [] => worst
  | e :: _ => (e.sqDist : WithTop K)

def offer (std : StdAlgorithm K) (kMax : ℕ) (e : HeapEntry K) (s : Best Dim K) :
    Best Dim K :=
  let heap := std.pushHeap (s.heap ++ [e])
  if kMax < heap.length then
    let heap := (std.popHeap heap).dropLast
    { s with heap := heap, worst := front heap s.worst }
  else if heap.length = kMax then { s with heap := heap, worst := front heap s.worst }
  else { s with heap := heap }

def scanLeaf (std : StdAlgorithm K) (points : PointStore Dim K) (query : Point Dim K) (kMax : ℕ) :
    List BucketEntry → Best Dim K → Best Dim K
  | [], s => s
  | e :: es, s =>
    if !points.valid e then scanLeaf std points query kMax es s
    else
      let sqDist := (points.point e.index).sqDist query
      if s.worst ≤ (sqDist : WithTop K) then scanLeaf std points query kMax es s
      else scanLeaf std points query kMax es (offer std kMax ⟨sqDist, e.index⟩ s)

def descend (std : StdAlgorithm K) (p : Pools Dim K) (points : PointStore Dim K)
    (query : Point Dim K) (kMax : ℕ) : ℕ → ℕ → K → Best Dim K → Best Dim K
  | 0, _, _, s => s
  | fuel + 1, nodeIdx, minSqDist, s =>
    if nodeIdx = invalid then s
    else
      match (p.node nodeIdx).body with
      | .leaf offset size _ _ => scanLeaf std points query kMax (p.view offset size) s
      | .internal dim split left right =>
        let diff := query dim - split
        let nearChild := if diff < 0 then left else right
        let farChild := if diff < 0 then right else left
        let s := descend std p points query kMax fuel nearChild minSqDist s
        -- crossing the split plane replaces the contribution of its axis
        let farMinSqDist := minSqDist - s.minSqAxisDist dim + diff * diff
        if (farMinSqDist : WithTop K) < s.worst then
          let savedAxisDist := s.minSqAxisDist dim
          let s := { s with minSqAxisDist := Function.update s.minSqAxisDist dim (diff * diff) }
          let s := descend std p points query kMax fuel farChild farMinSqDist s
          { s with minSqAxisDist := Function.update s.minSqAxisDist dim savedAxisDist }
        else s

def collectLeaf (points : PointStore Dim K) (query : Point Dim K) (sqRadius : K)
    (entries : List BucketEntry) : List ℕ :=
  ((entries.filter points.valid).filter
    (fun e => decide ((points.point e.index).sqDist query < sqRadius))).map BucketEntry.index

def collectDescend (p : Pools Dim K) (points : PointStore Dim K) (query : Point Dim K)
    (sqRadius : K) : ℕ → ℕ → List ℕ
  | 0, _ => []
  | fuel + 1, nodeIdx =>
    if nodeIdx = invalid then []
    else
      match (p.node nodeIdx).body with
      | .leaf offset size _ _ => collectLeaf points query sqRadius (p.view offset size)
      | .internal dim split left right =>
        let diff := query dim - split
        let nearChild := if diff < 0 then left else right
        let farChild := if diff < 0 then right else left
        collectDescend p points query sqRadius fuel nearChild ++
          if diff * diff < sqRadius then collectDescend p points query sqRadius fuel farChild
          else []

def anyWithinLeaf (points : PointStore Dim K) (query : Point Dim K) (sqRadius : K)
    (entries : List BucketEntry) : Bool :=
  (entries.filter points.valid).any
    (fun e => decide ((points.point e.index).sqDist query < sqRadius))

def anyWithinDescend (p : Pools Dim K) (points : PointStore Dim K) (query : Point Dim K)
    (sqRadius : K) : ℕ → ℕ → Bool
  | 0, _ => false
  | fuel + 1, nodeIdx =>
    if nodeIdx = invalid then false
    else
      match (p.node nodeIdx).body with
      | .leaf offset size _ _ => anyWithinLeaf points query sqRadius (p.view offset size)
      | .internal dim split left right =>
        let diff := query dim - split
        let nearChild := if diff < 0 then left else right
        let farChild := if diff < 0 then right else left
        if anyWithinDescend p points query sqRadius fuel nearChild then true
        else if diff * diff < sqRadius then anyWithinDescend p points query sqRadius fuel farChild
        else false

def search (std : StdAlgorithm K) (p : Pools Dim K) (points : PointStore Dim K) (root : ℕ)
    (query : Point Dim K) (kMax : ℕ) (initialSqRadius : WithTop K) : List (Neighbor Dim K) :=
  if root = invalid ∨ kMax = 0 then []
  else
    let best := descend std p points query kMax p.nodes.length root 0
      ⟨[], initialSqRadius, fun _ => 0⟩
    (std.sort best.heap).map (fun e => ⟨points.point e.index, e.sqDist⟩)

def collectIndicesWithin (p : Pools Dim K) (points : PointStore Dim K) (root : ℕ)
    (query : Point Dim K) (sqRadius : K) : List ℕ :=
  if root = invalid then []
  else collectDescend p points query sqRadius p.nodes.length root

def anyWithin (p : Pools Dim K) (points : PointStore Dim K) (root : ℕ) (query : Point Dim K)
    (sqRadius : K) : Bool :=
  if root = invalid then false
  else anyWithinDescend p points query sqRadius p.nodes.length root

end SearchKernel
end Copse

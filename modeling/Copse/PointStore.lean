import Copse.Words
import Copse.Geometry

set_option autoImplicit false

/-!
# The point store

Points, liveness, generation stamps and the FIFO ring of `PointStore`. Every
vector is a list of length `capacity`. `generations` counts the increments of
a slot's stamp, and `generation` reads that count modulo `2 ^ 32`, which is
the value of the 32-bit stamp.
-/
namespace Copse

structure PointStore (Dim : ℕ) (K : Type*) where
  capacity : ℕ
  live : ℕ
  points : List (Point Dim K)
  liveBits : List Bool
  generations : List ℕ
  buffer : List ℕ
  bufPos : List ℕ
  bufHead : ℕ
  bufTail : ℕ

namespace PointStore
variable {Dim : ℕ} {K : Type*} [Field K]

def iota (capacity : ℕ) : List ℕ := (List.range capacity).map u32

def create (capacity : ℕ) : Except String (PointStore Dim K) :=
  if capacity = 0 then .error "PointStore: capacity must be > 0"
  else .ok
    { capacity
      live := 0
      points := List.replicate capacity 0
      liveBits := List.replicate capacity false
      generations := List.replicate capacity 0
      buffer := iota capacity
      bufPos := List.replicate capacity invalid
      bufHead := 0
      bufTail := 0 }

def size (s : PointStore Dim K) : ℕ := s.live

def isLive (s : PointStore Dim K) (index : ℕ) : Bool :=
  decide (index < s.capacity) && s.liveBits.getD index false

def point (s : PointStore Dim K) (index : ℕ) : Point Dim K := s.points.getD index 0

def generation (s : PointStore Dim K) (index : ℕ) : ℕ := u32 (s.generations.getD index 0)

def bump (s : PointStore Dim K) (index : ℕ) : PointStore Dim K :=
  { s with generations := s.generations.set index (s.generations.getD index 0 + 1) }

def victim (s : PointStore Dim K) : ℕ := s.buffer.getD s.bufHead 0

/-- The eviction branch of `acquire`. -/
def evict (s : PointStore Dim K) : PointStore Dim K :=
  let victim := s.victim
  let s := s.bump victim
  { s with
    liveBits := s.liveBits.set victim false
    bufPos := s.bufPos.set victim invalid
    bufHead := u32 ((s.bufHead + 1) % s.capacity)
    live := s.live - 1 }

/-- Write a point at the tail of the ring and return its slot. -/
def append (s : PointStore Dim K) (point : Point Dim K) : PointStore Dim K × ℕ :=
  let index := s.buffer.getD s.bufTail 0
  let s := s.bump index
  ({ s with
    points := s.points.set index point
    liveBits := s.liveBits.set index true
    bufPos := s.bufPos.set index s.bufTail
    bufTail := u32 ((s.bufTail + 1) % s.capacity)
    live := s.live + 1 }, index)

def acquire (s : PointStore Dim K) (point : Point Dim K) : PointStore Dim K × ℕ :=
  (if s.live = s.capacity then s.evict else s).append point

def release (s : PointStore Dim K) (index : ℕ) : PointStore Dim K :=
  let pos := s.bufPos.getD index invalid
  let lastPos := u32 ((s.bufTail + s.capacity - 1) % s.capacity)
  let s := if pos ≠ lastPos then
      let moved := s.buffer.getD lastPos 0
      { s with buffer := s.buffer.set pos moved, bufPos := s.bufPos.set moved pos }
    else s
  { s with
    buffer := s.buffer.set lastPos index
    bufPos := s.bufPos.set index invalid
    liveBits := s.liveBits.set index false
    bufTail := lastPos
    live := s.live - 1 }

/-- The calls of the visitor, in order, with their arguments. -/
def forEachLive (s : PointStore Dim K) : List (ℕ × Point Dim K) :=
  go s.live s.bufHead
where
  go : ℕ → ℕ → List (ℕ × Point Dim K)
    | 0, _ => []
    | i + 1, pos =>
      let index := s.buffer.getD pos 0
      (index, s.point index) :: go i ((pos + 1) % s.capacity)

end PointStore
end Copse

import Copse.KDTreeUpdates
import Copse.SwapQueue
import Copse.TraceSimulation

set_option autoImplicit false

/-!
# What the tree is for

A bounded queue of points. Insertions take in the points that are not near one
of the queue, deletions remove points, and a search names nearest points of
the queue. Nothing here knows of slots, stamps, nodes or buckets.
-/
namespace Copse
open QueueOutline SwapQueue TransitionRuns

inductive Call (Dim : ℕ) (K : Type*) where
  | update (op : Op Dim K)
  | knn (query : Point Dim K) (k : ℕ)
  | radius (query : Point Dim K) (r : K)
  | hybrid (query : Point Dim K) (k : ℕ) (r : K)
  | size

inductive Answer (Dim : ℕ) (K : Type*) where
  | count (n : ℕ)
  | found (result : List (Neighbor Dim K))

namespace PointQueue
variable {Dim : ℕ} {K : Type*} [Field K] [LinearOrder K]

/-- An answer to a search for at most `k` points below the bound: points of the queue, each as
often as it is in there, with the least distances in order. -/
structure NearestIn (q : List (Point Dim K)) (query : Point Dim K) (k : ℕ∞) (bound : WithTop K)
    (result : List (Neighbor Dim K)) : Prop where
  sorted : result.Pairwise (fun x y => x.sqDist ≤ y.sqDist)
  points : ∃ picked : List (Point Dim K), picked.Subperm q ∧
    result = picked.map (fun x => ⟨x, x.sqDist query⟩)
  length : (result.length : ℕ∞) =
    min k (q.filter (fun x => decide ((x.sqDist query : WithTop K) < bound))).length
  distances : result.map Neighbor.sqDist =
    (((q.filter (fun x => decide ((x.sqDist query : WithTop K) < bound))).map
      (fun x => x.sqDist query)).insertionSort (· ≤ ·)).take result.length

def near (cfg : Config K) (y x : Point Dim K) : Bool :=
  decide (y.sqDist x < cfg.resolution * cfg.resolution)

inductive Next (cfg : Config K) :
    List (Point Dim K) → Call Dim K × Answer Dim K → List (Point Dim K) → Prop where
  | insert (q batch : List (Point Dim K)) :
    Next cfg q (.update (.insert batch), .count (admitAll (near cfg) cfg.capacity q batch).2)
      (admitAll (near cfg) cfg.capacity q batch).1
  | delete {q q' : List (Point Dim K)} {n : ℕ} (op : Op Dim K) (hop : ∀ batch, op ≠ .insert batch)
      (removed : RemovedEach q (op.rounds (cfg.resolution * cfg.resolution)) q' n) :
    Next cfg q (.update op, .count n) q'
  | knn {q : List (Point Dim K)} {result : List (Neighbor Dim K)} (query : Point Dim K) (k : ℕ)
      (nearest : NearestIn q query k ⊤ result) : Next cfg q (.knn query k, .found result) q
  | radius {q : List (Point Dim K)} {result : List (Neighbor Dim K)} (query : Point Dim K) (r : K)
      (nearest : NearestIn q query ⊤ ((r * r : K) : WithTop K) result) :
    Next cfg q (.radius query r, .found result) q
  | hybrid {q : List (Point Dim K)} {result : List (Neighbor Dim K)} (query : Point Dim K) (k : ℕ)
      (r : K) (nearest : NearestIn q query k ((r * r : K) : WithTop K) result) :
    Next cfg q (.hybrid query k r, .found result) q
  | size (q : List (Point Dim K)) : Next cfg q (.size, .count q.length) q

def tally (capacity : ℕ) (m : ℕ) : Call Dim K × Answer Dim K → ℕ
  | (.update (.insert _), .count n) => min capacity (m + n)
  | (.update _, .count n) => m - n
  | _ => m

/-- A point of the queue owes its place to an insertion that took something in, and no deletion
since then was about it. -/
def Justified (cfg : Config K) (past : List (Call Dim K × Answer Dim K)) (x : Point Dim K) : Prop :=
  ∃ before batch n after, past = before ++ (.update (.insert batch), .count n) :: after ∧
    x ∈ batch ∧ 0 < n ∧ ∀ m ∈ after, ∀ op, m.1 = .update op →
      op.deletes (cfg.resolution * cfg.resolution) x = false

section
variable {cfg : Config K} {q q' : List (Point Dim K)} {i : Call Dim K × Answer Dim K}
variable {past l : List (Call Dim K × Answer Dim K)}

theorem Next.length (h : Next cfg q i q') (hcap : 0 < cfg.capacity) (hle : q.length ≤ cfg.capacity) :
    q'.length = tally cfg.capacity q.length i ∧ q'.length ≤ cfg.capacity := by
  cases h with
  | insert =>
    have hlen : ∀ batch, (admitAll (near cfg) cfg.capacity q batch).1.length = _ :=
      length_admitAll hcap hle
    exact ⟨hlen _, (hlen _).trans_le (Nat.min_le_left _ _)⟩
  | @delete _ n op hop removed =>
    have hlen := removed.length_add
    have htally : tally cfg.capacity q.length (Call.update op, Answer.count n) = q.length - n := by
      cases op with
      | insert batch => exact absurd rfl (hop batch)
      | remove | boxDelete | radiusCrop | rebuildAll => rfl
    rw [htally]
    omega
  | knn | radius | hybrid | size => exact ⟨rfl, hle⟩

theorem Justified.snoc {x : Point Dim K} (h : Justified cfg past x)
    (hi : ∀ op, i.1 = .update op → op.deletes (cfg.resolution * cfg.resolution) x = false) :
    Justified cfg (past ++ [i]) x := by
  obtain ⟨before, batch, n, after, rfl, hx, hn, hafter⟩ := h
  refine ⟨before, batch, n, after ++ [i], by simp, hx, hn, fun m hm => ?_⟩
  rcases List.mem_append.mp hm with hm | hm
  · exact hafter m hm
  · rw [List.mem_singleton.mp hm]
    exact hi

theorem Next.justified (h : Next cfg q i q') (hq : ∀ x ∈ q, Justified cfg past x) :
    ∀ x ∈ q', Justified cfg (past ++ [i]) x := by
  intro x hx
  cases h with
  | insert batch =>
    rcases mem_admitAll hx with hx | ⟨hx, hn⟩
    · refine (hq x hx).snoc (fun op hop => ?_)
      cases hop
      rfl
    · exact ⟨past, batch, _, [], rfl, hx, hn, by simp⟩
  | delete op hop removed =>
    obtain ⟨hmem, hkeep⟩ := removed.mem hx
    refine (hq x hmem).snoc (fun op' hop' => ?_)
    cases hop'
    rw [← Bool.not_eq_true, ← Op.exists_round_iff]
    rintro ⟨hit, hhit, htrue⟩
    rw [hkeep hit hhit] at htrue
    cases htrue
  | knn | radius | hybrid | size => exact (hq x hx).snoc (by simp)

theorem length_tally (h : Trace (Next cfg) [] l q) (hcap : 0 < cfg.capacity) :
    q.length = l.foldl (tally cfg.capacity) 0 := by
  refine (h.history (P := fun past q => q.length = past.foldl (tally cfg.capacity) 0 ∧
    q.length ≤ cfg.capacity) (fun past q i q' hq hnext => ?_) ⟨rfl, Nat.zero_le _⟩).1
  obtain ⟨hlen, hle⟩ := hnext.length hcap hq.2
  rw [List.foldl_concat, ← hq.1]
  exact ⟨hlen, hle⟩

theorem all_justified (h : Trace (Next cfg) [] l q) : ∀ x ∈ q, Justified cfg l x :=
  h.history (P := fun past q => ∀ x ∈ q, Justified cfg past x)
    (fun _ _ _ _ hq hnext => hnext.justified hq) (by simp)

theorem NearestIn.mem {query : Point Dim K} {k : ℕ∞} {bound : WithTop K}
    {result : List (Neighbor Dim K)} (h : NearestIn q query k bound result) {x : Neighbor Dim K}
    (hx : x ∈ result) : x.coord ∈ q ∧ x.sqDist = x.coord.sqDist query := by
  obtain ⟨picked, hsub, rfl⟩ := h.points
  obtain ⟨y, hy, rfl⟩ := List.mem_map.mp hx
  exact ⟨hsub.subset hy, rfl⟩

end
end PointQueue
end Copse

import Copse.PointStoreEffects
import Copse.TransitionRuns

set_option autoImplicit false

namespace Copse
open TransitionRuns

inductive StoreOp (Dim : ℕ) (K : Type*) where
  | acquire (point : Point Dim K)
  | release (index : ℕ)

namespace PointStore
variable {Dim : ℕ} {K : Type*} [Field K]

def step (s : PointStore Dim K) : StoreOp Dim K → PointStore Dim K
  | .acquire point => (s.acquire point).1
  | .release index => s.release index

def Permits (s : PointStore Dim K) : StoreOp Dim K → Prop
  | .acquire _ => True
  | .release index => s.isLive index = true

def StoreReachable (capacity : ℕ) : PointStore Dim K → Prop :=
  Reach (fun s => PointStore.create capacity = .ok s) (fun s op s' => s.Permits op ∧ s' = s.step op)

/-- The arrays of a store say the same about its slots. -/
structure Consistent (s : PointStore Dim K) : Prop where
  buffer_perm : s.buffer.Perm (List.range s.capacity)
  occupied : ∀ i, s.isLive i = true ↔
    ∃ j < s.live, s.buffer.getD ((s.bufHead + j) % s.capacity) 0 = i
  tail : s.bufTail = (s.bufHead + s.live) % s.capacity
  position : ∀ i, s.isLive i = true →
    s.bufPos.getD i invalid < s.capacity ∧ s.buffer[s.bufPos.getD i invalid]? = some i
  sentinel : ∀ i < s.capacity, s.isLive i = false → s.bufPos[i]? = some invalid
  live_le : s.live ≤ s.capacity
  handed_out : ∀ x, (if s.live = s.capacity then s.evict else s).isLive (s.acquire x).2 = false
  not_live : ∀ x, s.live < s.capacity → s.isLive (s.acquire x).2 = false
  victim : ∀ x, s.live = s.capacity → (s.acquire x).2 = s.victim ∧ s.isLive s.victim = true
  written : ∀ x i, (s.acquire x).1.point i = if i = (s.acquire x).2 then x else s.point i
  visited_once : (s.forEachLive.map Prod.fst).Nodup
  visited : ∀ i x, (i, x) ∈ s.forEachLive ↔ s.isLive i = true ∧ x = s.point i

section
variable {s : PointStore Dim K} {window free : List ℕ} {i : ℕ}

omit [Field K] in
theorem Ring.exists_position (h : Ring s window free) (hi : i ∈ window) :
    ∃ j < window.length, s.bufPos[i]? = some ((s.bufHead + j) % s.capacity) ∧
      s.buffer[(s.bufHead + j) % s.capacity]? = some i := by
  obtain ⟨j, hj⟩ := List.mem_iff_getElem?.mp hi
  have hlt := (List.getElem?_eq_some_iff.mp hj).choose
  have hlen := h.length_add
  refine ⟨j, hlt, ?_, ?_⟩
  · rw [add_comm]
    exact h.position j i hj
  · rw [add_comm, CyclicWindow.getElem?_position h.buffer_length (by omega), h.view,
      List.getElem?_append_left hlt]
    exact hj

theorem forEachLive_snd (s : PointStore Dim K) : ∀ m ∈ s.forEachLive, m.2 = s.point m.1 := by
  have go : ∀ n pos, ∀ m ∈ forEachLive.go s n pos, m.2 = s.point m.1 := by
    intro n
    induction n with
    | zero => simp [forEachLive.go]
    | succ n ih => exact fun pos => List.forall_mem_cons.mpr ⟨rfl, ih _⟩
  exact go s.live s.bufHead

theorem Ring.consistent (h : Ring s window free) : Consistent s := by
  have hlen := h.length_add
  refine
    { buffer_perm := ?_
      occupied := ?_
      tail := ?_
      position := ?_
      sentinel := ?_
      live_le := ?_
      handed_out := ?_
      not_live := fun x hroom => acquire_not_live x h hroom.ne
      victim := ?_
      written := fun x j => acquire_point x h j
      visited_once := ?_
      visited := ?_ }
  · have hview := h.perm
    rw [← h.view] at hview
    exact (List.rotate_perm s.buffer s.bufHead).symm.trans hview
  · intro i
    rw [h.isLive_iff, h.live]
    constructor
    · intro hi
      obtain ⟨j, hj, -, hcell⟩ := h.exists_position hi
      exact ⟨j, hj, by rw [List.getD_eq_getElem?_getD, hcell]; rfl⟩
    · rintro ⟨j, hj, rfl⟩
      have hcell : (window ++ free)[j]? = some window[j] := by
        rw [List.getElem?_append_left hj, List.getElem?_eq_getElem hj]
      rw [add_comm, h.buffer_getD hcell]
      exact List.getElem_mem hj
  · rw [h.tail, h.live, add_comm]
  · intro i hi
    obtain ⟨j, -, hpos, hcell⟩ := h.exists_position ((h.isLive_iff i).mp hi)
    rw [List.getD_eq_getElem?_getD, hpos]
    exact ⟨Nat.mod_lt _ h.pos, hcell⟩
  · intro i hi hlive
    have hfree : i ∈ window ++ free := h.perm.mem_iff.mpr (List.mem_range.mpr hi)
    refine h.unused i ((List.mem_append.mp hfree).resolve_left ?_)
    rw [← h.isLive_iff, hlive]
    exact Bool.false_ne_true
  · rw [h.live]
    omega
  · intro x
    obtain ⟨window', free', hring, -, -⟩ := acquire_cases x h
    rw [Bool.eq_false_iff, ne_eq, hring.isLive_iff]
    exact hring.not_mem_of_free List.mem_cons_self
  · intro x hfull
    obtain ⟨-, -, -, -, hv⟩ := acquire_cases x h
    refine ⟨(hv hfull).symm, ?_⟩
    obtain ⟨v, rest, rfl, rfl⟩ := h.exists_oldest hfull
    rw [(evict_ring h).1]
    exact (h.isLive_iff v).mpr List.mem_cons_self
  · rw [forEachLive_fst h]
    exact h.window_nodup
  · intro i x
    rw [h.isLive_iff, ← forEachLive_fst h]
    constructor
    · exact fun hm => ⟨List.mem_map.mpr ⟨_, hm, rfl⟩, forEachLive_snd s _ hm⟩
    · rintro ⟨hi, rfl⟩
      obtain ⟨m, hm, rfl⟩ := List.mem_map.mp hi
      rw [← forEachLive_snd s m hm]
      exact hm

omit [Field K] in
theorem release_ring (h : Ring s window free) (hi : s.isLive i = true) :
    ∃ window' free', Ring (s.release i) window' free' := by
  obtain ⟨window', hring, -⟩ := release_swapRemoved h ((h.isLive_iff i).mp hi)
  exact ⟨window', i :: free, hring⟩

omit [Field K] in
theorem step_ring {op : StoreOp Dim K} (h : ∃ window free, Ring s window free)
    (hop : s.Permits op) : ∃ window free, Ring (s.step op) window free := by
  obtain ⟨window, free, hring⟩ := h
  cases op with
  | acquire x =>
    obtain ⟨free', hring'⟩ := acquire_ring hring x
    exact ⟨_, _, hring'⟩
  | release i => exact release_ring hring hop

theorem StoreReachable.ring {capacity : ℕ} (small : capacity < 2 ^ 32)
    (h : StoreReachable capacity s) : ∃ window free, Ring s window free := by
  refine Reach.invariant (P := fun s => ∃ window free, Ring s window free) ?_ ?_ h
  · exact fun s hs => ⟨_, _, create_ring small hs⟩
  · rintro s op s' - hs ⟨hop, rfl⟩
    exact step_ring hs hop

end

structure Releases (s : PointStore Dim K) (calls : List (PointStore Dim K × ℕ))
    (s' : PointStore Dim K) : Prop where
  chain : Chain release s calls s'
  live : ∀ m ∈ calls, m.1.isLive m.2 = true

omit [Field K]

section
variable {s s' s'' : PointStore Dim K} {calls calls' : List (PointStore Dim K × ℕ)}

theorem Releases.nil (s : PointStore Dim K) : Releases s [] s := ⟨.nil s, by simp⟩

theorem Releases.cons {i : ℕ} (hi : s.isLive i = true) (h : Releases (s.release i) calls s') :
    Releases s ((s, i) :: calls) s' :=
  ⟨.cons i h.chain, List.forall_mem_cons.mpr ⟨hi, h.live⟩⟩

theorem Releases.append (h : Releases s calls s') (h' : Releases s' calls' s'') :
    Releases s (calls ++ calls') s'' :=
  ⟨h.chain.append h'.chain, List.forall_mem_append.mpr ⟨h.live, h'.live⟩⟩

theorem Releases.ring (h : Releases s calls s') (hr : ∃ window free, Ring s window free) :
    ∀ m ∈ calls, ∃ window free, Ring m.1 window free := by
  refine (h.chain.invariant (P := fun s => ∃ window free, Ring s window free) ?_ hr).1
  rintro m hm ⟨window, free, hring⟩
  exact release_ring hring (h.live m hm)

end
end PointStore
end Copse

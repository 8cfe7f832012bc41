import Copse.PointStoreRing
import Copse.TreePools

set_option autoImplicit false

namespace Copse.PointStore

variable {Dim : ℕ} {K : Type*} [Field K]

/-- How often the stamp of a slot was incremented. -/
def stampCount (s : PointStore Dim K) (i : ℕ) : ℕ := s.generations.getD i 0

def StampsFit (s : PointStore Dim K) : Prop := ∀ i, s.stampCount i < 2 ^ 32

omit [Field K] in
theorem generation_eq {s : PointStore Dim K} (h : s.StampsFit) (i : ℕ) :
    s.generation i = s.stampCount i := u32_of_lt (h i)

theorem valid_iff (s : PointStore Dim K) (e : BucketEntry) :
    s.valid e = true ↔ s.generation e.index = e.gen ∧ s.isLive e.index = true := by
  simp [valid]

section release
variable (s : PointStore Dim K) (i : ℕ)

omit [Field K] in
@[simp] theorem release_capacity : (s.release i).capacity = s.capacity := by
  simp only [release]
  split_ifs <;> rfl

@[simp] theorem release_point (j : ℕ) : (s.release i).point j = s.point j := by
  simp only [release, point]
  split_ifs <;> rfl

section
omit [Field K]

@[simp] theorem release_stampCount (j : ℕ) : (s.release i).stampCount j = s.stampCount j := by
  simp only [release, stampCount]
  split_ifs <;> rfl

@[simp] theorem release_generation (j : ℕ) : (s.release i).generation j = s.generation j :=
  congrArg u32 (release_stampCount s i j)

theorem release_isLive (j : ℕ) :
    (s.release i).isLive j = (s.isLive j && decide (j ≠ i)) := by
  have hbits : (s.release i).liveBits = s.liveBits.set i false := by
    simp only [release]
    split_ifs <;> rfl
  simp only [isLive, release_capacity, hbits, List.getD_eq_getElem?_getD, List.getElem?_set]
  by_cases hij : i = j
  · subst hij
    by_cases hl : i < s.liveBits.length <;> simp [hl]
  · simp [hij, Ne.symm hij]

end

theorem release_valid (e : BucketEntry) :
    (s.release i).valid e = (s.valid e && decide (e.index ≠ i)) := by
  rw [Bool.eq_iff_iff, valid_iff, Bool.and_eq_true, valid_iff, release_generation, release_isLive,
    Bool.and_eq_true, and_assoc]

end release

section acquire
variable {s : PointStore Dim K} {window free : List ℕ} (p : Point Dim K)

section
omit [Field K]

theorem bump_stampCount (s : PointStore Dim K) (v i : ℕ) :
    (s.bump v).stampCount i =
      if v = i ∧ v < s.generations.length then s.stampCount i + 1 else s.stampCount i := by
  simp only [bump, stampCount, List.getD_eq_getElem?_getD, List.getElem?_set]
  by_cases hvi : v = i
  · subst hvi
    by_cases hl : v < s.generations.length <;> simp [hl]
  · simp [hvi]

theorem acquire_cases (h : Ring s window free) :
    ∃ window' free', Ring (if s.live = s.capacity then s.evict else s) window'
        ((s.acquire p).2 :: free') ∧ window' = window.erase (s.acquire p).2 ∧
      (s.live = s.capacity → s.victim = (s.acquire p).2) := by
  by_cases hfull : s.live = s.capacity
  · obtain ⟨v, rest, rfl, rfl⟩ := h.exists_oldest hfull
    obtain ⟨hv, hring⟩ := evict_ring h
    have hidx := (append_ring hring p).1
    simp only [acquire, hfull, ↓reduceIte, hidx, List.erase_cons_head]
    exact ⟨rest, [], hring, rfl, fun _ => hv⟩
  · cases free with
    | nil => exact absurd (h.full_iff.mpr rfl) hfull
    | cons x rest =>
      have hidx := (append_ring h p).1
      have hx : x ∉ window := h.not_mem_of_free List.mem_cons_self
      simp only [acquire, hfull, ↓reduceIte, hidx, List.erase_of_not_mem hx]
      exact ⟨window, rest, h, rfl, fun hf => hf.elim⟩

@[simp] theorem acquire_capacity : (s.acquire p).1.capacity = s.capacity := by
  simp only [acquire, append, evict, bump]
  split_ifs <;> rfl

theorem acquire_lt (h : Ring s window free) : (s.acquire p).2 < s.capacity := by
  obtain ⟨free', hring⟩ := acquire_ring h p
  have hlt := hring.mem_lt (List.mem_append_left _ (List.mem_append_right _ List.mem_cons_self))
  rwa [acquire_capacity] at hlt

theorem acquire_isLive (h : Ring s window free) (j : ℕ) :
    (s.acquire p).1.isLive j = true ↔ s.isLive j = true ∨ j = (s.acquire p).2 := by
  obtain ⟨free', hring⟩ := acquire_ring h p
  rw [hring.isLive_iff, h.isLive_iff, List.mem_append, List.mem_singleton,
    h.window_nodup.mem_erase_iff]
  by_cases hj : j = (s.acquire p).2 <;> simp [hj]

theorem acquire_self_live (h : Ring s window free) :
    (s.acquire p).1.isLive (s.acquire p).2 = true :=
  (acquire_isLive p h _).mpr (Or.inr rfl)

theorem acquire_not_live (h : Ring s window free) (hroom : s.live ≠ s.capacity) :
    s.isLive (s.acquire p).2 = false := by
  rw [Bool.eq_false_iff, ne_eq, h.isLive_iff]
  cases free with
  | nil => exact absurd (h.full_iff.mpr rfl) hroom
  | cons x rest =>
    have hidx := (append_ring h p).1
    simp only [acquire, hroom, ↓reduceIte, hidx]
    exact h.not_mem_of_free List.mem_cons_self

end

theorem acquire_point (h : Ring s window free) (j : ℕ) :
    (s.acquire p).1.point j = if j = (s.acquire p).2 then p else s.point j := by
  have hlt := acquire_lt p h
  have hpts : (s.acquire p).1.points = s.points.set (s.acquire p).2 p := by
    simp only [acquire, append, evict, bump]
    split_ifs <;> rfl
  simp only [point, hpts, List.getD_eq_getElem?_getD, List.getElem?_set]
  by_cases hj : (s.acquire p).2 = j
  · subst hj
    simp [h.points_length, hlt]
  · simp [hj, Ne.symm hj]

omit [Field K]

theorem acquire_stampCount (h : Ring s window free) (j : ℕ) :
    (s.acquire p).1.stampCount j =
      if j = (s.acquire p).2 then s.stampCount j + (if s.live = s.capacity then 2 else 1)
      else s.stampCount j := by
  have hlt : (s.acquire p).2 < s.generations.length := by
    rw [h.generations_length]
    exact acquire_lt p h
  obtain ⟨window', free', -, -, hv⟩ := acquire_cases p h
  by_cases hfull : s.live = s.capacity
  · have hidx : s.evict.buffer.getD s.evict.bufTail 0 = (s.acquire p).2 := by
      simp only [acquire, hfull, ↓reduceIte, append]
    have hgens : (s.acquire p).1.stampCount j =
        ((s.bump s.victim).bump (s.acquire p).2).stampCount j := by
      rw [← hidx]
      simp only [acquire, hfull, ↓reduceIte]
      rfl
    have hlen : (s.bump s.victim).generations.length = s.generations.length := by simp [bump]
    rw [hgens, bump_stampCount, bump_stampCount, hlen, hv hfull]
    by_cases hj : j = (s.acquire p).2
    · subst hj
      simp [hlt, hfull]
    · simp [hj, Ne.symm hj]
  · have hgens : (s.acquire p).1.stampCount j = (s.bump (s.acquire p).2).stampCount j := by
      simp only [acquire, hfull, ↓reduceIte]
      rfl
    rw [hgens, bump_stampCount]
    by_cases hj : j = (s.acquire p).2
    · subst hj
      simp [hlt, hfull]
    · simp [hj, Ne.symm hj]

theorem acquire_stampCount_self (h : Ring s window free) :
    s.stampCount (s.acquire p).2 < (s.acquire p).1.stampCount (s.acquire p).2 := by
  rw [acquire_stampCount p h, if_pos rfl]
  split_ifs <;> omega

theorem acquire_stampCount_le (h : Ring s window free) (j : ℕ) :
    s.stampCount j ≤ (s.acquire p).1.stampCount j := by
  rw [acquire_stampCount p h]
  split_ifs <;> omega

end acquire
end Copse.PointStore

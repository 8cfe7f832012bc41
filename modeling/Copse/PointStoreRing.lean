import Copse.PointStore
import Copse.CyclicWindow
import Copse.QueueOutline

set_option autoImplicit false

namespace Copse.PointStore
open CyclicWindow QueueOutline

variable {Dim : ℕ} {K : Type*} [Field K]

/-- The ring of `s` holds the live slots `window`, then the free slots `free`. -/
structure Ring (s : PointStore Dim K) (window free : List ℕ) : Prop where
  pos : 0 < s.capacity
  small : s.capacity < 2 ^ 32
  points_length : s.points.length = s.capacity
  bits_length : s.liveBits.length = s.capacity
  generations_length : s.generations.length = s.capacity
  buffer_length : s.buffer.length = s.capacity
  bufPos_length : s.bufPos.length = s.capacity
  perm : (window ++ free).Perm (List.range s.capacity)
  live : s.live = window.length
  head : s.bufHead < s.capacity
  tail : s.bufTail = (window.length + s.bufHead) % s.capacity
  view : s.buffer.rotate s.bufHead = window ++ free
  position : ∀ j i, window[j]? = some i → s.bufPos[i]? = some ((j + s.bufHead) % s.capacity)
  unused : ∀ i ∈ free, s.bufPos[i]? = some invalid
  bits : ∀ i, i < s.capacity → s.liveBits[i]? = some (decide (i ∈ window))

omit [Field K] in
theorem u32_mod {s : PointStore Dim K} (pos : 0 < s.capacity) (small : s.capacity < 2 ^ 32) (n : ℕ) :
    u32 (n % s.capacity) = n % s.capacity :=
  u32_of_lt ((Nat.mod_lt n pos).trans small)

section
variable {s : PointStore Dim K} {window free : List ℕ}

section
omit [Field K]

theorem Ring.nodup (h : Ring s window free) : (window ++ free).Nodup :=
  h.perm.nodup_iff.mpr List.nodup_range

theorem Ring.window_nodup (h : Ring s window free) : window.Nodup :=
  (List.nodup_append.mp h.nodup).1

theorem Ring.not_mem_of_free (h : Ring s window free) {i : ℕ} (hi : i ∈ free) : i ∉ window :=
  fun hw => (List.nodup_append.mp h.nodup).2.2 i hw i hi rfl

theorem Ring.length_add (h : Ring s window free) : window.length + free.length = s.capacity := by
  have hl := h.perm.length_eq
  simpa using hl

theorem Ring.mem_lt (h : Ring s window free) {i : ℕ} (hi : i ∈ window ++ free) :
    i < s.capacity :=
  List.mem_range.mp (h.perm.mem_iff.mp hi)

theorem Ring.bits_set (h : Ring s window free) {i : ℕ} (window' : List ℕ) (hi : i < s.capacity)
    (hmem : ∀ x, x ≠ i → (x ∈ window' ↔ x ∈ window)) (x : ℕ) (hx : x < s.capacity) :
    (s.liveBits.set i (decide (i ∈ window')))[x]? = some (decide (x ∈ window')) := by
  by_cases hix : i = x
  · subst hix
    exact List.getElem?_set_self (by rw [h.bits_length]; exact hi)
  · rw [List.getElem?_set_ne hix, h.bits x hx]
    simp only [hmem x (Ne.symm hix)]

theorem Ring.bufPos_set_self (h : Ring s window free) {i : ℕ} (hi : i < s.capacity) (v : ℕ) :
    (s.bufPos.set i v)[i]? = some v :=
  List.getElem?_set_self (by rw [h.bufPos_length]; exact hi)

theorem Ring.isLive_iff (h : Ring s window free) (i : ℕ) : s.isLive i = true ↔ i ∈ window := by
  constructor
  · intro hi
    simp only [isLive, Bool.and_eq_true, decide_eq_true_eq] at hi
    have hb := h.bits i hi.1
    rw [List.getD_eq_getElem?_getD, hb] at hi
    simpa using hi.2
  · intro hi
    have hlt := h.mem_lt (List.mem_append_left _ hi)
    simp only [isLive, Bool.and_eq_true, decide_eq_true_eq]
    refine ⟨hlt, ?_⟩
    rw [List.getD_eq_getElem?_getD, h.bits i hlt]
    simpa using hi

theorem Ring.buffer_getD (h : Ring s window free) {j i : ℕ} (hj : (window ++ free)[j]? = some i) :
    s.buffer.getD ((j + s.bufHead) % s.capacity) 0 = i := by
  have hlt : j < s.capacity := by
    have hl := (List.getElem?_eq_some_iff.mp hj).choose
    rwa [h.perm.length_eq, List.length_range] at hl
  rw [List.getD_eq_getElem?_getD, getElem?_position h.buffer_length hlt, h.view, hj]
  rfl

end

theorem iota_eq {c : ℕ} (small : c < 2 ^ 32) : iota c = List.range c := by
  refine (List.map_congr_left ?_).trans (List.map_id _)
  intro i hi
  exact u32_of_lt ((List.mem_range.mp hi).trans small)

theorem create_capacity {c : ℕ} (h : PointStore.create c = .ok s) : s.capacity = c := by
  unfold PointStore.create at h
  split at h
  · cases h
  · injection h with h
    rw [← h]

theorem create_ring {c : ℕ} (small : c < 2 ^ 32) (h : PointStore.create c = .ok s) :
    Ring s [] (List.range c) := by
  unfold PointStore.create at h
  split at h
  · cases h
  · rename_i hc
    injection h with h
    subst h
    have hpos : 0 < c := Nat.pos_of_ne_zero hc
    exact
      { pos := hpos
        small := small
        points_length := List.length_replicate
        bits_length := List.length_replicate
        generations_length := List.length_replicate
        buffer_length := by simp [iota_eq small]
        bufPos_length := List.length_replicate
        perm := List.Perm.refl _
        live := rfl
        head := hpos
        tail := by simp
        view := by simp [iota_eq small]
        position := by simp
        unused := by
          intro i hi
          exact List.getElem?_replicate_of_lt (List.mem_range.mp hi)
        bits := by
          intro i hi
          simpa using List.getElem?_replicate_of_lt hi }

omit [Field K] in
theorem append_ring {x : ℕ} (h : Ring s window (x :: free)) (p : Point Dim K) :
    (s.append p).2 = x ∧ Ring (s.append p).1 (window ++ [x]) free := by
  have hcell : (window ++ x :: free)[window.length]? = some x := by simp
  have hindex : s.buffer.getD s.bufTail 0 = x := by
    rw [h.tail]
    exact h.buffer_getD hcell
  have hx : x < s.capacity := h.mem_lt (by simp)
  have hxw : x ∉ window := h.not_mem_of_free List.mem_cons_self
  have hbits := h.bits_set (window ++ [x]) hx (fun y hy => by simp [hy])
  rw [decide_eq_true (List.mem_append_right window (List.mem_singleton_self x))] at hbits
  refine ⟨hindex, ?_⟩
  simp only [append, hindex, bump]
  exact
    { pos := h.pos
      small := h.small
      points_length := by simp [h.points_length]
      bits_length := by simp [h.bits_length]
      generations_length := by simp [h.generations_length]
      buffer_length := h.buffer_length
      bufPos_length := by simp [h.bufPos_length]
      perm := by simpa using h.perm
      live := by simp [h.live]
      head := h.head
      tail := by
        dsimp only
        rw [u32_mod h.pos h.small, h.tail, List.length_append, List.length_singleton,
          Nat.mod_add_mod]
        congr 1
        omega
      view := by simpa using h.view
      position := by
        intro j i hj
        dsimp only
        rcases Nat.lt_or_ge j window.length with hjl | hjl
        · rw [List.getElem?_append_left hjl] at hj
          have hix : x ≠ i := by
            rintro rfl
            exact hxw (List.mem_of_getElem? hj)
          rw [List.getElem?_set_ne hix]
          exact h.position j i hj
        · have hjeq : j = window.length := by
            have hlt := (List.getElem?_eq_some_iff.mp hj).choose
            simp only [List.length_append, List.length_singleton] at hlt
            omega
          subst hjeq
          have hxi : x = i := by simpa using hj
          subst hxi
          rw [h.bufPos_set_self hx, h.tail]
      unused := by
        intro i hi
        have hix : x ≠ i := by
          rintro rfl
          exact (List.nodup_cons.mp (List.nodup_append.mp h.nodup).2.1).1 hi
        dsimp only
        rw [List.getElem?_set_ne hix]
        exact h.unused i (List.mem_cons_of_mem _ hi)
      bits := hbits }

omit [Field K] in
theorem evict_ring {v : ℕ} {rest : List ℕ} (h : Ring s (v :: rest) []) :
    s.victim = v ∧ Ring s.evict rest [v] := by
  have hcell : ((v :: rest) ++ [])[0]? = some v := rfl
  have hvictim : s.victim = v := by
    have hget := h.buffer_getD hcell
    rwa [Nat.zero_add, Nat.mod_eq_of_lt h.head] at hget
  have hv : v < s.capacity := h.mem_lt (by simp)
  have hvr : v ∉ rest := (List.nodup_cons.mp h.window_nodup).1
  have hbits := h.bits_set rest hv (fun y hy => by simp [hy])
  rw [decide_eq_false hvr] at hbits
  refine ⟨hvictim, ?_⟩
  simp only [evict, hvictim, bump]
  exact
    { pos := h.pos
      small := h.small
      points_length := h.points_length
      bits_length := by simp [h.bits_length]
      generations_length := by simp [h.generations_length]
      buffer_length := h.buffer_length
      bufPos_length := by simp [h.bufPos_length]
      perm := by
        refine (List.perm_append_singleton v rest).trans ?_
        simpa using h.perm
      live := by simp [h.live]
      head := by
        dsimp only
        rw [u32_mod h.pos h.small]
        exact Nat.mod_lt _ h.pos
      tail := by
        dsimp only
        rw [u32_mod h.pos h.small, h.tail, List.length_cons, Nat.add_mod_mod]
        congr 1
        omega
      view := by
        dsimp only
        rw [u32_mod h.pos h.small, rotate_next h.buffer_length, h.view]
        simp
      position := by
        intro j i hj
        have hiv : v ≠ i := by
          rintro rfl
          exact hvr (List.mem_of_getElem? hj)
        dsimp only
        rw [List.getElem?_set_ne hiv, u32_mod h.pos h.small, Nat.add_mod_mod]
        have hpos := h.position (j + 1) i (by simpa using hj)
        rw [hpos]
        congr 2
        omega
      unused := by
        intro i hi
        obtain rfl := List.mem_singleton.mp hi
        exact h.bufPos_set_self hv invalid
      bits := hbits }

theorem position_pred {c : ℕ} (pos : 0 < c) (n h : ℕ) :
    ((n + 1 + h) % c + c - 1) % c = (n + h) % c := by
  rw [Nat.add_sub_assoc pos, Nat.mod_add_mod, show n + 1 + h + (c - 1) = n + h + c by omega,
    Nat.add_mod_right]

omit [Field K] in
theorem Ring.lastPos (h : Ring s window free) (hw : window ≠ []) :
    u32 ((s.bufTail + s.capacity - 1) % s.capacity) =
      (window.length - 1 + s.bufHead) % s.capacity := by
  obtain ⟨n, hn⟩ : ∃ n, window.length = n + 1 :=
    Nat.exists_eq_succ_of_ne_zero (by simpa using hw)
  rw [u32_mod h.pos h.small, h.tail, hn, position_pred h.pos]
  rfl

theorem set_unused {pos : List ℕ} {i : ℕ} (hi : i < pos.length)
    (h : ∀ x ∈ free, pos[x]? = some invalid) :
    ∀ x ∈ i :: free, (pos.set i invalid)[x]? = some invalid := by
  intro x hx
  by_cases hix : i = x
  · subst hix
    exact List.getElem?_set_self hi
  · rw [List.getElem?_set_ne hix]
    exact h x ((List.mem_cons.mp hx).resolve_left (Ne.symm hix))

omit [Field K] in
theorem release_last_ring {i : ℕ} (h : Ring s (window ++ [i]) free) :
    Ring (s.release i) window (i :: free) := by
  have hi : i < s.capacity := h.mem_lt (by simp)
  have hiw : i ∉ window := fun hw =>
    (List.nodup_append.mp h.window_nodup).2.2 i hw i (by simp) rfl
  have hbits := h.bits_set window hi (fun y hy => by simp [hy])
  rw [decide_eq_false hiw] at hbits
  have hlast := h.lastPos (by simp)
  simp only [List.length_append, List.length_singleton, Nat.add_sub_cancel] at hlast
  have hpos : s.bufPos.getD i invalid = (window.length + s.bufHead) % s.capacity := by
    rw [List.getD_eq_getElem?_getD, h.position window.length i (by simp)]
    rfl
  have hcell : (window.length + s.bufHead) % s.capacity < s.capacity := Nat.mod_lt _ h.pos
  have hsame : s.buffer.set ((window.length + s.bufHead) % s.capacity) i = s.buffer := by
    have hget : s.buffer[(window.length + s.bufHead) % s.capacity]? = some i := by
      rw [getElem?_position h.buffer_length (by have := h.length_add; simp at this; omega), h.view]
      simp
    apply List.ext_getElem?
    intro k
    rw [List.getElem?_set]
    split_ifs with hk hkl
    · rw [← hk, hget]
    · rw [List.getElem?_eq_none (by omega)]
    · rfl
  simp only [release, hlast, hpos, ne_eq, not_true_eq_false, ↓reduceIte, hsame]
  exact
    { pos := h.pos
      small := h.small
      points_length := h.points_length
      bits_length := by simp [h.bits_length]
      generations_length := h.generations_length
      buffer_length := h.buffer_length
      bufPos_length := by simp [h.bufPos_length]
      perm := by simpa using h.perm
      live := by simp [h.live]
      head := h.head
      tail := rfl
      view := by simpa using h.view
      position := by
        intro j x hj
        have hix : i ≠ x := by
          rintro rfl
          exact hiw (List.mem_of_getElem? hj)
        dsimp only
        rw [List.getElem?_set_ne hix]
        refine h.position j x ?_
        rw [List.getElem?_append_left (List.getElem?_eq_some_iff.mp hj).choose]
        exact hj
      unused := set_unused (by simp [h.bufPos_length, hi]) h.unused
      bits := hbits }

theorem swapped_view {α : Type*} (a b free : List α) (i z : α) :
    ((a ++ i :: (b ++ [z]) ++ free).set a.length z).set (a.length + (b.length + 1)) i =
      a ++ z :: b ++ i :: free := by
  simp

theorem swapped_perm {α : Type*} (a b : List α) (i z : α) :
    (i :: (a ++ z :: b)).Perm (a ++ i :: (b ++ [z])) := by
  refine List.Perm.trans ?_ List.perm_middle.symm
  refine List.Perm.cons i (List.Perm.append_left a ?_)
  exact (List.perm_append_singleton z b).symm

theorem getElem?_swapped {α : Type*} {a b : List α} {i z x : α} {j : ℕ} (hne : j ≠ a.length)
    (hj : (a ++ z :: b)[j]? = some x) : (a ++ i :: (b ++ [z]))[j]? = some x := by
  rcases Nat.lt_or_gt_of_ne hne with hlt | hgt
  · rw [List.getElem?_append_left hlt] at hj ⊢
    exact hj
  · obtain ⟨m, rfl⟩ : ∃ m, j = a.length + (m + 1) := ⟨j - a.length - 1, by omega⟩
    rw [List.getElem?_append_right (by omega)] at hj ⊢
    simp only [Nat.add_sub_cancel_left, List.getElem?_cons_succ] at hj ⊢
    rw [List.getElem?_append_left (List.getElem?_eq_some_iff.mp hj).choose]
    exact hj

section
omit [Field K]

section swap
variable {i z : ℕ} {a b : List ℕ}

theorem Ring.not_mem_swapped (h : Ring s (a ++ i :: (b ++ [z])) free) :
    i ∉ a ++ z :: b ∧ (a ++ z :: b).Nodup :=
  List.nodup_cons.mp ((swapped_perm a b i z).nodup_iff.mpr h.window_nodup)

theorem Ring.bufPos_swapped (h : Ring s (a ++ i :: (b ++ [z])) free) {j x : ℕ}
    (hj : (a ++ z :: b)[j]? = some x) :
    ((s.bufPos.set z ((a.length + s.bufHead) % s.capacity)).set i invalid)[x]? =
      some ((j + s.bufHead) % s.capacity) := by
  obtain ⟨hiw, hnodup⟩ := h.not_mem_swapped
  have hix : i ≠ x := fun hx => hiw (hx ▸ List.mem_of_getElem? hj)
  rw [List.getElem?_set_ne hix]
  have hz' : (a ++ z :: b)[a.length]? = some z := by simp
  by_cases hja : j = a.length
  · subst hja
    obtain rfl : z = x := Option.some.inj (hz'.symm.trans hj)
    exact h.bufPos_set_self (h.mem_lt (by simp)) _
  · have hzx : z ≠ x := by
      rintro rfl
      have hjlt := (List.getElem?_eq_some_iff.mp hj).choose
      exact hja ((List.getElem?_inj hjlt hnodup).mp (hj.trans hz'.symm))
    rw [List.getElem?_set_ne hzx]
    exact h.position j x (getElem?_swapped hja hj)

theorem Ring.getElem?_swapped_last (h : Ring s (a ++ i :: (b ++ [z])) free) :
    s.buffer.getD ((a.length + (b.length + 1) + s.bufHead) % s.capacity) 0 = z := by
  apply h.buffer_getD
  rw [List.getElem?_append_left (by simp), List.getElem?_append_right (by omega)]
  simp

end swap

/-- Releasing any other slot moves the newest one into its place. -/
theorem release_swap_ring {i z : ℕ} {a b : List ℕ} (h : Ring s (a ++ i :: (b ++ [z])) free) :
    Ring (s.release i) (a ++ z :: b) (i :: free) := by
  have hperm := swapped_perm a b i z
  have hi : i < s.capacity := h.mem_lt (by simp)
  have hbits := h.bits_set (a ++ z :: b) hi
    (fun y hy => by rw [← hperm.mem_iff, List.mem_cons, or_iff_right hy])
  rw [decide_eq_false h.not_mem_swapped.1] at hbits
  have hlen := h.length_add
  simp only [List.length_append, List.length_cons, List.length_nil] at hlen
  have hcount : (a ++ i :: (b ++ [z])).length - 1 = a.length + (b.length + 1) := by
    simp only [List.length_append, List.length_cons, List.length_nil]
    omega
  have hlast := h.lastPos (by simp)
  rw [hcount] at hlast
  have hpos : s.bufPos.getD i invalid = (a.length + s.bufHead) % s.capacity := by
    rw [List.getD_eq_getElem?_getD, h.position a.length i (by simp)]
    rfl
  have hne : (a.length + s.bufHead) % s.capacity ≠
      (a.length + (b.length + 1) + s.bufHead) % s.capacity := by
    intro heq
    have hj := position_inj (by omega) (by omega) heq
    omega
  simp only [release, hlast, hpos, h.getElem?_swapped_last, ne_eq, hne, not_false_eq_true,
    ↓reduceIte]
  exact
    { pos := h.pos
      small := h.small
      points_length := h.points_length
      bits_length := by simp [h.bits_length]
      generations_length := h.generations_length
      buffer_length := by simp [h.buffer_length]
      bufPos_length := by simp [h.bufPos_length]
      perm := (List.perm_middle.trans (hperm.append_right free)).trans h.perm
      live := by simp [h.live]
      head := h.head
      tail := by simp only [List.length_append, List.length_cons]
      view := by
        dsimp only
        rw [set_position (by simp [h.buffer_length]) (by omega),
          set_position h.buffer_length (by omega), h.view]
        exact swapped_view a b free i z
      position := fun j x hj => h.bufPos_swapped hj
      unused := by
        refine set_unused (by simp [h.bufPos_length, hi]) (fun x hx => ?_)
        have hzx : z ≠ x := by
          rintro rfl
          exact h.not_mem_of_free hx (by simp)
        exact (List.getElem?_set_ne hzx).trans (h.unused x hx)
      bits := hbits }

theorem release_swapRemoved {i : ℕ} (h : Ring s window free) (hi : i ∈ window) :
    ∃ window', Ring (s.release i) window' (i :: free) ∧
      SwapRemoved (fun j => decide (j = i)) window window' := by
  have hd := h.window_nodup
  obtain ⟨a, b, rfl⟩ := List.append_of_mem hi
  rcases List.eq_nil_or_concat b with rfl | ⟨b', z, rfl⟩
  · exact ⟨a, release_last_ring h, swapRemoved_last hd⟩
  · rw [List.concat_eq_append] at h hd ⊢
    exact ⟨a ++ z :: b', release_swap_ring h, swapRemoved_middle hd⟩

theorem Ring.full_iff (h : Ring s window free) : s.live = s.capacity ↔ free = [] := by
  have hlen := h.length_add
  rw [h.live]
  constructor
  · intro hl
    exact List.eq_nil_of_length_eq_zero (by omega)
  · rintro rfl
    simpa using hlen

theorem Ring.exists_oldest (h : Ring s window free) (full : s.live = s.capacity) :
    ∃ v rest, window = v :: rest ∧ free = [] := by
  obtain rfl := h.full_iff.mp full
  have hlen := h.length_add
  have hpos := h.pos
  cases window with
  | nil =>
    rw [List.length_nil, Nat.add_zero] at hlen
    omega
  | cons v rest => exact ⟨v, rest, rfl, rfl⟩

/-- The acquired slot ends up newest; it leaves its old place in the window, if it had one. -/
theorem acquire_ring (h : Ring s window free) (p : Point Dim K) :
    ∃ free', Ring (s.acquire p).1 (window.erase (s.acquire p).2 ++ [(s.acquire p).2]) free' := by
  by_cases hfull : s.live = s.capacity
  · obtain ⟨v, rest, rfl, rfl⟩ := h.exists_oldest hfull
    obtain ⟨hidx, hring⟩ := append_ring (evict_ring h).2 p
    simp only [acquire, hfull, ↓reduceIte]
    rw [hidx, List.erase_cons_head]
    exact ⟨[], hring⟩
  · obtain ⟨x, rest, rfl⟩ : ∃ x rest, free = x :: rest := by
      cases free with
      | nil => exact absurd (h.full_iff.mpr rfl) hfull
      | cons x rest => exact ⟨x, rest, rfl⟩
    obtain ⟨hidx, hring⟩ := append_ring h p
    simp only [acquire, hfull, ↓reduceIte]
    have hx : x ∉ window := h.not_mem_of_free List.mem_cons_self
    rw [hidx, List.erase_of_not_mem hx]
    exact ⟨rest, hring⟩

end

theorem forEachLive_fst (h : Ring s window free) :
    s.forEachLive.map Prod.fst = window := by
  have go : ∀ n k, k + n = window.length →
      (forEachLive.go s n ((k + s.bufHead) % s.capacity)).map Prod.fst = window.drop k := by
    intro n
    induction n with
    | zero =>
      intro k hk
      rw [List.drop_of_length_le (by omega)]
      rfl
    | succ n ih =>
      intro k hk
      have hkl : k < window.length := by omega
      have hcell : (window ++ free)[k]? = some window[k] := by
        rw [List.getElem?_append_left hkl, List.getElem?_eq_getElem hkl]
      rw [forEachLive.go, List.drop_eq_getElem_cons hkl]
      simp only [List.map_cons, h.buffer_getD hcell, List.cons.injEq, true_and]
      rw [Nat.mod_add_mod, show k + s.bufHead + 1 = k + 1 + s.bufHead by omega]
      exact ih (k + 1) (by omega)
  have hstart := go window.length 0 (by omega)
  rw [Nat.zero_add, Nat.mod_eq_of_lt h.head] at hstart
  rw [forEachLive, h.live, hstart, List.drop_zero]

end
end Copse.PointStore

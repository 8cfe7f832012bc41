import Copse.KDTreeUpdates
import Copse.PointStoreRuns

set_option autoImplicit false

namespace Copse
open PointStore QueueOutline

namespace PointStore
variable {Dim : ℕ} {K : Type*} [Field K]

def coordinates (s : PointStore Dim K) : List (Point Dim K) := s.liveSlots.map s.point

/-- The outline describes the points of the live slots, read from the head of the ring. -/
def Outlined (q : Outline (Point Dim K)) (s : PointStore Dim K) : Prop :=
  ∃ window free, Ring s window free ∧ Describes q (window.map s.point)

section
variable {s s' : PointStore Dim K} {window free : List ℕ} {q q' : Outline (Point Dim K)}

theorem acquire_coordinates (h : Ring s window free) (x : Point Dim K) :
    ∃ window' free', Ring (s.acquire x).1 window' free' ∧ window'.map (s.acquire x).1.point =
      (if (window.map s.point).length = s.capacity then (window.map s.point).tail
        else window.map s.point) ++ [x] := by
  obtain ⟨free', hring⟩ := acquire_ring h x
  refine ⟨_, free', hring, ?_⟩
  have hkeep : (window.erase (s.acquire x).2).map (s.acquire x).1.point =
      (window.erase (s.acquire x).2).map s.point := by
    apply List.map_congr_left
    intro i hi
    rw [acquire_point x h, if_neg (h.window_nodup.mem_erase_iff.mp hi).1]
  rw [List.map_append, hkeep, List.map_singleton, acquire_point x h, if_pos rfl, List.length_map,
    ← h.live]
  congr 1
  split_ifs with hfull
  · obtain ⟨-, -, -, -, hvictim⟩ := acquire_cases x h
    obtain ⟨v, rest, rfl, rfl⟩ := h.exists_oldest hfull
    rw [← hvictim hfull, (evict_ring h).1, List.erase_cons_head, List.map_cons, List.tail_cons]
  · have hnew : (s.acquire x).2 ∉ window := by
      rw [← h.isLive_iff, acquire_not_live x h hfull]
      exact Bool.false_ne_true
    rw [List.erase_of_not_mem hnew]

theorem Outlined.coordinates_perm (h : Outlined q s) : s.coordinates.Perm q.items := by
  obtain ⟨window, free, hring, hq⟩ := h
  have hwindow := liveSlots_perm hring.window_nodup hring.isLive_iff
  exact (hwindow.symm.map s.point).trans hq.perm

theorem Outlined.acquire {x : Point Dim K} (h : Outlined q s)
    (hpush : q.push s.capacity x = some q') : Outlined q' (s.acquire x).1 := by
  obtain ⟨window, free, hring, hq⟩ := h
  obtain ⟨window', free', hring', hmap⟩ := acquire_coordinates hring x
  exact ⟨window', free', hring', hmap ▸ hq.push hpush⟩

theorem forEachLive_outlined (h : Ring s window free) :
    Outlined (Outline.ofList (s.forEachLive.map Prod.snd)) s := by
  refine ⟨window, free, h, ?_⟩
  have hmap : s.forEachLive.map Prod.snd = window.map s.point := by
    rw [← forEachLive_fst h, List.map_map]
    exact List.map_congr_left (fun m hm => forEachLive_snd s m hm)
  rw [hmap]
  exact describes_ofList _

variable [LinearOrder K]

theorem Outlined.crowded_eq (h : Outlined q s) (sqRadius : K) (x : Point Dim K) :
    crowded sqRadius s x = q.items.any (fun y => decide (y.sqDist x < sqRadius)) := by
  rw [Bool.eq_iff_iff, List.any_eq_true]
  simp only [← h.coordinates_perm.mem_iff, crowded, coordinates, List.any_eq_true, List.mem_map,
    exists_exists_and_eq_and]

theorem Outlined.storeInsert {sqRadius : K} {batch : List (Point Dim K)} {n : ℕ} (h : Outlined q s)
    (hpush : q.pushEach (fun y x => decide (y.sqDist x < sqRadius)) s.capacity batch =
      some (q', n)) :
    Outlined q' (storeInsert sqRadius s batch).1 ∧ (Copse.storeInsert sqRadius s batch).2 = n := by
  induction batch generalizing s q n with
  | nil =>
    obtain ⟨rfl, rfl⟩ := Prod.mk.inj (Option.some.inj hpush)
    exact ⟨h, rfl⟩
  | cons x rest ih =>
    rw [Outline.pushEach, ← h.crowded_eq] at hpush
    rw [Copse.storeInsert]
    split_ifs at hpush ⊢ with hc
    · exact ih h hpush
    · rw [Option.bind_eq_some_iff] at hpush
      obtain ⟨q₁, hfirst, hrest⟩ := hpush
      obtain ⟨r, hr, heq⟩ := Option.map_eq_some_iff.mp hrest
      obtain ⟨rfl, rfl⟩ := Prod.mk.inj heq
      have hnext := ih (s := (s.acquire x).1) (h.acquire hfirst) (by rw [acquire_capacity]; exact hr)
      exact ⟨hnext.1, congrArg (· + 1) hnext.2⟩

end
end PointStore

namespace KDTreeImpl
variable {Dim : ℕ} {K : Type*} [Field K]
variable {s s' : PointStore Dim K} {q : Outline (Point Dim K)} {n : ℕ}

/-- In the ring, a clearing is a removal of the points that are hit. -/
theorem Clears.swapRemoved {hit : Point Dim K → Bool} {window free : List ℕ}
    (hc : Clears s (fun x => hit x = true) s' n) (h : Ring s window free) :
    ∃ window' free', Ring s' window' free' ∧
      SwapRemoved hit (window.map s.point) (window'.map s'.point) ∧
      n = (window.map s.point).countP hit := by
  obtain ⟨l, rfl, rfl, hd, hl⟩ := hc
  have hmem : ∀ i ∈ l, i ∈ window := fun i hi => (h.isLive_iff i).mp ((hl i).mp hi).1
  have hhit : ∀ i ∈ window, hit (s.point i) = decide (i ∈ l) := by
    intro i hi
    rw [Bool.eq_iff_iff, decide_eq_true_eq, hl, and_iff_right ((h.isLive_iff i).mpr hi)]
  obtain ⟨window', free', hring', hremoved⟩ := releaseAll_swapRemoved h hmem hd
  have hpoints : window'.map (s.releaseAll l).point = window'.map s.point :=
    List.map_congr_left (fun i _ => releaseAll_point s l i)
  refine ⟨window', free', hring', ?_, ?_⟩
  · rw [hpoints]
    exact hremoved.map s.point hhit
  · rw [List.countP_map, List.countP_eq_length_filter]
    refine List.Perm.length_eq ((List.perm_ext_iff_of_nodup hd (h.window_nodup.filter _)).mpr ?_)
    intro i
    rw [List.mem_filter, hl, h.isLive_iff]
    exact Iff.rfl

theorem Clears.outlined {hit : Point Dim K → Bool} (hc : Clears s (fun x => hit x = true) s' n)
    (h : Outlined q s) : Outlined (q.clear hit) s' ∧ n = q.items.countP hit := by
  obtain ⟨window, free, hring, hq⟩ := h
  obtain ⟨window', free', hring', hremoved, hcount⟩ := hc.swapRemoved hring
  refine ⟨⟨window', free', hring', hq.clear hremoved⟩, ?_⟩
  rw [hq.countP]
  exact hcount

theorem ClearsEach.outlined {hits : List (Point Dim K → Bool)} (hc : ClearsEach s hits s' n)
    (h : Outlined q s) : Outlined (q.clearEach hits).1 s' ∧ n = (q.clearEach hits).2 := by
  induction hc generalizing q with
  | nil => exact ⟨h, rfl⟩
  | cons first rest ih =>
    obtain ⟨hfirst, rfl⟩ := first.outlined h
    obtain ⟨hrest, rfl⟩ := ih hfirst
    exact ⟨hrest, rfl⟩

end KDTreeImpl
end Copse

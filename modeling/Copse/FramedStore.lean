import Mathlib

set_option autoImplicit false

/-!
# Framed updates of an addressed store

A store is read through addresses; an absent cell reads as `none`. `Framed`
describes an update by ownership: it writes inside the cells owned before,
keeps every other present cell, and owns afterwards only cells it owned
before or allocated itself.
-/
namespace FramedStore

section
variable {σ A V : Type*} {read : σ → A → Option V}

variable (read) in
structure Framed (s : σ) (F : Set A) (s' : σ) (F' : Set A) : Prop where
  keep : ∀ a, a ∉ F → read s a ≠ none → read s' a = read s a
  grow : ∀ a, read s a ≠ none → read s' a ≠ none
  fresh : ∀ a ∈ F', a ∈ F ∨ read s a = none

theorem Framed.refl (s : σ) (F : Set A) : Framed read s F s F :=
  ⟨fun _ _ _ => rfl, fun _ h => h, fun _ h => Or.inl h⟩

theorem Framed.trans {s s' s'' : σ} {F F' F'' : Set A} (h : Framed read s F s' F')
    (h' : Framed read s' F' s'' F'') : Framed read s F s'' F'' := by
  refine ⟨?_, fun a ha => h'.grow a (h.grow a ha), ?_⟩
  · intro a ha hs
    have hF' : a ∉ F' := by
      intro hin
      rcases h.fresh a hin with hF | hn
      · exact ha hF
      · exact hs hn
    rw [h'.keep a hF' (h.grow a hs), h.keep a ha hs]
  · intro a ha
    rcases h'.fresh a ha with hF' | hn
    · exact h.fresh a hF'
    · right
      by_contra hs
      exact h.grow a hs hn

theorem Framed.widen {s s' : σ} {F F' : Set A} (h : Framed read s F s' F') (G : Set A) :
    Framed read s (F ∪ G) s' (F' ∪ G) := by
  refine ⟨fun a ha => h.keep a (fun hF => ha (Or.inl hF)), h.grow, ?_⟩
  rintro a (ha | ha)
  · exact (h.fresh a ha).imp_left Or.inl
  · exact Or.inl (Or.inr ha)

theorem Framed.beside {s s' : σ} {F' : Set A} (h : Framed read s ∅ s' F') (G : Set A) :
    Framed read s G s' (F' ∪ G) := by
  have hw := h.widen G
  rwa [Set.empty_union] at hw

theorem Framed.outside {s s' : σ} {F F' G : Set A} (h : Framed read s F s' F')
    (hd : Disjoint F G) (hG : ∀ a ∈ G, read s a ≠ none) :
    ∀ a ∈ G, read s' a = read s a :=
  fun a ha => h.keep a (fun hF => Set.disjoint_left.mp hd hF ha) (hG a ha)

theorem Framed.disjoint {s s' : σ} {F F' G : Set A} (h : Framed read s F s' F')
    (hd : Disjoint F G) (hG : ∀ a ∈ G, read s a ≠ none) : Disjoint F' G := by
  refine Set.disjoint_left.mpr (fun a ha hg => ?_)
  rcases h.fresh a ha with hF | hn
  · exact Set.disjoint_left.mp hd hF hg
  · exact hG a hg hn

end
end FramedStore

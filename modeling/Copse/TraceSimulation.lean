import Mathlib.Data.List.Basic

set_option autoImplicit false

namespace TransitionRuns

section
variable {σ τ ι : Type*}

/-- An execution that shows the given labels. -/
inductive Trace (next : σ → ι → σ → Prop) : σ → List ι → σ → Prop where
  | nil (s : σ) : Trace next s [] s
  | cons {s s' s'' : σ} {i : ι} {l : List ι} (first : next s i s') (rest : Trace next s' l s'') :
    Trace next s (i :: l) s''

/-- Every step of the first system is one of the second that shows the same label. -/
structure Simulation (next : σ → ι → σ → Prop) (next' : τ → ι → τ → Prop) (r : σ → τ → Prop) :
    Prop where
  step : ∀ s i s' a, next s i s' → r s a → ∃ a', next' a i a' ∧ r s' a'

variable {next : σ → ι → σ → Prop} {next' : τ → ι → τ → Prop} {r : σ → τ → Prop}
variable {s s' s'' : σ} {l l' : List ι}

theorem Trace.append (h : Trace next s l s') (h' : Trace next s' l' s'') :
    Trace next s (l ++ l') s'' := by
  induction h with
  | nil => exact h'
  | cons first _ ih => exact .cons first (ih h')

theorem Trace.split (h : Trace next s (l ++ l') s'') :
    ∃ s', Trace next s l s' ∧ Trace next s' l' s'' := by
  induction l generalizing s with
  | nil => exact ⟨s, .nil s, h⟩
  | cons i l ih =>
    cases h with
    | cons first rest =>
      obtain ⟨s', hl, hl'⟩ := ih rest
      exact ⟨s', .cons first hl, hl'⟩

theorem Trace.mono {next' : σ → ι → σ → Prop} (himp : ∀ s i s', next s i s' → next' s i s')
    (h : Trace next s l s') : Trace next' s l s' := by
  induction h with
  | nil s => exact .nil s
  | cons first _ ih => exact .cons (himp _ _ _ first) ih

theorem Trace.expand {κ : Type*} {small : σ → κ → σ → Prop} {P : ι → List κ → Prop}
    (hs : ∀ s i s', next s i s' → ∃ l, Trace small s l s' ∧ P i l) (h : Trace next s l s') :
    ∃ ls, List.Forall₂ P l ls ∧ Trace small s ls.flatten s' := by
  induction h with
  | nil s => exact ⟨[], .nil, .nil s⟩
  | cons first _ ih =>
    obtain ⟨l₁, hfirst, hP⟩ := hs _ _ _ first
    obtain ⟨ls, hall, hrest⟩ := ih
    exact ⟨l₁ :: ls, .cons hP hall, hfirst.append hrest⟩

/-- An invariant that speaks of the labels so far. -/
theorem Trace.history {P : List ι → σ → Prop}
    (hs : ∀ past s i s', P past s → next s i s' → P (past ++ [i]) s') (h : Trace next s l s')
    (h0 : P [] s) : P l s' := by
  have hpast : ∀ past, P past s → P (past ++ l) s' := by
    clear h0
    induction h with
    | nil =>
      intro past h
      rwa [List.append_nil]
    | cons first _ ih =>
      intro past h
      have hrest := ih _ (hs _ _ _ _ h first)
      rwa [List.append_assoc, List.singleton_append] at hrest
  exact hpast [] h0

theorem Simulation.trace (sim : Simulation next next' r) (h : Trace next s l s') {a : τ}
    (ha : r s a) : ∃ a', Trace next' a l a' ∧ r s' a' := by
  induction h generalizing a with
  | nil => exact ⟨a, .nil a, ha⟩
  | cons first _ ih =>
    obtain ⟨b, hfirst, hb⟩ := sim.step _ _ _ a first ha
    obtain ⟨a', hrest, ha'⟩ := ih hb
    exact ⟨a', .cons hfirst hrest, ha'⟩

end
end TransitionRuns

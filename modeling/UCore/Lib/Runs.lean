import Mathlib.Tactic.Common

/-! # Runs of labelled transition systems

`Run step s l s'` says that steps with the labels `l` lead from `s` to `s'`. Two rules: a property that
every step keeps holds along every run (`Run.invariant`), and a relation that every step keeps,
against a visible step of another system or against none, gives a run of the other system with the
visible labels (`Run.simulate`). -/

namespace UCore.Lib.Runs

variable {σ τ α β : Type} {step : σ → α → σ → Prop} {s s' s'' : σ} {l : List α} {a : α}

/-- From `s` the steps with the labels `l` lead to `s'`. -/
inductive Run (step : σ → α → σ → Prop) (s : σ) : List α → σ → Prop
  | refl : Run step s [] s
  | tail {l : List α} {a : α} {s₁ s₂ : σ} : Run step s l s₁ → step s₁ a s₂ → Run step s (l ++ [a]) s₂

theorem Run.single (h : step s a s') : Run step s [a] s' := Run.refl.tail h

theorem Run.trans {l' : List α} (hrun : Run step s l s') (hrun' : Run step s' l' s'') :
    Run step s (l ++ l') s'' := by
  induction hrun' with
  | refl => exact (List.append_nil l).symm ▸ hrun
  | tail _ hs ih => exact List.append_assoc .. ▸ ih.tail hs

/-- A run of a system is one of every system with more steps. -/
theorem Run.mono {step' : σ → α → σ → Prop} (hrun : Run step s l s')
    (h : ∀ s a s', step s a s' → step' s a s') : Run step' s l s' := by
  induction hrun with
  | refl => exact Run.refl
  | tail _ hs ih => exact ih.tail (h _ _ _ hs)

/-- **Invariants.** -/
theorem Run.invariant {I : σ → Prop} (hrun : Run step s l s') (hstart : I s)
    (hstep : ∀ s a s', I s → step s a s' → I s') : I s' := by
  induction hrun with
  | refl => exact hstart
  | tail _ hs ih => exact hstep _ _ _ ih hs

/-- **Simulation**, by one step for each visible label. -/
theorem Run.simulate {step' : τ → β → τ → Prop} {R : σ → τ → Prop} {vis : α → Option β} {t : τ}
    (hrun : Run step s l s') (hstart : R s t)
    (hquiet : ∀ s t a s', R s t → step s a s' → vis a = none → R s' t)
    (hvis : ∀ s t a s' b, R s t → step s a s' → vis a = some b → ∃ t', step' t b t' ∧ R s' t') :
    ∃ t', Run step' t (l.filterMap vis) t' ∧ R s' t' := by
  induction hrun with
  | refl => exact ⟨t, Run.refl, hstart⟩
  | @tail l a s₁ s₂ _ hs ih =>
    obtain ⟨t₁, hrun₁, hR₁⟩ := ih
    rw [List.filterMap_append]
    cases hv : vis a with
    | none =>
      refine ⟨t₁, ?_, hquiet _ _ _ _ hR₁ hs hv⟩
      simpa [hv] using hrun₁
    | some b =>
      obtain ⟨t₂, hs₂, hR₂⟩ := hvis _ _ _ _ _ hR₁ hs hv
      refine ⟨t₂, ?_, hR₂⟩
      simpa [hv] using hrun₁.tail hs₂

end UCore.Lib.Runs

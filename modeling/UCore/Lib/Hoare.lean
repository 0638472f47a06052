import Mathlib.Order.Defs.Unbundled
import Mathlib.Tactic.Common

/-! # Weakest preconditions for stateful programs with errors

A program is an `EStateM ε σ`: it ends in a result or in an error, each with the state it was left
in. `wp x s Q E` says that from `s` the program `x` ends in a result with `Q` or in an error with
`E`; a program that must not fail has `E = False` (`wpOk`). One rule per program former: `pure`,
bind, state access, errors, `ensure`, and the loop over a list. `Keeps R x` says that `x`, whether it
ends in a result or an error, goes from a state to one that `R` relates to it; for a preorder it is
kept by every program former. -/

namespace UCore.Lib.Hoare

variable {ε σ α β : Type}

/-- From `s`, `x` ends in a result with `Q` or in an error with `E`. -/
def wp (x : EStateM ε σ α) (s : σ) (Q : α → σ → Prop) (E : ε → σ → Prop) : Prop :=
  match x s with
  | .ok a s' => Q a s'
  | .error e s' => E e s'

/-- From `s`, `x` ends in a result with `Q`. -/
abbrev wpOk (x : EStateM ε σ α) (s : σ) (Q : α → σ → Prop) : Prop := wp x s Q fun _ _ => False

/-- Go on if `c`, else fail with `e`. -/
def ensure (c : Prop) [Decidable c] (e : ε) : EStateM ε σ Unit := if c then pure () else throw e

section Rules
variable {x : EStateM ε σ α} {f : α → EStateM ε σ β} {s : σ} {E E' : ε → σ → Prop}

theorem wp_pure {a : α} {Q : α → σ → Prop} : wp (pure a : EStateM ε σ α) s Q E ↔ Q a s := Iff.rfl

theorem wp_bind {Q : β → σ → Prop} :
    wp (x >>= f) s Q E ↔ wp x s (fun a s' => wp (f a) s' Q E) E := by
  show wp (EStateM.bind x f) s Q E ↔ _
  unfold wp EStateM.bind
  cases x s <;> rfl

theorem wp_throw {e : ε} {Q : α → σ → Prop} :
    wp (throw e : EStateM ε σ α) s Q E ↔ E e s := Iff.rfl

theorem wp_get {Q : σ → σ → Prop} : wp (get : EStateM ε σ σ) s Q E ↔ Q s s := Iff.rfl

theorem wp_modify {g : σ → σ} {Q : PUnit → σ → Prop} :
    wp (modify g : EStateM ε σ PUnit) s Q E ↔ Q ⟨⟩ (g s) := Iff.rfl

theorem wp_ensure {c : Prop} [Decidable c] {e : ε} {Q : Unit → σ → Prop} :
    wp (ensure c e) s Q E ↔ (c → Q () s) ∧ (¬ c → E e s) := by
  unfold ensure
  split_ifs with h
  · rw [wp_pure]; simp [h]
  · rw [wp_throw]; simp [h]

/-- The rule for a check that succeeds. -/
theorem wp_ensure_pos {c : Prop} [Decidable c] {e : ε} {Q : Unit → σ → Prop} (h : c)
    (hQ : Q () s) : wp (ensure c e) s Q E := wp_ensure.mpr ⟨fun _ => hQ, fun hn => absurd h hn⟩

/-- Consequence. -/
theorem wp_mono {Q Q' : α → σ → Prop} (h : wp x s Q E) (hQ : ∀ a s', Q a s' → Q' a s')
    (hE : ∀ e s', E e s' → E' e s') : wp x s Q' E' := by
  unfold wp at h ⊢
  cases hx : x s with
  | ok a s' => rw [hx] at h; exact hQ a s' h
  | error e s' => rw [hx] at h; exact hE e s' h

/-- Consequence for a program that does not fail. -/
theorem wpOk.imp {Q Q' : α → σ → Prop} (h : wpOk x s Q) (hQ : ∀ a s', Q a s' → Q' a s') :
    wp x s Q' E := wp_mono h hQ fun _ _ hF => hF.elim

/-- The rule of sequencing: a specification of the first part, then the second from there. -/
theorem wp_seq {Q : α → σ → Prop} {R : β → σ → Prop} (h : wp x s Q E)
    (hf : ∀ a s', Q a s' → wp (f a) s' R E) : wp (x >>= f) s R E :=
  wp_bind.mpr (wp_mono h hf fun _ _ hE => hE)

/-- Sequencing after a part that does not fail. -/
theorem wpOk.seq {Q : α → σ → Prop} {R : β → σ → Prop} (h : wpOk x s Q)
    (hf : ∀ a s', Q a s' → wp (f a) s' R E) : wp (x >>= f) s R E :=
  wp_bind.mpr (h.imp hf)

/-- Two specifications hold together. -/
theorem wp_and {Q Q' : α → σ → Prop} (h : wp x s Q E) (h' : wp x s Q' E') :
    wp x s (fun a s' => Q a s' ∧ Q' a s') (fun e s' => E e s' ∧ E' e s') := by
  unfold wp at h h' ⊢
  cases hx : x s with
  | ok a s' => rw [hx] at h h'; exact ⟨h, h'⟩
  | error e s' => rw [hx] at h h'; exact ⟨h, h'⟩

theorem wp_of_eq_ok {Q : α → σ → Prop} {a : α} {s' : σ} (hx : x s = .ok a s') :
    wp x s Q E ↔ Q a s' := by unfold wp; rw [hx]

theorem wp_of_eq_error {Q : α → σ → Prop} {e : ε} {s' : σ} (hx : x s = .error e s') :
    wp x s Q E ↔ E e s' := by unfold wp; rw [hx]

theorem bind_of_eq_ok {a : α} {s' : σ} (hx : x s = .ok a s') : (x >>= f) s = f a s' := by
  change EStateM.bind x f s = _
  unfold EStateM.bind
  rw [hx]

theorem bind_of_eq_error {e : ε} {s' : σ} (hx : x s = .error e s') :
    (x >>= f) s = .error e s' := by
  change EStateM.bind x f s = _
  unfold EStateM.bind
  rw [hx]

theorem ensure_eq {c : Prop} [Decidable c] {e : ε} :
    ensure c e s = if c then .ok () s else .error e s := by
  unfold ensure
  split_ifs <;> rfl

/-- Sequencing after a part whose end is known. -/
theorem wp_bind_ok {Q : β → σ → Prop} {a : α} {s' : σ} (hx : x s = .ok a s')
    (h : wp (f a) s' Q E) : wp (x >>= f) s Q E := wp_bind.mpr ((wp_of_eq_ok hx).mpr h)

theorem wpOk_iff {Q : α → σ → Prop} : wpOk x s Q ↔ ∃ a s', x s = .ok a s' ∧ Q a s' := by
  unfold wpOk wp
  cases hx : x s with
  | ok a s' => exact ⟨fun h => ⟨a, s', rfl, h⟩, fun ⟨_, _, h, hQ⟩ => by cases h; exact hQ⟩
  | error e s' => exact ⟨fun h => h.elim, fun ⟨_, _, h, _⟩ => by cases h⟩

/-- Nothing is claimed. -/
theorem wp_trivial : wp x s (fun _ _ => True) fun _ _ => True := by
  unfold wp
  cases x s <;> trivial

/-- A loop in which one round never comes back does not come back. -/
theorem wp_forM_stuck {ι : Type} {g : ι → EStateM ε σ PUnit} {a : ι}
    (ha : ∀ s, wp (g a) s (fun _ _ => False) fun _ _ => True) :
    ∀ {l : List ι} (s : σ), a ∈ l → wp (forM l g) s (fun _ _ => False) fun _ _ => True
  | b :: l, s, hmem => by
    rw [List.forM_cons]
    rcases List.mem_cons.mp hmem with rfl | hmem
    · exact wp_seq (ha s) fun _ _ hF => hF.elim
    · exact wp_seq wp_trivial fun _ s' _ => wp_forM_stuck ha s' hmem

/-- A loop whose rounds change nothing changes nothing. -/
theorem forM_eq_ok {ι : Type} {g : ι → EStateM ε σ PUnit} :
    ∀ {l : List ι}, (∀ a ∈ l, g a s = .ok ⟨⟩ s) → forM l g s = .ok ⟨⟩ s
  | [], _ => rfl
  | a :: l, h => by
    have hl : forM l g s = .ok ⟨⟩ s := forM_eq_ok fun b hb => h b (List.mem_cons_of_mem a hb)
    rw [List.forM_cons]
    show EStateM.bind (g a) (fun _ => forM l g) s = _
    unfold EStateM.bind
    rw [h a List.mem_cons_self]
    exact hl

/-- **The loop rule**: an invariant of the items still to come. -/
theorem wp_forM {ι : Type} {g : ι → EStateM ε σ PUnit} (I : List ι → σ → Prop)
    (step : ∀ a l s, I (a :: l) s → wp (g a) s (fun _ s' => I l s') E) :
    ∀ (l : List ι) (s : σ), I l s → wp (forM l g) s (fun _ s' => I [] s') E
  | [], _, h => h
  | a :: l, s, h => by
    rw [List.forM_cons]
    exact wp_seq (step a l s h) fun _ s' h' => wp_forM I step l s' h'

end Rules

/-! ### Relations that every part keeps -/

/-- From a state `x` goes to one that `R` relates to it. -/
def Keeps (R : σ → σ → Prop) (x : EStateM ε σ α) : Prop :=
  ∀ s, wp x s (fun _ s' => R s s') fun _ s' => R s s'

section Keeps
variable {R : σ → σ → Prop} [IsPreorder σ R] {x : EStateM ε σ α} {f : α → EStateM ε σ β}

theorem keeps_pure (a : α) : Keeps R (pure a : EStateM ε σ α) := fun s => refl_of R s

theorem keeps_throw (e : ε) : Keeps R (throw e : EStateM ε σ α) := fun s => refl_of R s

theorem Keeps.bind (hx : Keeps R x) (hf : ∀ a, Keeps R (f a)) : Keeps R (x >>= f) := by
  intro s
  refine wp_seq (hx s) fun a s' hs' => ?_
  exact wp_mono (hf a s') (fun _ _ h => trans_of R hs' h) fun _ _ h => trans_of R hs' h

omit [IsPreorder σ R] in
theorem Keeps.get_bind {f : σ → EStateM ε σ β} (hf : ∀ s, Keeps R (f s)) :
    Keeps R (get >>= f) := fun s => wp_bind.mpr (wp_get.mpr (hf s s))

theorem keeps_ensure (c : Prop) [Decidable c] (e : ε) : Keeps R (ensure c e) := fun s =>
  wp_ensure.mpr ⟨fun _ => refl_of R s, fun _ => refl_of R s⟩

omit [IsPreorder σ R] in
theorem keeps_modify {g : σ → σ} (hg : ∀ s, R s (g s)) :
    Keeps R (modify g : EStateM ε σ PUnit) := fun s => wp_modify.mpr (hg s)

omit [IsPreorder σ R] in
theorem Keeps.ite {c : Prop} {_ : Decidable c} {y : EStateM ε σ α} (hx : Keeps R x)
    (hy : Keeps R y) : Keeps R (if c then x else y) := by
  split_ifs
  · exact hx
  · exact hy

theorem keeps_forM {ι : Type} {g : ι → EStateM ε σ PUnit} (hg : ∀ a, Keeps R (g a)) :
    ∀ l : List ι, Keeps R (forM l g)
  | [] => keeps_pure _
  | a :: l => by
    rw [List.forM_cons]
    exact (hg a).bind fun _ => keeps_forM hg l

omit [IsPreorder σ R] in
/-- What is kept of a program that ended in a result. -/
theorem Keeps.ok (h : Keeps R x) {s s' : σ} {a : α} (hx : x s = .ok a s') : R s s' :=
  (wp_of_eq_ok hx).mp (h s)

end Keeps

end UCore.Lib.Hoare

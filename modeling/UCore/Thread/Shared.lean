import UCore.Thread.Follows

/-! # Kernel threads: what the CPUs have together

`Owns` relates what the threads of control have, `act`, to the locks, the states of the processes, the
saved contexts and the run queue. Each lock is with the CPU that has it; a process is in one place at
most; nobody has a process that does not run and is not about to, but who has just stopped it. One lemma
for each kind of change. -/

namespace UCore.Thread.Shared

open UCore.Proc.State UCore.Thread.Code UCore.Thread.Rules UCore.Thread.Follows

variable {n : ℕ}

/-! ### One CPU -/

/-- What holds of every context of a run. -/
structure Wf (Γ : Ctx n) : Prop where
  nodup : Γ.held.Nodup
  know : ∀ q st, Γ.know = some (q, st) → .proc q ∈ Γ.held
  made : Γ.made = true → ∃ q, Γ.know = some (q, .used)
  tok : ∀ q, Γ.tok = some q → Γ.know = some (q, .runnable)
  mm : ∀ q, .mm q ∈ Γ.held → Γ.Self q
  thread : ∀ q, Γ.thread = some q → Γ.popped = none ∧ Γ.proc = some q
  proc : ∀ q, Γ.proc = some q → Γ.thread = some q ∨ Γ.popped = some q
  intr : Γ.trapped = true → Γ.intr = false
  inTrap : Γ.inTrap = true → Γ.trapped = true

variable {Γ Γ' : Ctx n}

theorem Wf.extra (hw : Wf Γ) (extra : ℕ) : Wf { Γ with extra } :=
  ⟨hw.nodup, hw.know, hw.made, hw.tok, hw.mm, hw.thread, hw.proc, hw.intr, hw.inTrap⟩

theorem Wf.withIntr (hw : Wf Γ) {intr : Bool} (ht : Γ.trapped = true → intr = false) :
    Wf { Γ with intr } :=
  ⟨hw.nodup, hw.know, hw.made, hw.tok, hw.mm, hw.thread, hw.proc, ht, hw.inTrap⟩

theorem unlocked_know (Γ : Ctx n) (q : Fin (n + 1)) (x : Fin (n + 1) × ProcState) :
    (Γ.unlocked (.proc q)).know = some x ↔ Γ.know = some x ∧ x.1 ≠ q := by
  rw [Ctx.unlocked_proc]
  simp [Option.filter_eq_some_iff]

theorem unlocked_popped (Γ : Ctx n) (q r : Fin (n + 1)) :
    (Γ.unlocked (.proc q)).popped = some r ↔
      Γ.popped = some r ∧ (Γ.trapped = true ∨ r ≠ q) := by
  rw [Ctx.unlocked_proc]
  dsimp only
  split_ifs with ht
  · simp [ht]
  · simp [ht, Option.filter_eq_some_iff]

/-- What `unlocked` leaves alone. -/
theorem unlocked_same (Γ : Ctx n) (m : Lock n) : (Γ.unlocked m).held = Γ.held.erase m ∧
    (Γ.unlocked m).thread = Γ.thread ∧ (Γ.unlocked m).trapped = Γ.trapped ∧
    (Γ.unlocked m).intr = Γ.intr ∧ (Γ.unlocked m).proc = Γ.proc ∧
    (Γ.unlocked m).inTrap = Γ.inTrap ∧ (Γ.unlocked m).extra = Γ.extra ∧
    (Γ.unlocked m).made = Γ.made ∧ (Γ.unlocked m).tok = Γ.tok ∧
    (Γ.trapped = true → (Γ.unlocked m).popped = Γ.popped) := by
  cases m with
  | proc q => exact ⟨rfl, rfl, rfl, rfl, rfl, rfl, rfl, rfl, rfl, fun ht => if_pos ht⟩
  | _ => exact ⟨rfl, rfl, rfl, rfl, rfl, rfl, rfl, rfl, rfl, fun _ => rfl⟩

theorem Wf.unlocked (hw : Wf Γ) {m : Lock n} (hm : MayUnlock Γ m) (extra : ℕ) :
    Wf { Γ.unlocked m with extra } := by
  cases m with
  | proc q =>
    obtain ⟨hl, hq⟩ := hm
    obtain ⟨htok, hused, -, hpop⟩ := hq q rfl
    have hknow := unlocked_know Γ q
    have hpopped := unlocked_popped Γ q
    refine ⟨hw.nodup.erase _, fun r st hk => ?_, fun hmade => ?_, fun r hr => ?_, fun r hr => ?_,
      fun r hr => ?_, fun r hr => ?_, hw.intr, hw.inTrap⟩
    · obtain ⟨hk, hne⟩ := (hknow _).mp hk
      exact (List.mem_erase_of_ne (by simpa using hne)).mpr (hw.know r st hk)
    · obtain ⟨r, hr⟩ := hw.made hmade
      refine ⟨r, (hknow _).mpr ⟨hr, ?_⟩⟩
      rintro rfl
      have hno := hused hr
      rw [show Γ.made = true from hmade] at hno
      cases hno
    · refine (hknow _).mpr ⟨hw.tok r hr, ?_⟩
      rintro rfl
      exact htok hr
    · exact hw.mm r (List.mem_of_mem_erase hr)
    · refine ⟨?_, (hw.thread r hr).2⟩
      refine Option.eq_none_iff_forall_ne_some.mpr fun r' hr' => ?_
      have hp := ((hpopped r').mp hr').1
      rw [(hw.thread r hr).1] at hp
      cases hp
    · refine (hw.proc r hr).imp_right fun hp => (hpopped r).mpr ⟨hp, ?_⟩
      by_cases ht : Γ.trapped = true
      · exact Or.inl ht
      · refine Or.inr ?_
        rintro rfl
        have hno := (hpop (Bool.eq_false_iff.mpr ht) hp).1
        rw [show Γ.proc = some r from hr] at hno
        cases hno
  | _ =>
    exact ⟨hw.nodup.erase _, fun r st hk => (List.mem_erase_of_ne (by simp)).mpr (hw.know r st hk),
      hw.made, hw.tok, fun r hr => hw.mm r (List.mem_of_mem_erase hr), hw.thread, hw.proc, hw.intr,
      hw.inTrap⟩

theorem Wf.sets (hw : Wf Γ) {q : Fin (n + 1)} {st : ProcState} (hl : .proc q ∈ Γ.held)
    (hs : Sets Γ q st Γ') : Wf Γ' := by
  have hknow : ∀ r st', some (q, st) = some (r, st') → .proc r ∈ Γ.held := by
    rintro r st' hk
    cases hk
    exact hl
  cases hs with
  | own hself hst htok hmade =>
    exact ⟨hw.nodup, hknow, fun hm => absurd (hmade.symm.trans hm) nofun,
      fun r hr => absurd (htok.symm.trans hr) nofun, hw.mm, hw.thread, hw.proc, hw.intr, hw.inTrap⟩
  | claim hk hm htok =>
    exact ⟨hw.nodup, hknow, nofun, fun r hr => absurd (htok.symm.trans hr) nofun, hw.mm, hw.thread,
      hw.proc, hw.intr, hw.inTrap⟩
  | publish hk hmade hm htok =>
    exact ⟨hw.nodup, hknow, nofun, fun r hr => by cases hr; rfl, hw.mm, hw.thread, hw.proc, hw.intr,
      hw.inTrap⟩
  | wake hk hm htok =>
    refine ⟨hw.nodup, hknow, fun hmade => ?_, fun r hr => by cases hr; rfl, hw.mm, hw.thread,
      hw.proc, hw.intr, hw.inTrap⟩
    obtain ⟨r, hr⟩ := hw.made hmade
    rw [hk] at hr
    cases hr
  | free hk hm htok =>
    refine ⟨hw.nodup, hknow, fun hmade => ?_, fun r hr => absurd (htok.symm.trans hr) nofun, hw.mm,
      hw.thread, hw.proc, hw.intr, hw.inTrap⟩
    obtain ⟨r, hr⟩ := hw.made hmade
    rw [hk] at hr
    cases hr
  | dispatch ht hp hk htok =>
    refine ⟨hw.nodup, hknow, fun hmade => ?_, fun r hr => absurd (htok.symm.trans hr) nofun, hw.mm,
      hw.thread, hw.proc, hw.intr, hw.inTrap⟩
    obtain ⟨r, hr⟩ := hw.made hmade
    rw [hk] at hr
    cases hr

theorem wf_resumed (p : Fin (n + 1)) (b : Bool) : Wf (resumed p b) :=
  ⟨List.nodup_singleton _, nofun, nofun, nofun, by simp [resumed], fun _ h => ⟨rfl, h⟩,
    fun _ h => Or.inl h, nofun, nofun⟩

theorem wf_returned (p : Fin (n + 1)) (b : Bool) (st : ProcState) : Wf (returned p b st) :=
  ⟨List.nodup_singleton _, fun _ _ h => by cases h; exact List.mem_cons_self, nofun, nofun,
    by simp [returned], nofun, fun _ h => Or.inr h, nofun, nofun⟩

/-! ### All CPUs -/

variable {κ : Type} [DecidableEq κ]

/-- Where a process is. -/
inductive Place (κ : Type)
  | queue
  /-- It runs. -/
  | runs (k : κ)
  /-- The scheduler has it. -/
  | has (k : κ)
  /-- It has to be pushed. -/
  | owes (k : κ)

def At (queue : List (Fin (n + 1))) (act : κ → Ctx n) (q : Fin (n + 1)) : Place κ → Prop
  | .queue => q ∈ queue
  | .runs k => (act k).thread = some q
  | .has k => (act k).popped = some q
  | .owes k => (act k).tok = some q

/-- The code of a process that does not run: it follows the rules once `sched` has returned. -/
def Parked (p : Fin (n + 1)) (l : List (Stmt n)) : Prop := ∀ b, safeAll l (resumed p b) fun _ => False

structure Owns (lock : Lock n → Option κ) (state : Fin (n + 1) → ProcState)
    (context : Fin (n + 1) → List (Stmt n)) (queue : List (Fin (n + 1))) (act : κ → Ctx n) : Prop where
  wf : ∀ k, Wf (act k)
  lock : ∀ l k, lock l = some k ↔ l ∈ (act k).held
  know : ∀ k q st, (act k).know = some (q, st) → state q = st
  nodup : queue.Nodup
  unique : ∀ q a b, At queue act q a → At queue act q b → a = b
  /-- Who has a process that does not run has just stopped it. -/
  rest : ∀ q, ¬ Active (state q) →
    (∀ a, ¬ At queue act q a) ∨ ∃ k, (act k).know = some (q, state q) ∧ (act k).Mine q
  queued : ∀ q ∈ queue, state q = .runnable
  popped : ∀ k q, (act k).popped = some q →
    state q = .runnable ∨ (act k).trapped = false ∧ ∃ st, (act k).know = some (q, st)
  context : ∀ q, (∀ k, (act k).thread ≠ some q) → state q ≠ .unused →
    (state q = .used → ∃ k, (act k).know = some (q, .used) ∧ (act k).made = true) →
    Parked q (context q)

variable {lock : Lock n → Option κ} {state : Fin (n + 1) → ProcState}
  {context : Fin (n + 1) → List (Stmt n)} {queue : List (Fin (n + 1))} {act : κ → Ctx n} {k : κ}
  {q : Fin (n + 1)}

theorem at_update {a : Place κ} (hthread : Γ.thread = (act k).thread)
    (hpopped : Γ.popped = (act k).popped) (htok : Γ.tok = (act k).tok) :
    At queue (Function.update act k Γ) q a ↔ At queue act q a := by
  cases a <;> grind [At, Function.update_apply]

namespace Owns

omit [DecidableEq κ] in
/-- Two CPUs with one lock. -/
theorem held_unique (h : Owns lock state context queue act) {k' : κ} {l : Lock n}
    (hl : l ∈ (act k).held) (hl' : l ∈ (act k').held) : k = k' :=
  Option.some.inj (((h.lock l k).mpr hl).symm.trans ((h.lock l k').mpr hl'))

omit [DecidableEq κ] in
/-- Two CPUs that know of one process. -/
theorem know_unique (h : Owns lock state context queue act) {k' : κ} {st st' : ProcState}
    (hk : (act k).know = some (q, st)) (hk' : (act k').know = some (q, st')) : k = k' :=
  h.held_unique ((h.wf k).know q st hk) ((h.wf k').know q st' hk')

omit [DecidableEq κ] in
/-- Nobody has a process that another CPU knows to be at rest. -/
theorem nowhere (h : Owns lock state context queue act) {st : ProcState}
    (hk : (act k).know = some (q, st)) (hst : ¬ Active st) (hm : ¬ (act k).Mine q) (a : Place κ) :
    ¬ At queue act q a := by
  have hst' := h.know k q st hk
  rcases h.rest q (by rwa [hst']) with hn | ⟨k', hk', hm'⟩
  · exact hn a
  · rw [h.know_unique hk hk'] at hm
    exact absurd hm' hm

omit [DecidableEq κ] in
/-- Whoever has a process, and its lock, and knows nothing of it. -/
theorem active (h : Owns lock state context queue act) (hl : .proc q ∈ (act k).held)
    (hm : (act k).Mine q) (hk : (act k).know = none) : Active (state q) := by
  by_contra hst
  rcases h.rest q hst with hn | ⟨k', hk', -⟩
  · rcases hm.2 with hm | hm
    · exact hn (.runs k) hm
    · exact hn (.has k) hm
  · rw [h.held_unique hl ((h.wf k').know q _ hk'), hk'] at hk
    cases hk

omit [DecidableEq κ] in
/-- A process at rest stays so, if it comes nowhere and who has stopped it still has it. -/
theorem rest_keep (h : Owns lock state context queue act) {queue' : List (Fin (n + 1))}
    {act' : κ → Ctx n} {r : Fin (n + 1)} (hst : ¬ Active (state r))
    (hat : ∀ a, At queue' act' r a → At queue act r a)
    (hkeep : ∀ k', (act k').know = some (r, state r) → (act k').Mine r →
      (act' k').know = some (r, state r) ∧ (act' k').Mine r) :
    (∀ a, ¬ At queue' act' r a) ∨ ∃ k', (act' k').know = some (r, state r) ∧ (act' k').Mine r :=
  (h.rest r hst).imp (fun hn a ha => hn a (hat a ha)) fun ⟨k', hk', hm'⟩ => ⟨k', hkeep k' hk' hm'⟩

omit [DecidableEq κ] in
/-- The context of a process stays as it is, if the process does not start to run and no one else comes
to make it. -/
theorem context_keep (h : Owns lock state context queue act) {act' : κ → Ctx n} {r : Fin (n + 1)}
    (hthread : ∀ k', (act' k').thread ≠ some r) (hu : state r ≠ .unused)
    (hmade : state r = .used → ∃ k', (act' k').know = some (r, .used) ∧ (act' k').made = true)
    (hsame : ∀ k', (act' k').thread ≠ some r → (act k').thread ≠ some r)
    (hkeep : ∀ k', (act' k').know = some (r, .used) ∧ (act' k').made = true →
      (act k').know = some (r, .used) ∧ (act k').made = true) : Parked r (context r) :=
  h.context r (fun k' => hsame k' (hthread k')) hu fun hst => (hmade hst).imp hkeep

/-- A change of what one CPU has of its own: its locks, and what it knows. -/
theorem stay (h : Owns lock state context queue act) {lock' : Lock n → Option κ} (hw : Wf Γ)
    (hlock : ∀ l k', lock' l = some k' ↔ l ∈ (Function.update act k Γ k').held)
    (hthread : Γ.thread = (act k).thread) (hpopped : Γ.popped = (act k).popped)
    (htok : Γ.tok = (act k).tok) (hmade : Γ.made = (act k).made)
    (hknow : ∀ q st, Γ.know = some (q, st) → state q = st)
    (hkeep : (act k).know = none ∨ Γ.know = (act k).know ∧ Γ.trapped = (act k).trapped) :
    Owns lock' state context queue (Function.update act k Γ) where
  wf k' := by grind [Function.update_apply, h.wf k']
  lock := hlock
  know k' q st hk := by grind [Function.update_apply, h.know k' q st]
  nodup := h.nodup
  unique q a b ha hb :=
    h.unique q a b ((at_update hthread hpopped htok).mp ha) ((at_update hthread hpopped htok).mp hb)
  rest q hst := by
    refine h.rest_keep hst (fun a ha => (at_update hthread hpopped htok).mp ha) fun k' hk' hm' => ?_
    unfold Ctx.Mine at hm' ⊢
    grind [Function.update_apply]
  queued := h.queued
  popped k' q hq := by grind [Function.update_apply, h.popped k' q]
  context q hq hu hused := by
    have hmade' := (h.wf k).made
    exact h.context_keep hq hu hused (by grind [Function.update_apply])
      (by grind [Function.update_apply])

/-- The locks stay. -/
theorem lock_stay (h : Owns lock state context queue act) (hheld : Γ.held = (act k).held)
    (l : Lock n) (k' : κ) : lock l = some k' ↔ l ∈ (Function.update act k Γ k').held := by
  grind [Function.update_apply, h.lock l k']

/-- One lock goes. -/
theorem lock_erase (h : Owns lock state context queue act) {l : Lock n} (hl : l ∈ (act k).held)
    (hheld : Γ.held = (act k).held.erase l) (l' : Lock n) (k' : κ) :
    Function.update lock l none l' = some k' ↔ l' ∈ (Function.update act k Γ k').held := by
  have hmem : l' ∈ (act k).held.erase l ↔ l' ≠ l ∧ l' ∈ (act k).held :=
    (h.wf k).nodup.mem_erase_iff
  have hu : l ∈ (act k').held → k = k' := h.held_unique hl
  grind [Function.update_apply, h.lock l' k']

/-- A free lock is taken. -/
theorem take (h : Owns lock state context queue act) {l : Lock n} (hl : lock l = none) {extra : ℕ}
    (hw : Wf { act k with held := l :: (act k).held, extra }) :
    Owns (Function.update lock l (some k)) state context queue
      (Function.update act k { act k with held := l :: (act k).held, extra }) :=
  h.stay hw (fun l' k' => by grind [Function.update_apply, h.lock l' k']) rfl rfl rfl rfl (h.know k)
    (Or.inr ⟨rfl, rfl⟩)

/-- A lock is given back that is not one of a process. -/
theorem give (h : Owns lock state context queue act) {l : Lock n} (hl : l ∈ (act k).held) {extra : ℕ}
    (hw : Wf { act k with held := (act k).held.erase l, extra }) :
    Owns (Function.update lock l none) state context queue
      (Function.update act k { act k with held := (act k).held.erase l, extra }) :=
  h.stay hw (h.lock_erase hl rfl) rfl rfl rfl rfl (h.know k) (Or.inr ⟨rfl, rfl⟩)

/-- The lock of a process is given back, and with it what was known of the process. -/
theorem giveProc (h : Owns lock state context queue act) (hl : MayUnlock (act k) (.proc q))
    {extra : ℕ} (hΓ : Γ = { (act k).unlocked (.proc q) with extra }) (hw : Wf Γ) :
    Owns (Function.update lock (.proc q) none) state context queue (Function.update act k Γ) := by
  obtain ⟨hl, hq⟩ := hl
  obtain ⟨-, hused, hself, hpop⟩ := hq q rfl
  have hheld : Γ.held = (act k).held.erase (.proc q) := by rw [hΓ, Ctx.unlocked_proc]
  have hsame : Γ.thread = (act k).thread ∧ Γ.tok = (act k).tok ∧ Γ.trapped = (act k).trapped ∧
      Γ.made = (act k).made := by
    rw [hΓ, Ctx.unlocked_proc]
    exact ⟨rfl, rfl, rfl, rfl⟩
  have hknow : ∀ x, Γ.know = some x ↔ (act k).know = some x ∧ x.1 ≠ q := fun x => by
    rw [hΓ]
    exact unlocked_know (act k) q x
  have hpopped : ∀ r, Γ.popped = some r ↔
      (act k).popped = some r ∧ ((act k).trapped = true ∨ r ≠ q) := fun r => by
    rw [hΓ]
    exact unlocked_popped (act k) q r
  have hless : ∀ r a, At queue (Function.update act k Γ) r a → At queue act r a := fun r a ha => by
    cases a <;> grind [At, Function.update_apply]
  refine ⟨fun k' => ?_, h.lock_erase hl hheld, fun k' r st hk => ?_, h.nodup,
    fun r a b ha hb => h.unique r a b (hless r a ha) (hless r b hb), fun r hst => ?_, h.queued,
    fun k' r hr => ?_, fun r hr hu hmade => ?_⟩
  · grind [Function.update_apply, h.wf k']
  · grind [Function.update_apply, h.know k' r st]
  · rcases h.rest r hst with hn | ⟨k', hk', hm'⟩
    · exact Or.inl fun a ha => hn a (hless r a ha)
    · by_cases hkk : k' = k ∧ r = q
      · -- the scheduler lets the process go
        obtain ⟨rfl, rfl⟩ := hkk
        have hhas : At queue act r (.has k') :=
          hm'.2.resolve_left fun ht => hst (hself ⟨hm'.1, ht⟩ _ hk')
        refine Or.inl fun a ha => ?_
        cases h.unique r a _ (hless r a ha) hhas
        change (Function.update act k' Γ k').popped = some r at ha
        rw [Function.update_self, hpopped] at ha
        exact ha.2.elim (fun ht => absurd (ht.symm.trans hm'.1) nofun) fun hne => hne rfl
      · refine Or.inr ⟨k', ?_⟩
        unfold Ctx.Mine at hm' ⊢
        grind [Function.update_apply]
  · grind [Function.update_apply, h.popped k' r]
  · exact h.context_keep hr hu hmade (by grind [Function.update_apply])
      (by grind [Function.update_apply])

/-- A state is written. -/
theorem set (h : Owns lock state context queue act) {st : ProcState} (hl : .proc q ∈ (act k).held)
    (hs : Sets (act k) q st Γ) (hw : Wf Γ) :
    Owns lock (Function.update state q st) context queue (Function.update act k Γ) := by
  obtain ⟨hheld, hthread, hpopped, htrapped, hknow, hkeep⟩ : Γ.held = (act k).held ∧
      Γ.thread = (act k).thread ∧ Γ.popped = (act k).popped ∧ Γ.trapped = (act k).trapped ∧
      Γ.know = some (q, st) ∧ ((act k).know = none ∨ ∃ st', (act k).know = some (q, st')) := by
    cases hs <;> grind
  -- the process is with this CPU, or nowhere
  have hplace : (act k).Mine q ∨ ∀ a, ¬ At queue act q a := by
    cases hs with
    | own hself => exact Or.inl ⟨hself.1, Or.inl hself.2⟩
    | dispatch ht hp => exact Or.inl ⟨ht, Or.inr hp⟩
    | claim hk hm => exact Or.inr (h.nowhere hk (by simp [Active]) hm)
    | publish hk _ hm => exact Or.inr (h.nowhere hk (by simp [Active]) hm)
    | wake hk hm => exact Or.inr (h.nowhere hk (by simp [Active]) hm)
    | free hk hm => exact Or.inr (h.nowhere hk (by simp [Active]) hm)
  have hwith : (act k).Mine q → ∀ a, At queue act q a → a = .runs k ∨ a = .has k := fun hm a ha =>
    hm.2.imp (fun ht => h.unique q a (.runs k) ha ht) fun hp => h.unique q a (.has k) ha hp
  have htok : ∀ r, Γ.tok = some r → (act k).tok = some r ∨
      r = q ∧ st = .runnable ∧ ∀ a, ¬ At queue act q a := fun r hr => by
    cases hs with
    | publish hk _ hm => exact Or.inr ⟨(Option.some.inj hr).symm, rfl, h.nowhere hk (by simp [Active]) hm⟩
    | wake hk hm => exact Or.inr ⟨(Option.some.inj hr).symm, rfl, h.nowhere hk (by simp [Active]) hm⟩
    | _ => exact Or.inl hr
  -- what was known of the context
  have hcontext : (act k).thread = some q ∨ st = .unused ∨ st = .used ∧ Γ.made = false ∨
      state q ≠ .unused ∧ (state q = .used → (act k).know = some (q, .used) ∧ (act k).made = true) := by
    cases hs with
    | own hself => exact Or.inl hself.2
    | free => exact Or.inr (Or.inl rfl)
    | claim => exact Or.inr (Or.inr (Or.inl ⟨rfl, rfl⟩))
    | publish hk hm => 
      rw [h.know k q _ hk]
      exact Or.inr (Or.inr (Or.inr ⟨nofun, fun _ => ⟨hk, hm⟩⟩))
    | wake hk =>
      rw [h.know k q _ hk]
      exact Or.inr (Or.inr (Or.inr ⟨nofun, nofun⟩))
    | dispatch ht hp hk =>
      have hrun : state q = .runnable := (h.popped k q hp).resolve_right fun ⟨_, st, hk'⟩ => by
        rw [hk] at hk'
        cases hk'
      rw [hrun]
      exact Or.inr (Or.inr (Or.inr ⟨nofun, nofun⟩))
  have hat : ∀ r a, At queue (Function.update act k Γ) r a →
      At queue act r a ∨ a = .owes k ∧ r = q ∧ st = .runnable ∧ ∀ a, ¬ At queue act q a :=
    fun r a ha => by cases a <;> grind [At, Function.update_apply]
  refine ⟨fun k' => ?_, h.lock_stay hheld, fun k' r st' hk => ?_, h.nodup, fun r a b ha hb => ?_,
    fun r hst => ?_, fun r hr => ?_, fun k' r hr => ?_, fun r hr hu hmade => ?_⟩
  · grind [Function.update_apply, h.wf k']
  · have hu : k' ≠ k → (act k').know = some (r, st') → r ≠ q := fun hne hk' hrq =>
      hne (h.held_unique ((h.wf k').know r st' hk') (hrq ▸ hl))
    grind [Function.update_apply, h.know k' r st']
  · rcases hat r a ha with ha | ⟨rfl, rfl, -, hn⟩
    · rcases hat r b hb with hb | ⟨rfl, rfl, -, hn⟩
      · exact h.unique r a b ha hb
      · exact absurd ha (hn a)
    · rcases hat r b hb with hb | ⟨rfl, -⟩
      · exact absurd hb (hn b)
      · rfl
  · by_cases hrq : r = q
    · subst hrq
      rw [Function.update_self] at hst ⊢
      rcases hplace with hm | hn
      · refine Or.inr ⟨k, ?_⟩
        rw [Function.update_self]
        unfold Ctx.Mine at hm ⊢
        rw [htrapped, hthread, hpopped]
        exact ⟨hknow, hm⟩
      · refine Or.inl fun a ha => ?_
        rcases hat r a ha with ha | ⟨-, -, hrun, -⟩
        · exact hn a ha
        · exact hst (Or.inr hrun)
    · rw [Function.update_of_ne hrq] at hst ⊢
      refine h.rest_keep hst (fun a ha => (hat r a ha).resolve_right fun h => hrq h.2.1)
        fun k' hk' hm' => ?_
      unfold Ctx.Mine at hm' ⊢
      grind [Function.update_apply]
  · by_cases hrq : r = q
    · subst hrq
      rcases hplace with hm | hn
      · rcases hwith hm .queue hr with h | h <;> cases h
      · exact absurd hr (hn .queue)
    · rw [Function.update_of_ne hrq]
      exact h.queued r hr
  · have hr' : At queue act r (.has k') := by grind [At, Function.update_apply]
    by_cases hrq : r = q
    · subst hrq
      rcases hplace with hm | hn
      · have hkk : k' = k := by
          rcases hwith hm _ hr' with h | h <;> cases h
          rfl
        subst hkk
        rw [Function.update_self, Function.update_self, htrapped]
        exact Or.inr ⟨hm.1, st, hknow⟩
      · exact absurd hr' (hn _)
    · rw [Function.update_of_ne hrq]
      rcases h.popped k' r hr' with hrun | ⟨ht, st', hk'⟩
      · exact Or.inl hrun
      · have hkk : k' ≠ k := by
          rintro rfl
          rcases hkeep with hk | ⟨st'', hk⟩ <;> rw [hk] at hk' <;> cases hk'
          exact hrq rfl
        rw [Function.update_of_ne hkk]
        exact Or.inr ⟨ht, st', hk'⟩
  · have hr' : ∀ k', (act k').thread ≠ some r := fun k' => by grind [Function.update_apply, hr k']
    by_cases hrq : r = q
    · subst hrq
      rw [Function.update_self] at hu hmade
      rcases hcontext with ht | hst | ⟨hst, hm⟩ | ⟨hu', hm⟩
      · exact absurd ht (hr' k)
      · exact absurd hst hu
      · obtain ⟨k', hk', hm'⟩ := hmade hst
        by_cases hkk : k' = k
        · rw [hkk, Function.update_self, hm] at hm'
          cases hm'
        · rw [Function.update_of_ne hkk] at hk'
          exact absurd (h.held_unique ((h.wf k').know r _ hk') hl) hkk
      · exact h.context r hr' hu' fun hst => ⟨k, hm hst⟩
    · rw [Function.update_of_ne hrq] at hu hmade
      refine h.context r hr' hu fun hst => ?_
      obtain ⟨k', hk', hm'⟩ := hmade hst
      refine ⟨k', ?_⟩
      grind [Function.update_apply]

/-- The context of a process that is made. -/
theorem init (h : Owns lock state context queue act) {l : List (Stmt n)} (hl : Parked q l)
    (hΓ : Γ = { act k with made := true }) (hk : (act k).know = some (q, .used)) (hw : Wf Γ) :
    Owns lock state (Function.update context q l) queue (Function.update act k Γ) := by
  have hat : ∀ r a, At queue (Function.update act k Γ) r a → At queue act r a :=
    fun r a => (at_update (by rw [hΓ]) (by rw [hΓ]) (by rw [hΓ])).mp
  refine ⟨fun k' => ?_, h.lock_stay (by rw [hΓ]), fun k' r st hk => ?_, h.nodup,
    fun r a b ha hb => h.unique r a b (hat r a ha) (hat r b hb), fun r hst => ?_, h.queued,
    fun k' r hr => ?_, fun r hr hu hmade => ?_⟩
  · grind [Function.update_apply, h.wf k']
  · grind [Function.update_apply, h.know k' r st]
  · refine h.rest_keep hst (hat r) fun k' hk' hm' => ?_
    unfold Ctx.Mine at hm' ⊢
    grind [Function.update_apply]
  · grind [Function.update_apply, h.popped k' r]
  · by_cases hrq : r = q
    · rw [hrq, Function.update_self]
      exact hl
    · rw [Function.update_of_ne hrq]
      exact h.context_keep hr hu hmade (by grind [Function.update_apply])
        (by grind [Function.update_apply])

omit [DecidableEq κ] in
/-- One process has moved. -/
theorem unique_of_moved (h : Owns lock state context queue act) {queue' : List (Fin (n + 1))}
    {act' : κ → Ctx n} {x : Place κ}
    (hat : ∀ r a, r ≠ q → At queue' act' r a → At queue act r a)
    (honly : ∀ a, At queue' act' q a → a = x) (r : Fin (n + 1)) (a b : Place κ)
    (ha : At queue' act' r a) (hb : At queue' act' r b) : a = b := by
  by_cases hrq : r = q
  · rw [hrq] at ha hb
    exact (honly a ha).trans (honly b hb).symm
  · exact h.unique r a b (hat r a hrq ha) (hat r b hrq hb)

/-- A process is pushed, by the thread that owes it or by the scheduler that has it. -/
theorem push (h : Owns lock state context queue act) (hk : (act k).know = some (q, .runnable))
    (hq : (act k).tok = some q ∧ Γ = { act k with tok := none } ∨
      (act k).popped = some q ∧ (act k).tok = none ∧ Γ = { act k with popped := none })
    (hw : Wf Γ) : Owns lock state context (queue ++ [q]) (Function.update act k Γ) := by
  have hrun := h.know k q _ hk
  obtain ⟨hheld, hthread, hknow, hmade, htrapped⟩ : Γ.held = (act k).held ∧
      Γ.thread = (act k).thread ∧ Γ.know = (act k).know ∧ Γ.made = (act k).made ∧
      Γ.trapped = (act k).trapped := by
    rcases hq with ⟨-, rfl⟩ | ⟨-, -, rfl⟩ <;> exact ⟨rfl, rfl, rfl, rfl, rfl⟩
  have hpopped : Γ.popped = (act k).popped ∨ Γ.popped = none := by
    rcases hq with ⟨-, rfl⟩ | ⟨-, -, rfl⟩
    · exact Or.inl rfl
    · exact Or.inr rfl
  -- its place before
  have hplace : At queue act q (.owes k) ∧ Γ.tok = none ∨
      At queue act q (.has k) ∧ Γ.popped = none := by
    rcases hq with ⟨ht, rfl⟩ | ⟨hp, -, rfl⟩
    · exact Or.inl ⟨ht, rfl⟩
    · exact Or.inr ⟨hp, rfl⟩
  have hbefore : ∀ a, At queue act q a → a = .owes k ∧ Γ.tok = none ∨ a = .has k ∧ Γ.popped = none :=
    fun a ha => hplace.imp (fun hp => ⟨h.unique q a _ ha hp.1, hp.2⟩)
      fun hp => ⟨h.unique q a _ ha hp.1, hp.2⟩
  have hat : ∀ r a, At (queue ++ [q]) (Function.update act k Γ) r a → r = q ∧ a = .queue ∨
      At queue act r a := fun r a ha => by
    cases a with
    | queue =>
      rcases List.mem_append.mp ha with hr | hr
      · exact Or.inr hr
      · exact Or.inl ⟨List.mem_singleton.mp hr, rfl⟩
    | _ => grind [At, Function.update_apply]
  refine ⟨fun k' => ?_, h.lock_stay hheld, fun k' r st hk => ?_, ?_,
    h.unique_of_moved (q := q) (x := .queue)
      (fun r a hr ha => (hat r a ha).resolve_left fun h => hr h.1) fun a ha => ?_,
    fun r hst => ?_, fun r hr => ?_, fun k' r hr => ?_, fun r hr hu hmade => ?_⟩
  · grind [Function.update_apply, h.wf k']
  · grind [Function.update_apply, h.know k' r st]
  · refine List.nodup_append.mpr ⟨h.nodup, List.nodup_singleton q, ?_⟩
    rintro r hr _ hr' rfl
    rw [List.mem_singleton.mp hr'] at hr
    rcases hbefore .queue hr with ⟨ha, -⟩ | ⟨ha, -⟩ <;> cases ha
  · rcases hat q a ha with ⟨-, rfl⟩ | ha'
    · rfl
    · rcases hbefore a ha' with ⟨rfl, ht⟩ | ⟨rfl, hp⟩ <;> grind [At, Function.update_apply]
  · have hrq : r ≠ q := by
      rintro rfl
      exact hst (Or.inr hrun)
    refine h.rest_keep hst (fun a ha => (hat r a ha).resolve_left fun h => hrq h.1) fun k' hk' hm' => ?_
    have hkk : k' ≠ k := by
      rintro rfl
      rw [hk] at hk'
      exact hrq (congrArg Prod.fst (Option.some.inj hk')).symm
    rw [Function.update_of_ne hkk]
    exact ⟨hk', hm'⟩
  · rcases hat r .queue hr with ⟨rfl, -⟩ | hr
    · exact hrun
    · exact h.queued r hr
  · grind [Function.update_apply, h.popped k' r]
  · exact h.context_keep hr hu hmade (by grind [Function.update_apply])
      (by grind [Function.update_apply])

/-- A process is popped. -/
theorem pop (h : Owns lock state context (q :: queue) act) (hpopped : (act k).popped = none)
    (hknow : (act k).know = none) (hΓ : Γ = { act k with popped := some q }) (hw : Wf Γ) :
    Owns lock state context queue (Function.update act k Γ) := by
  have hrun := h.queued q List.mem_cons_self
  have hbefore : ∀ a, At (q :: queue) act q a → a = .queue := fun a ha =>
    h.unique q a .queue ha List.mem_cons_self
  have hnot : q ∉ queue := (List.nodup_cons.mp h.nodup).1
  have hat : ∀ r a, At queue (Function.update act k Γ) r a → r = q ∧ a = .has k ∨
      At (q :: queue) act r a := fun r a ha => by
    cases a with
    | queue => exact Or.inr (List.mem_cons_of_mem _ ha)
    | _ => grind [At, Function.update_apply]
  refine ⟨fun k' => ?_, h.lock_stay (by rw [hΓ]), fun k' r st hk => ?_, (List.nodup_cons.mp h.nodup).2,
    h.unique_of_moved (q := q) (x := .has k)
      (fun r a hr ha => (hat r a ha).resolve_left fun h => hr h.1) fun a ha => ?_,
    fun r hst => ?_, fun r hr => h.queued r (List.mem_cons_of_mem _ hr), fun k' r hr => ?_,
    fun r hr hu hmade => ?_⟩
  · grind [Function.update_apply, h.wf k']
  · grind [Function.update_apply, h.know k' r st]
  · rcases hat q a ha with ⟨-, rfl⟩ | ha'
    · rfl
    · rw [hbefore a ha'] at ha
      exact absurd ha hnot
  · have hrq : r ≠ q := by
      rintro rfl
      exact hst (Or.inr hrun)
    refine h.rest_keep hst (fun a ha => (hat r a ha).resolve_left fun h => hrq h.1) fun k' hk' hm' => ?_
    have hkk : k' ≠ k := by
      rintro rfl
      rw [hknow] at hk'
      cases hk'
    rw [Function.update_of_ne hkk]
    exact ⟨hk', hm'⟩
  · grind [Function.update_apply, h.popped k' r]
  · exact h.context_keep hr hu hmade (by grind [Function.update_apply])
      (by grind [Function.update_apply])

/-- The scheduler switches to a process. -/
theorem run (h : Owns lock state context queue act) {b b' : Bool}
    (hk : act k = returned q b .running) (hw : Wf (resumed q b')) :
    Owns lock state context queue (Function.update act k (resumed q b')) := by
  have hrun : state q = .running := h.know k q _ (by rw [hk]; rfl)
  have hbefore : ∀ a, At queue act q a → a = .has k := fun a ha =>
    h.unique q a (.has k) ha (by rw [At, hk]; rfl)
  have hat : ∀ r a, At queue (Function.update act k (resumed q b')) r a → r = q ∧ a = .runs k ∨
      At queue act r a ∧ a ≠ .has k := fun r a ha => by
    cases a with
    | queue => exact Or.inr ⟨ha, nofun⟩
    | _ => grind [At, Function.update_apply, resumed, ofProc]
  refine ⟨fun k' => ?_, h.lock_stay (by rw [hk]; rfl), fun k' r st hk' => ?_, h.nodup,
    h.unique_of_moved (q := q) (x := .runs k)
      (fun r a hr ha => ((hat r a ha).resolve_left fun h => hr h.1).1) fun a ha => ?_,
    fun r hst => ?_, h.queued, fun k' r hr => ?_, fun r hr hu hmade => ?_⟩
  · grind [Function.update_apply, h.wf k']
  · grind [Function.update_apply, h.know k' r st, resumed, ofProc]
  · rcases hat q a ha with ⟨-, rfl⟩ | ⟨ha', hne⟩
    · rfl
    · exact absurd (hbefore a ha') hne
  · have hrq : r ≠ q := by
      rintro rfl
      exact hst (Or.inl hrun)
    refine h.rest_keep hst (fun a ha => ((hat r a ha).resolve_left fun h => hrq h.1).1)
      fun k' hk' hm' => ?_
    have hkk : k' ≠ k := by
      rintro rfl
      rw [hk] at hk'
      exact hrq (congrArg Prod.fst (Option.some.inj hk')).symm
    rw [Function.update_of_ne hkk]
    exact ⟨hk', hm'⟩
  · grind [Function.update_apply, h.popped k' r, resumed, ofProc]
  · exact h.context_keep hr hu hmade (by grind [Function.update_apply, returned, ofSched])
      (by grind [Function.update_apply, resumed, ofProc])

/-- A process switches to the scheduler. -/
theorem leave (h : Owns lock state context queue act) {b b' : Bool} {st : ProcState}
    (hk : act k = { resumed q b with know := some (q, st) }) {l : List (Stmt n)} (hl : Parked q l)
    (hw : Wf (returned q b' st)) :
    Owns lock state (Function.update context q l) queue
      (Function.update act k (returned q b' st)) := by
  have hst : state q = st := h.know k q st (by rw [hk])
  have hbefore : ∀ a, At queue act q a → a = .runs k := fun a ha =>
    h.unique q a (.runs k) ha (by rw [At, hk]; rfl)
  have hat : ∀ r a, At queue (Function.update act k (returned q b' st)) r a → r = q ∧ a = .has k ∨
      At queue act r a ∧ a ≠ .runs k := fun r a ha => by
    cases a with
    | queue => exact Or.inr ⟨ha, nofun⟩
    | _ => grind [At, Function.update_apply, returned, ofSched]
  refine ⟨fun k' => ?_, h.lock_stay (by rw [hk]; rfl), fun k' r st hk' => ?_, h.nodup,
    h.unique_of_moved (q := q) (x := .has k)
      (fun r a hr ha => ((hat r a ha).resolve_left fun h => hr h.1).1) fun a ha => ?_,
    fun r hst' => ?_, h.queued, fun k' r hr => ?_, fun r hr hu hmade => ?_⟩
  · grind [Function.update_apply, h.wf k']
  · grind [Function.update_apply, h.know k' r st, returned, ofSched]
  · rcases hat q a ha with ⟨-, rfl⟩ | ⟨ha', hne⟩
    · rfl
    · exact absurd (hbefore a ha') hne
  · by_cases hrq : r = q
    · subst hrq
      refine Or.inr ⟨k, ?_⟩
      rw [Function.update_self, hst]
      exact ⟨rfl, rfl, Or.inr rfl⟩
    refine h.rest_keep hst' (fun a ha => ((hat r a ha).resolve_left fun h => hrq h.1).1)
      fun k' hk' hm' => ?_
    have hkk : k' ≠ k := by
      rintro rfl
      rw [hk] at hk'
      exact hrq (congrArg Prod.fst (Option.some.inj hk')).symm
    rw [Function.update_of_ne hkk]
    exact ⟨hk', hm'⟩
  · by_cases hkk : k' = k
    · rw [hkk, Function.update_self] at hr ⊢
      cases hr
      exact Or.inr ⟨rfl, st, rfl⟩
    · rw [Function.update_of_ne hkk] at hr ⊢
      exact h.popped k' r hr
  · by_cases hrq : r = q
    · rw [hrq, Function.update_self]
      exact hl
    rw [Function.update_of_ne hrq]
    exact h.context_keep hr hu hmade (by grind [Function.update_apply, resumed, ofProc])
      (by grind [Function.update_apply, returned, ofSched])

end Owns

end UCore.Thread.Shared

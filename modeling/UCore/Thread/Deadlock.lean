import UCore.Thread.Safe
import Mathlib.Logic.Relation

/-! # Kernel threads: no deadlock

A CPU that spins for a lock waits for the CPU that has it. The rules order the locks but for two
exceptions, in `fork` and in `exit`; with what the CPUs have together, the ranks of the CPUs that wait
for each other fall all the same. -/

namespace UCore.Thread.Deadlock

open UCore.Lib.Runs UCore.Proc.State UCore.Thread.Code UCore.Thread.Machine UCore.Thread.Rules
open UCore.Thread.Follows UCore.Thread.Shared UCore.Thread.Safe

variable {n : ℕ} {κ : Type} [DecidableEq κ] {s : State n κ} {act : κ → Ctx n} {k k' : κ}
  {m m' : Lock n} {r r' : ℕ}

/-- The CPU `k` spins for a lock that `k'` has. -/
def WaitsFor (s : State n κ) (k k' : κ) : Prop :=
  ∃ m l, (s.cpu k).code = .spin m :: l ∧ s.lock m = some k'

/-- The rank of a thread that waits for a lock, by the case of `MayWait`. -/
inductive Rank (Γ : Ctx n) : Lock n → ℕ → Prop
  | first {m : Lock n} : First m → Γ.held = [] → Rank Γ m 5
  | proc {q : Fin (n + 1)} : (∀ x ∈ Γ.held, First x) → Rank Γ (.proc q) 4
  /-- In the second loop of `exit`. -/
  | exit {p q : Fin (n + 1)} : Γ.Self p → Γ.held = [.proc p, .wait] → Rank Γ (.proc q) 3
  /-- In `fork`, for its own lock. -/
  | fork {c q : Fin (n + 1)} : Γ.Self q → ¬ Γ.Mine c → Γ.held = [.proc c] →
    Γ.know = some (c, .used) → Rank Γ (.proc q) 2
  | leaf {m : Lock n} : Leaf m → Rank Γ m 1

theorem exists_rank {Γ : Ctx n} (h : MayWait Γ m) : ∃ r, Rank Γ m r := by
  obtain ⟨-, -, h⟩ := h
  cases m with
  | wait => exact ⟨_, .first (Or.inl rfl) h⟩
  | cons => exact ⟨_, .first (Or.inr rfl) h⟩
  | proc q =>
    rcases h with h | ⟨c, hself, hm, hheld, hk⟩ | ⟨p, hself, hheld⟩
    · exact ⟨_, .proc h⟩
    · exact ⟨_, .fork hself hm hheld hk⟩
    · exact ⟨_, .exit hself hheld⟩
  | _ => exact ⟨_, .leaf trivial⟩

omit [DecidableEq κ] in
/-- **The ranks fall** from a CPU that waits to one that it waits for. -/
theorem rank_lt (h : Inv s act) (hm : MayWait (act k) m) (hr : Rank (act k) m r)
    (hheld : m ∈ (act k').held) (hm' : MayWait (act k') m') (hr' : Rank (act k') m' r') : r' < r := by
  have hne : k ≠ k' := by
    rintro rfl
    exact hm.1 hheld
  -- who waits with a process lock is in one of the two exceptions
  have hproc : ∀ q, m = .proc q → r' < 4 := fun q hq => by
    cases hr' with
    | first _ hnil =>
      rw [hnil] at hheld
      cases hheld
    | proc hfirst => exact absurd hq (ne_proc_of_first (hfirst m hheld) q)
    | exit => omega
    | fork => omega
    | leaf => omega
  cases hr with
  | first =>
    cases hr' with
    | first _ hnil =>
      rw [hnil] at hheld
      cases hheld
    | _ => omega
  | proc => exact hproc _ rfl
  | exit hself hk =>
    have hlt := hproc _ rfl
    cases hr' with
    | first => omega
    | proc => omega
    | exit hself' hk' =>
      -- both have `wait_lock`
      exact absurd (h.owns.held_unique (l := .wait) (by rw [hk]; simp) (by rw [hk']; simp)) hne
    | fork => omega
    | leaf => omega
  | @fork c q hself hmine hk hknow =>
    have hlt := hproc _ rfl
    cases hr' with
    | first => omega
    | proc => omega
    | @exit p q' hself' hk' =>
      -- the lock is that of the process of both threads
      rw [hk'] at hheld
      have hpq : q = p := by simpa using hheld
      subst hpq
      cases h.owns.unique q (.runs k) (.runs k') hself.2 hself'.2
      exact absurd rfl hne
    | @fork c' q' hself' hmine' hk' hknow' =>
      -- a process that is being made runs on no CPU
      rw [hk'] at hheld
      have hqc : q = c' := by simpa using hheld
      subst hqc
      exact absurd hself.2 (h.owns.nowhere hknow' (by simp [Active]) hmine' (.runs k))
    | leaf => omega
  | leaf hleaf => exact absurd hleaf (hm'.2.1 m hheld)

omit [DecidableEq κ] in
theorem mayWait {l : List (Stmt n)} (h : Inv s act) (hcode : (s.cpu k).code = .spin m :: l) :
    MayWait (act k) m := by
  have hg := (h.typed k).code
  rw [hcode] at hg
  exact hg.1

omit [DecidableEq κ] in
/-- Along a chain of CPUs that wait for each other. -/
theorem rank_lt_of_chain {l l' : List (Stmt n)} (h : Inv s act)
    (hchain : Relation.TransGen (WaitsFor s) k k') (hcode : (s.cpu k).code = .spin m :: l)
    (hr : Rank (act k) m r) (hcode' : (s.cpu k').code = .spin m' :: l') (hr' : Rank (act k') m' r') :
    r' < r := by
  have hone : ∀ {k k' : κ} {m m' : Lock n} {l l' : List (Stmt n)} {r r' : ℕ}, WaitsFor s k k' →
      (s.cpu k).code = .spin m :: l → Rank (act k) m r → (s.cpu k').code = .spin m' :: l' →
      Rank (act k') m' r' → r' < r := by
    intro k k' m m' l l' r r' hw hcode hr hcode' hr'
    obtain ⟨m₁, l₁, hcode₁, hlock⟩ := hw
    rw [hcode] at hcode₁
    cases hcode₁
    exact rank_lt h (mayWait h hcode) hr ((h.owns.lock _ _).mp hlock) (mayWait h hcode') hr'
  induction hchain generalizing m' l' r' with
  | single hw => exact hone hw hcode hr hcode' hr'
  | tail _ hw ih =>
    obtain ⟨m₁, l₁, hcode₁, -⟩ := id hw
    obtain ⟨r₁, hr₁⟩ := exists_rank (mayWait h hcode₁)
    exact (hone hw hcode₁ hr₁ hcode' hr').trans (ih hcode₁ hr₁)

omit [DecidableEq κ] in
/-- From a CPU that waits one comes to a CPU that does not. -/
theorem chain_ends (h : Inv s act) (k : κ) :
    ∃ k', Relation.ReflTransGen (WaitsFor s) k k' ∧ ∀ k'', ¬ WaitsFor s k' k'' := by
  have hrank : ∀ r k m l, (s.cpu k).code = .spin m :: l → Rank (act k) m r →
      ∃ k', Relation.ReflTransGen (WaitsFor s) k k' ∧ ∀ k'', ¬ WaitsFor s k' k'' := by
    intro r
    induction r using Nat.strong_induction_on with
    | _ r ih =>
      intro k m l hcode hr
      by_cases hw : ∃ k₁, WaitsFor s k k₁
      · obtain ⟨k₁, hw⟩ := hw
        by_cases hw₁ : ∃ k₂, WaitsFor s k₁ k₂
        · obtain ⟨k₂, m₁, l₁, hcode₁, -⟩ := hw₁
          obtain ⟨r₁, hr₁⟩ := exists_rank (mayWait h hcode₁)
          obtain ⟨k', hchain, hend⟩ :=
            ih r₁ (rank_lt_of_chain h (.single hw) hcode hr hcode₁ hr₁) k₁ m₁ l₁ hcode₁ hr₁
          exact ⟨k', .head hw hchain, hend⟩
        · exact ⟨k₁, .single hw, fun k'' hw' => hw₁ ⟨k'', hw'⟩⟩
      · exact ⟨k, .refl, fun k'' hw' => hw ⟨k'', hw'⟩⟩
  by_cases hw : ∃ k₁, WaitsFor s k k₁
  · obtain ⟨k₁, m, l, hcode, -⟩ := hw
    obtain ⟨r, hr⟩ := exists_rank (mayWait h hcode)
    exact hrank r k m l hcode hr
  · exact ⟨k, .refl, fun k'' hw' => hw ⟨k'', hw'⟩⟩

/-- **No deadlock**: in every state that is reached, CPUs do not wait for each other in a cycle, and
following who waits for whom one comes to a CPU that does not wait for another. -/
theorem no_deadlock {ks : List κ} (hrun : Run Step (start : State n κ) ks s) (k : κ) :
    ¬ Relation.TransGen (WaitsFor s) k k ∧
      ∃ k', Relation.ReflTransGen (WaitsFor s) k k' ∧ ∀ k'', ¬ WaitsFor s k' k'' := by
  obtain ⟨act, h⟩ := reached hrun
  refine ⟨fun hcycle => ?_, chain_ends h k⟩
  obtain ⟨k₁, hw⟩ : ∃ k₁, WaitsFor s k k₁ := by
    cases Relation.TransGen.head'_iff.mp hcycle with
    | intro k₁ hk₁ => exact ⟨k₁, hk₁.1⟩
  obtain ⟨m, l, hcode, -⟩ := hw
  obtain ⟨r, hr⟩ := exists_rank (mayWait h hcode)
  exact absurd (rank_lt_of_chain h hcycle hcode hr hcode hr) (lt_irrefl r)

/-- The first CPU has the lock of the run queue, and the second one waits for it. -/
theorem no_deadlock_sample : ∃ s, Run Step (start : State 0 (Fin 2)) [0, 0, 0, 0, 0, 1, 1, 1, 1] s ∧
    WaitsFor s 1 0 ∧ ¬ Relation.TransGen (WaitsFor s) 1 1 := by
  have hrun : Run Step (start : State 0 (Fin 2)) ([] ++ [0] ++ [0] ++ [0] ++ [0] ++ [0] ++ [1] ++ [1] ++
      [1] ++ [1]) _ :=
    ((((((((Run.refl.tail (.exec 0 rfl)).tail (.exec 0 rfl)).tail (.exec 0 rfl)).tail
      (.exec 0 rfl)).tail (.exec 0 rfl)).tail (.exec 1 rfl)).tail (.exec 1 rfl)).tail
      (.exec 1 rfl)).tail (.exec 1 rfl)
  exact ⟨_, hrun, ⟨.queue, _, rfl, rfl⟩, (no_deadlock hrun 1).1⟩

end UCore.Thread.Deadlock

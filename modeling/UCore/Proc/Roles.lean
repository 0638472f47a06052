import UCore.Proc.Queue

/-! # States and roles

A process is `RUNNING` exactly while it is `c->proc` of a CPU, and `RUNNABLE` exactly while it waits
for one: in every run without a successful `exec`, for every slot whose lock is free
(`state_matches_role`). `load_user_elf` writes `RUNNABLE` also for the process that runs, and nobody
puts it into the queue or back (`exec_unmatched`). -/

namespace UCore.Proc.Roles

open UCore.Proc.State UCore.Proc.Table UCore.Proc.Locks UCore.Proc.Queue UCore.Lib.Runs

variable {n : ℕ} {κ : Type} {s s' : State n κ} {p q : Fin (n + 1)} {t t' : Slot n κ}
  {wl wl' : Option (Fin (n + 1))} {event : Event n} {events : List (Event n)} {pc pc' : Pc n}
  {add : Bool}

/-! ### Threads that run -/

/-- The places of a thread on a CPU at which it has not written its state yet. -/
def active : Pc n → Bool
  | .off | .exitDone | .sched _ | .parked _ | .back .exit => false
  | _ => true

/-- **The invariant**: a thread on a CPU is `RUNNING`. -/
def Honest (s : State n κ) : Prop := ∀ p, active (s.slot p).pc = true → (s.slot p).state = .running

/-- The process that runs calls `exec`, and the app is there. -/
def Execs (s s' : State n κ) : Prop :=
  ∃ p, (s.slot p).pc = .user ∧ s' = s.set p { s.slot p with state := .runnable }

theorem Honest.set (hs : Honest s) (ht : active t.pc = true → t.state = .running) :
    Honest (s.set p t) := by
  intro r hr
  by_cases hrp : r = p
  · subst hrp
    rw [set_self] at hr ⊢
    exact ht hr
  · rw [set_of_ne _ _ hrp] at hr ⊢
    exact hs r hr

theorem Honest.congr (hs : Honest s) (hslot : s'.slot = s.slot) : Honest s' := fun p hp => by
  rw [hslot] at hp ⊢
  exact hs p hp

/-- A thread moves on. -/
theorem Honest.goto (hs : Honest s) (h : active pc = true → active (s.slot p).pc = true) :
    Honest (s.goto p pc) := hs.set fun hp => hs p (h hp)

/-! ### The steps -/

/-- What a process does to itself, other than `exec`. -/
theorem Own.honest (h : Own p wl t event wl' t')
    (hno : ¬ (t.pc = .user ∧ wl' = wl ∧ t' = { t with state := .runnable }))
    (ht : active t.pc = true → t.state = .running) : active t'.pc = true → t'.state = .running := by
  cases h with
  | exec hpc hlock => exact absurd ⟨hpc, rfl, rfl⟩ hno
  | _ => simp_all [active]

theorem Honest.own (hs : Honest s) (h : Own p s.waitLock (s.slot p) event wl t)
    (hno : ¬ Execs s { s.set p t with waitLock := wl }) :
    Honest { s.set p t with waitLock := wl } := by
  refine (hs.set (Own.honest h (fun hexec => hno ?_) (hs p))).congr rfl
  obtain ⟨hpc, rfl, ht⟩ := hexec
  exact ⟨p, hpc, by rw [← ht]; rfl⟩

theorem Honest.wakeup (hs : Honest s) (chan : Chan n) :
    Honest (s.set q ((s.slot q).wakeup chan).1) := by
  refine hs.set fun hq => ?_
  unfold Slot.wakeup at hq ⊢
  split_ifs at hq ⊢ with hw
  · -- a thread on a CPU does not sleep
    have := hs q hq
    rw [hw.1] at this
    cases this
  · exact hs q hq

theorem Visit.active (h : Visit p q pc t event pc' t' add) : Roles.active pc = true := by
  cases h <;> rfl

theorem Honest.visit (hs : Honest s) (h : Visit p q (s.slot p).pc (s.slot q) event pc t add) :
    Honest ((s.set q t).goto p pc) := by
  have hset : Honest (s.set q t) := by
    generalize (s.slot p).pc = pc₀ at h
    cases h with
    | forkScan hne => exact hs.set (hs q)
    | wakeup => exact hs.wakeup _
    | reparent hqp =>
      refine hs.set fun hq => ?_
      split_ifs at hq ⊢ <;> exact hs q hq
    | scan hqp hno => exact hs.set (hs q)
    | reap hqp hparent hex => exact hs.set fun hc => by cases hc
  refine hset.goto fun _ => ?_
  by_cases hpq : p = q
  · subst hpq
    rw [set_self]
    rcases (Visit.thread h).2 with hpc | ⟨-, hne⟩
    · rw [hpc]
      exact Visit.active h
    · exact absurd rfl hne
  · rw [set_of_ne _ _ hpq]
    exact Visit.active h

theorem honest_start : Honest (start : State n κ) := by
  intro p hp
  by_cases h : p = init_proc <;> simp [start, h, active] at hp

variable [DecidableEq κ]

theorem Honest.step (hs : Honest s) (hsound : Sound s) (h : Step s event s') (hno : ¬ Execs s s') : Honest s' := by
  cases h with
  | own k p hk h => exact hs.own h hno
  | @visit pc t add _ k p q hk hlock h =>
    refine (hs.visit h).congr ?_
    cases add <;> rfl
  | alloc k p q hk hp hlock hq =>
    have hoff := Fits.not_unused (hq ▸ (hsound.slot q).fits)
    have hpc : ((s.slot q).allocproc s.nextPid p).pc = .off := hoff
    have hset : Honest (s.set q ((s.slot q).allocproc s.nextPid p)) := hs.set fun hc => by
      rw [hpc] at hc
      cases hc
    have hne : p ≠ q := by
      rintro rfl
      rw [hp] at hoff
      cases hoff
    exact (hset.goto fun _ => by rw [set_of_ne _ _ hne, hp]; rfl).congr rfl
  | fork k p q hk hp =>
    have hne := (hsound.child p q (by rw [hp]; rfl)).1
    have hset : Honest (s.set q { s.slot q with
        parent := some p, state := .runnable, pc := .parked .first }) := hs.set fun hc => by cases hc
    exact (hset.goto fun _ => by rw [set_of_ne _ _ hne.symm, hp]; rfl).congr rfl
  | forkDone k p q hk hp =>
    have hne := (hsound.child p q (by rw [hp]; rfl)).1
    have hset : Honest (s.set q { s.slot q with lock := none }) := hs.set (hs q)
    exact hset.goto fun _ => by rw [set_of_ne _ _ hne.symm, hp]; rfl
  | @switch c k p hk hp =>
    have hset : Honest (s.set p { s.slot p with pc := .parked c, lock := some (.sched k) }) :=
      hs.set fun hc => by cases hc
    exact hset.congr rfl
  | back k p hk =>
    refine hs.congr ?_
    split_ifs <;> rfl
  | unlock k p hk =>
    have hset : Honest (s.set p { s.slot p with lock := none }) := hs.set (hs p)
    exact hset.congr rfl
  | pop k p hk hq => exact hs.congr rfl
  | lock k p hk hlock =>
    have hset : Honest (s.set p { s.slot p with lock := some (.sched k) }) := hs.set (hs p)
    exact hset.congr rfl
  | @dispatch c k p hk hstate hp =>
    have hset : Honest (s.set p { s.slot p with
        state := .running, pc := .back c, lock := some (.proc p) }) := hs.set fun _ => rfl
    exact hset.congr rfl
  | panic k p hk hstate => exact hs.congr rfl
  | wakeup q hlock hw => exact (hs.wakeup .cons).congr rfl

/-! ### Every run -/

omit [DecidableEq κ] in
/-- A thread on a CPU that does not have its own lock. -/
theorem active_of_running (hrun : IsRunning pc) (hlock : ownLock pc = false) : active pc = true := by
  cases pc with
  | off => exact absurd rfl hrun.1
  | parked c => exact absurd ⟨c, rfl⟩ hrun.2
  | exitDone => cases hlock
  | sched c => cases hlock
  | back c => cases hlock
  | _ => rfl

/-- The state of `p` agrees with its role. -/
structure Matches (s : State n κ) (p : Fin (n + 1)) : Prop where
  running : (s.slot p).state = .running ↔ ∃ k, (s.cpu k).proc = some p
  runnable : (s.slot p).state = .runnable ↔ p ∈ s.queue ∨ ∃ k, s.cpu k = .popped p

/-- **The state matches the role**, in every run in which no process that runs calls `exec` with
success. -/
theorem state_matches_role
    (hrun : Run (fun s event s' => Step s event s' ∧ ¬ Execs s s') (start : State n κ) events s)
    (hlock : (s.slot p).lock = none) : Matches s p := by
  have hinv := hrun.invariant (I := fun s => Sound s ∧ Placed s ∧ Honest s)
    ⟨sound_start, placed_start, honest_start⟩ fun _ _ _ hI hstep =>
      ⟨hI.1.step hstep.1, hI.2.1.step hI.1 hstep.1, hI.2.2.step hI.1 hstep.1 hstep.2⟩
  obtain ⟨hsound, hplaced, hhonest⟩ := hinv
  have hown : ownLock (s.slot p).pc = false := by
    simpa using hsound.not_ownLock hlock (by simp)
  have hsched : ∀ k, schedLock (s.cpu k) ≠ some p := fun k hk => by
    have := hsound.sched k p hk
    rw [hlock] at this
    cases this
  have hactive : IsRunning (s.slot p).pc → (s.slot p).state = .running := fun h =>
    hhonest p (active_of_running h hown)
  refine ⟨⟨fun hst => ?_, ?_⟩, ⟨fun hst => ?_, ?_⟩⟩
  · have hpc : IsRunning (s.slot p).pc := by
      by_contra hno
      have := (Local.ready (hsound.slot p) (Or.inr hst) hno).2
      rw [hst] at this
      cases this
    obtain ⟨k, hk⟩ := (hplaced.sits p).running hpc
    exact ⟨k, proc_eq_some.mpr (Or.inl hk)⟩
  · rintro ⟨k, hk⟩
    rcases proc_eq_some.mp hk with hk | hk
    · exact hactive ((hplaced.sits p).allows (.run k) hk)
    · exact absurd (by rw [hk]; rfl) (hsched k)
  · have hpc : ¬ IsRunning (s.slot p).pc := fun h => by
      have := hactive h
      rw [hst] at this
      cases this
    obtain ⟨hpark, -⟩ := Local.ready (hsound.slot p) (Or.inl hst) hpc
    obtain ⟨x, hx⟩ := (hplaced.sits p).ready hpark hst
    cases x with
    | queue => exact Or.inl hx
    | popped k =>
      rcases hx with hx | hx
      · exact Or.inr ⟨k, hx⟩
      · exact absurd (by rw [hx]; rfl) (hsched k)
    | run k => exact absurd ((hplaced.sits p).allows (.run k) hx) hpc
    | back k => exact absurd (by rw [show s.cpu k = .back p from hx]; rfl) (hsched k)
  · rintro (hq | ⟨k, hk⟩)
    · exact ((hplaced.sits p).allows .queue hq).2
    · exact ((hplaced.sits p).allows (.popped k) (Or.inl hk)).2

/-- `init_proc` runs. -/
theorem state_matches_role_sample : ∃ s : State 0 Unit, (s.slot 0).state = .running ∧ Matches s 0 := by
  have hno : ∀ {s s' : State 0 Unit}, (s.slot 0).pc ≠ .user → ¬ Execs s s' := by
    rintro s s' h ⟨p, hp, -⟩
    obtain rfl : p = 0 := Fin.fin_one_eq_zero p
    exact h hp
  have hstart : Run (fun s event s' => Step s event s' ∧ ¬ Execs s s') (start : State 0 Unit) []
    start := Run.refl
  have hrun := hstart
    |>.tail ⟨.pop () 0 rfl rfl, hno fun hc => by cases hc⟩
    |>.tail ⟨.lock () 0 rfl rfl, hno fun hc => by cases hc⟩
    |>.tail ⟨.dispatch () 0 rfl rfl rfl, hno fun hc => by cases hc⟩
    |>.tail ⟨.own () 0 rfl (.backFirst rfl), hno fun hc => by cases hc⟩
  exact ⟨_, rfl, state_matches_role hrun rfl⟩

/-- **After `exec` a process is `RUNNABLE` while it runs.** -/
theorem exec_unmatched : ∃ (s : State 0 Unit) (events : List (Event 0)), Run Step start events s ∧
    (s.slot 0).lock = none ∧ (s.slot 0).state = .runnable ∧ s.cpu () = .run 0 ∧ 0 ∉ s.queue ∧
    ¬ Matches s 0 := by
  have hstart : Run Step (start : State 0 Unit) [] start := Run.refl
  have hrun := hstart
    |>.tail (.pop () 0 rfl rfl) |>.tail (.lock () 0 rfl rfl) |>.tail (.dispatch () 0 rfl rfl rfl)
    |>.tail (.own () 0 rfl (.backFirst rfl)) |>.tail (.own () 0 rfl (.exec rfl rfl))
  refine ⟨_, _, hrun, rfl, rfl, rfl, List.not_mem_nil, fun hm => ?_⟩
  cases hm.running.mpr ⟨(), rfl⟩

end UCore.Proc.Roles

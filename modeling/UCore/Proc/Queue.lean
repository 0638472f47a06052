import Mathlib.Data.Fintype.Card
import UCore.Proc.Locks

/-! # The task queue

Where a process can be found: in `task_queue`, with a scheduler that has popped it, or as `c->proc`. It
is at one of these places when it is to run, and at none when it is not (`process_placed`). The places
change together with the state under `p->lock`, except in `pop_queue`, which moves a process from one
place to the next. -/

namespace UCore.Proc.Queue

open UCore.Proc.State UCore.Proc.Table UCore.Proc.Locks UCore.Lib.Runs

variable {n : ℕ} {κ : Type} {s s' : State n κ} {p q r : Fin (n + 1)} {k : κ} {t t' : Slot n κ}
  {wl wl' : Option (Fin (n + 1))} {event : Event n} {events : List (Event n)} {pc pc' : Pc n}
  {add : Bool}

/-! ### Places -/

inductive Place (κ : Type)
  | queue
  | popped (k : κ)
  | run (k : κ)
  /-- Still `c->proc`, but switched away. -/
  | back (k : κ)

/-- The process `p` is at a place. -/
def At (s : State n κ) (p : Fin (n + 1)) : Place κ → Prop
  | .queue => p ∈ s.queue
  | .popped k => s.cpu k = .popped p ∨ s.cpu k = .locked p
  | .run k => s.cpu k = .run p
  | .back k => s.cpu k = .back p

def IsParked (pc : Pc n) : Prop := ∃ c, pc = .parked c

/-- The thread is on some CPU. -/
def IsRunning (pc : Pc n) : Prop := pc ≠ .off ∧ ¬ IsParked pc

/-- What a slot at a place is like. -/
def Allows (t : Slot n κ) : Place κ → Prop
  | .queue | .popped _ => IsParked t.pc ∧ t.state = .runnable
  | .run _ => IsRunning t.pc
  | .back _ => IsParked t.pc

/-- The slot `t` of `p` fits with the places of `p`. -/
structure Sits (s : State n κ) (p : Fin (n + 1)) (t : Slot n κ) : Prop where
  allows : ∀ x, At s p x → Allows t x
  running : IsRunning t.pc → ∃ k, At s p (.run k)
  ready : IsParked t.pc → t.state = .runnable → ∃ x, At s p x

/-- **The invariant of the task queue.** -/
structure Placed (s : State n κ) : Prop where
  nodup : s.queue.Nodup
  unique : ∀ p x y, At s p x → At s p y → x = y
  sits : ∀ p, Sits s p (s.slot p)
  calm : ∀ k, s.cpu k ≠ .panicked

theorem Sits.congr (h : Sits s p t) (hat : ∀ x, At s' p x ↔ At s p x)
    (hrun : IsRunning t'.pc ↔ IsRunning t.pc) (hpark : IsParked t'.pc ↔ IsParked t.pc)
    (hstate : IsParked t.pc → (t'.state = .runnable ↔ t.state = .runnable)) : Sits s' p t' := by
  refine ⟨fun x hx => ?_, fun ht => ?_, fun ht hst => ?_⟩
  · have hold := h.allows x ((hat x).mp hx)
    cases x with
    | queue => exact ⟨hpark.mpr hold.1, (hstate hold.1).mpr hold.2⟩
    | popped k => exact ⟨hpark.mpr hold.1, (hstate hold.1).mpr hold.2⟩
    | run k => exact hrun.mpr hold
    | back k => exact hpark.mpr hold
  · obtain ⟨k, hk⟩ := h.running (hrun.mp ht)
    exact ⟨k, (hat _).mpr hk⟩
  · obtain ⟨x, hx⟩ := h.ready (hpark.mp ht) ((hstate (hpark.mp ht)).mp hst)
    exact ⟨x, (hat x).mpr hx⟩

/-- A slot changes, and nobody moves. -/
theorem Placed.set (hs : Placed s) (ht : Sits s p t) : Placed (s.set p t) := by
  refine ⟨hs.nodup, hs.unique, fun r => ?_, hs.calm⟩
  by_cases hr : r = p
  · subst hr
    rw [set_self]
    exact ⟨ht.allows, ht.running, ht.ready⟩
  · rw [set_of_ne _ _ hr]
    exact ⟨(hs.sits r).allows, (hs.sits r).running, (hs.sits r).ready⟩

theorem Placed.set_same (hs : Placed s) (hrun : IsRunning t.pc ↔ IsRunning (s.slot p).pc)
    (hpark : IsParked t.pc ↔ IsParked (s.slot p).pc)
    (hstate : IsParked (s.slot p).pc → (t.state = .runnable ↔ (s.slot p).state = .runnable)) :
    Placed (s.set p t) :=
  hs.set ((hs.sits p).congr (fun _ => Iff.rfl) hrun hpark hstate)

/-- **One process moves.** -/
theorem Placed.move (hs : Placed s) (hnodup : s'.queue.Nodup)
    (hother : ∀ r, r ≠ p → ∀ x, At s' r x ↔ At s r x) (hslot : ∀ r, r ≠ p → s'.slot r = s.slot r)
    (hunique : ∀ x y, At s' p x → At s' p y → x = y) (hp : Sits s' p (s'.slot p))
    (hcalm : ∀ k, s'.cpu k ≠ .panicked) : Placed s' := by
  refine ⟨hnodup, fun r x y hx hy => ?_, fun r => ?_, hcalm⟩
  · by_cases hr : r = p
    · subst hr
      exact hunique x y hx hy
    · exact hs.unique r x y ((hother r hr x).mp hx) ((hother r hr y).mp hy)
  · by_cases hr : r = p
    · subst hr
      exact hp
    · rw [hslot r hr]
      exact (hs.sits r).congr (hother r hr) Iff.rfl Iff.rfl fun _ => Iff.rfl

theorem Placed.congr (hs : Placed s) (hslot : s'.slot = s.slot) (hcpu : s'.cpu = s.cpu)
    (hqueue : s'.queue = s.queue) : Placed s' := by
  have hat : ∀ p x, At s' p x ↔ At s p x := by
    intro p x
    cases x <;> simp only [At, hcpu, hqueue]
  refine ⟨hqueue ▸ hs.nodup, fun p x y hx hy => ?_, fun p => ?_, fun k => hcpu ▸ hs.calm k⟩
  · exact hs.unique p x y ((hat p x).mp hx) ((hat p y).mp hy)
  · rw [hslot]
    exact (hs.sits p).congr (hat p) Iff.rfl Iff.rfl fun _ => Iff.rfl

/-! ### A process becomes ready -/

theorem at_addTask (hne : r ≠ p) (x : Place κ) : At (s.addTask p) r x ↔ At s r x := by
  cases x <;> simp [At, State.addTask, hne]

/-- A process at no place becomes `RUNNABLE` and goes to the end of the queue. -/
theorem Placed.enqueue (hs : Placed s) (hno : ∀ x, ¬ At s p x) (hpc : IsParked t.pc)
    (hstate : t.state = .runnable) : Placed ((s.addTask p).set p t) := by
  have honly : ∀ x, At ((s.addTask p).set p t) p x → x = .queue := by
    intro x hx
    cases x with
    | queue => rfl
    | popped k => exact absurd hx (hno (.popped k))
    | run k => exact absurd hx (hno (.run k))
    | back k => exact absurd hx (hno (.back k))
  have hin : At ((s.addTask p).set p t) p .queue := by simp [At, State.set, State.addTask]
  refine hs.move ?_ (fun r hr x => at_addTask hr x) (fun r hr => set_of_ne _ _ hr)
    (fun x y hx hy => (honly x hx).trans (honly y hy).symm) ?_ hs.calm
  · have hp : p ∉ s.queue := hno .queue
    simpa [State.set, State.addTask, List.nodup_append] using ⟨hs.nodup, fun a ha h => hp (h ▸ ha)⟩
  · rw [set_self]
    refine ⟨fun x hx => ?_, fun hrun => absurd hpc hrun.2, fun _ _ => ⟨_, hin⟩⟩
    obtain rfl := honly x hx
    exact ⟨hpc, hstate⟩

/-- A slot whose lock is free and that is not to run is at no place. -/
theorem Placed.nowhere (hs : Placed s) (hsound : Sound s) (hlock : (s.slot p).lock = none)
    (hstate : (s.slot p).state ≠ .runnable) (hpc : ¬ IsRunning (s.slot p).pc) (x : Place κ) :
    ¬ At s p x := by
  intro hx
  have hallows := (hs.sits p).allows x hx
  cases x with
  | queue => exact hstate hallows.2
  | popped k => exact hstate hallows.2
  | run k => exact hpc hallows
  | back k =>
    have := hsound.sched k p (by rw [show s.cpu k = .back p from hx]; rfl)
    rw [hlock] at this
    cases this

/-- A sleeping slot whose lock is free is switched away. -/
theorem Local.parked (h : Local p t) (hlock : t.lock = none) (hst : t.state = .sleeping) :
    IsParked t.pc := by
  obtain ⟨hfits, hown⟩ := h
  rw [hlock] at hown
  rw [hst] at hfits
  unfold Fits at hfits
  split at hfits <;> simp_all [ownLock, IsParked]

/-- A thread that is on a CPU with the lock of its slot free is `RUNNING`, or `RUNNABLE` after
`exec`. -/
theorem Local.running (h : Local p t) (hlock : t.lock = none) (hrun : IsRunning t.pc) :
    t.state = .running ∨ t.state = .runnable := by
  obtain ⟨hfits, hown⟩ := h
  rw [hlock] at hown
  unfold Fits at hfits
  split at hfits <;> simp_all [ownLock, IsRunning, IsParked]

/-- A process that is to run, and is not on a CPU, is switched away and `RUNNABLE`. -/
theorem Local.ready (h : Local p t) (hst : t.state = .runnable ∨ t.state = .running)
    (hno : ¬ IsRunning t.pc) : IsParked t.pc ∧ t.state = .runnable := by
  have hfits := h.fits
  by_cases hoff : t.pc = .off
  · rw [hoff] at hfits
    rcases hst with hst | hst <;> simp [Fits, hst] at hfits
  · obtain ⟨c, hc⟩ := not_not.mp fun hp => hno ⟨hoff, hp⟩
    refine ⟨⟨c, hc⟩, hst.resolve_right fun hrun => ?_⟩
    rw [hc, hrun] at hfits
    cases c <;> simp [Fits] at hfits

/-- `wakeup` puts a process into the queue when it makes it `RUNNABLE`. -/
theorem Placed.wakeup (hs : Placed s) (hsound : Sound s) (hlock : (s.slot q).lock = none)
    (chan : Chan n) :
    Placed ((if ((s.slot q).wakeup chan).2 then s.addTask q else s).set q
      ((s.slot q).wakeup chan).1) := by
  unfold Slot.wakeup
  by_cases hw : (s.slot q).state = .sleeping ∧ (s.slot q).sleepChan = chan
  · have hpark := Local.parked (hsound.slot q) hlock hw.1
    simp only [if_pos hw, if_true]
    exact hs.enqueue (hs.nowhere hsound hlock (by simp [hw.1]) fun h => h.2 hpark) hpark rfl
  · simp only [if_neg hw, Bool.false_eq_true, if_false]
    exact hs.set (hs.sits q)

/-! ### The steps of a process -/

theorem Own.running (h : Own p wl t event wl' t') : IsRunning t.pc ∧ IsRunning t'.pc := by
  cases h <;> simp_all [IsRunning, IsParked]

theorem Visit.running (h : Visit p q pc t event pc' t' add) : IsRunning pc ∧ IsRunning pc' := by
  cases h <;> simp [IsRunning, IsParked]

/-- A thread that is on a CPU moves on. -/
theorem Placed.goto (hs : Placed s) (hold : IsRunning (s.slot p).pc) (hnew : IsRunning pc) :
    Placed (s.goto p pc) :=
  hs.set_same (iff_of_true hnew hold) (iff_of_false hnew.2 hold.2) fun h => absurd h hold.2

theorem Placed.visit (hs : Placed s) (hsound : Sound s) (hlock : (s.slot q).lock = none)
    (h : Visit p q (s.slot p).pc (s.slot q) event pc t add) :
    Placed (((if add then s.addTask q else s).set q t).goto p pc) := by
  obtain ⟨hold, hnew⟩ := Visit.running h
  have hthread := (Visit.thread h).2
  have hset : Placed ((if add then s.addTask q else s).set q t) := by
    generalize (s.slot p).pc = pc₀ at h
    cases h with
    | forkScan hne => exact hs.set (hs.sits q)
    | wakeup => exact hs.wakeup hsound hlock _
    | reparent hqp =>
      refine hs.set_same ?_ ?_ fun _ => ?_
      all_goals split_ifs <;> rfl
    | scan hqp hno => exact hs.set (hs.sits q)
    | reap hqp hparent hex =>
      -- a `ZOMBIE` whose lock is free is at no place
      have hno := hs.nowhere hsound hlock (by simp [hex.1]) fun hrun => by
        have hst := Local.running (hsound.slot q) hlock hrun
        rw [hex.1] at hst
        simp at hst
      refine hs.set ⟨fun x hx => absurd hx (hno x), fun hrun => absurd rfl hrun.1, ?_⟩
      rintro ⟨c, hc⟩
      cases hc
  refine hset.goto ?_ hnew
  by_cases hpq : p = q
  · subst hpq
    rw [set_self]
    rcases hthread with hpc | ⟨-, hne⟩
    · rwa [hpc]
    · exact absurd rfl hne
  · rw [set_of_ne _ _ hpq]
    cases add <;> exact hold

theorem Placed.alloc (hs : Placed s) {l : List (Fin (n + 1))} {pid : ℤ} (hsound : Sound s)
    (hp : (s.slot p).pc = .forkScan (q :: l)) (hq : (s.slot q).state = .unused) :
    Placed ((s.set q ((s.slot q).allocproc pid p)).goto p (.forkLock q)) := by
  have hoff : (s.slot q).pc = .off := Fits.not_unused (hq ▸ (hsound.slot q).fits)
  have hne : p ≠ q := by
    rintro rfl
    rw [hp] at hoff
    cases hoff
  have hset : Placed (s.set q ((s.slot q).allocproc pid p)) := by
    refine hs.set_same Iff.rfl Iff.rfl ?_
    rintro ⟨c, hc⟩
    rw [hoff] at hc
    cases hc
  refine hset.goto ?_ (by simp [IsRunning, IsParked])
  rw [set_of_ne _ _ hne, hp]
  simp [IsRunning, IsParked]

theorem Placed.fork (hs : Placed s) (hsound : Sound s) (hp : (s.slot p).pc = .forkCopy q) :
    Placed (((s.set q { s.slot q with
      parent := some p, state := .runnable, pc := .parked .first }).addTask q).goto p
        (.forkDone q)) := by
  have hcreating : creating (s.slot p).pc = some q := by rw [hp]; rfl
  have hne := (hsound.child p q (childLock_of_creating hcreating)).1
  obtain ⟨hused, hoff⟩ := hsound.created p q hcreating
  -- a slot that is being made is at no place
  have hno : ∀ x, ¬ At s q x := by
    intro x hx
    have hallows := (hs.sits q).allows x hx
    cases x <;> simp [Allows, IsRunning, IsParked, hoff] at hallows
  have hset := hs.enqueue (t := { s.slot q with
    parent := some p, state := .runnable, pc := .parked .first }) hno ⟨_, rfl⟩ rfl
  refine Placed.goto (hset.congr rfl rfl rfl) ?_ (by simp [IsRunning, IsParked])
  change IsRunning ((s.set q _).slot p).pc
  rw [set_of_ne _ _ hne.symm, hp]
  simp [IsRunning, IsParked]

theorem placed_start : Placed (start : State n κ) := by
  have honly : ∀ p x, At (start : State n κ) p x → x = .queue ∧ p = init_proc := by
    intro p x hx
    cases x with
    | queue => exact ⟨rfl, List.mem_singleton.mp hx⟩
    | popped k => rcases hx with hx | hx <;> cases hx
    | run k => cases hx
    | back k => cases hx
  refine ⟨List.nodup_singleton _, fun p x y hx hy => ?_, fun p => ⟨fun x hx => ?_, fun hp => ?_,
    fun hp _ => ⟨.queue, ?_⟩⟩, fun k h => by cases h⟩
  · rw [(honly p x hx).1, (honly p y hy).1]
  · obtain ⟨rfl, rfl⟩ := honly p x hx
    exact ⟨⟨.first, rfl⟩, rfl⟩
  · by_cases h : p = init_proc <;> simp [start, h, IsRunning, IsParked] at hp
  · by_cases h : p = init_proc
    · exact List.mem_singleton.mpr h
    · simp [start, h, IsParked] at hp

/-! ### Occurrences -/

/-- An entry of `task_queue`, a scheduler that has popped a process and not dispatched it yet, or a
`c->proc`. -/
inductive Spot (κ : Type)
  | entry (m : ℕ)
  | popped (k : κ)
  | current (k : κ)

def Occurs (s : State n κ) (p : Fin (n + 1)) : Spot κ → Prop
  | .entry m => s.queue[m]? = some p
  | .popped k => s.cpu k = .popped p ∨ s.cpu k = .locked p
  | .current k => (s.cpu k).proc = some p

theorem proc_eq_some {c : Cpu n} : c.proc = some p ↔ c = .run p ∨ c = .back p := by
  cases c <;> simp [Cpu.proc]

/-- A process that occurs is at a place. -/
theorem Occurs.at {x : Spot κ} (h : Occurs s p x) : ∃ y, At s p y := by
  cases x with
  | entry m => exact ⟨.queue, List.mem_of_getElem? h⟩
  | popped k => exact ⟨.popped k, h⟩
  | current k =>
    rcases proc_eq_some.mp h with h | h
    · exact ⟨.run k, h⟩
    · exact ⟨.back k, h⟩

theorem At.occurs {x : Place κ} (h : At s p x) : ∃ y, Occurs s p y := by
  cases x with
  | queue =>
    obtain ⟨m, hm⟩ := List.mem_iff_getElem?.mp h
    exact ⟨.entry m, hm⟩
  | popped k => exact ⟨.popped k, h⟩
  | run k => exact ⟨.current k, proc_eq_some.mpr (Or.inl h)⟩
  | back k => exact ⟨.current k, proc_eq_some.mpr (Or.inr h)⟩

theorem Placed.occurs_once (hs : Placed s) {x y : Spot κ} (hx : Occurs s p x) (hy : Occurs s p y) :
    x = y := by
  have hu := hs.unique p
  cases x with
  | entry m =>
    have hat : At s p .queue := List.mem_of_getElem? hx
    cases y with
    | entry m' =>
      obtain ⟨hm, hget⟩ := List.getElem?_eq_some_iff.mp hx
      obtain ⟨hm', hget'⟩ := List.getElem?_eq_some_iff.mp hy
      rw [(hs.nodup.getElem_inj_iff).mp (hget.trans hget'.symm)]
    | popped k => cases hu _ (.popped k) hat hy
    | current k =>
      rcases proc_eq_some.mp hy with h | h
      · cases hu _ (.run k) hat h
      · cases hu _ (.back k) hat h
  | popped k =>
    cases y with
    | entry m => cases hu (.popped k) .queue hx (List.mem_of_getElem? hy)
    | popped k' => cases hu (.popped k) (.popped k') hx hy; rfl
    | current k' =>
      rcases proc_eq_some.mp hy with h | h
      · cases hu (.popped k) (.run k') hx h
      · cases hu (.popped k) (.back k') hx h
  | current k =>
    cases y with
    | entry m =>
      rcases proc_eq_some.mp hx with h | h
      · cases hu (.run k) .queue h (List.mem_of_getElem? hy)
      · cases hu (.back k) .queue h (List.mem_of_getElem? hy)
    | popped k' =>
      rcases proc_eq_some.mp hx with h | h
      · cases hu (.run k) (.popped k') h hy
      · cases hu (.back k) (.popped k') h hy
    | current k' =>
      rcases proc_eq_some.mp hx with h | h <;> rcases proc_eq_some.mp hy with h' | h'
      · cases hu (.run k) (.run k') h h'; rfl
      · cases hu (.run k) (.back k') h h'
      · cases hu (.back k) (.run k') h h'
      · cases hu (.back k) (.back k') h h'; rfl

/-! ### The steps of a scheduler -/

variable [DecidableEq κ]

@[simp] theorem setCpu_self (s : State n κ) (k : κ) (c : Cpu n) : (s.setCpu k c).cpu k = c :=
  Function.update_self _ _ _

theorem setCpu_of_ne (s : State n κ) (c : Cpu n) {m : κ} (h : m ≠ k) :
    (s.setCpu k c).cpu m = s.cpu m :=
  Function.update_of_ne h _ _

/-- The process that a CPU has. -/
def proc : Cpu n → Option (Fin (n + 1))
  | .popped p | .locked p | .run p | .back p => some p
  | _ => none

/-- A process that is not at the CPU `k`, before or after, stays where it is. -/
theorem at_setCpu {c : Cpu n} (hold : proc (s.cpu k) ≠ some r) (hnew : proc c ≠ some r)
    (x : Place κ) : At (s.setCpu k c) r x ↔ At s r x := by
  have hno : ∀ c : Cpu n, proc c ≠ some r →
      c ≠ .popped r ∧ c ≠ .locked r ∧ c ≠ .run r ∧ c ≠ .back r := by
    intro c hc
    refine ⟨?_, ?_, ?_, ?_⟩ <;> rintro rfl <;> exact hc rfl
  obtain ⟨h1, h2, h3, h4⟩ := hno _ hold
  obtain ⟨h1', h2', h3', h4'⟩ := hno _ hnew
  have hcase : ∀ m, m = k ∨ m ≠ k := fun m => eq_or_ne m k
  cases x with
  | queue => exact Iff.rfl
  | popped m =>
    rcases hcase m with rfl | hm
    · simp [At, h1, h2, h1', h2']
    · simp [At, setCpu_of_ne _ _ hm]
  | run m =>
    rcases hcase m with rfl | hm
    · simp [At, h3, h3']
    · simp [At, setCpu_of_ne _ _ hm]
  | back m =>
    rcases hcase m with rfl | hm
    · simp [At, h4, h4']
    · simp [At, setCpu_of_ne _ _ hm]

/-- A process that was at a place of the CPU `k` can only be there afterwards. -/
theorem Placed.at_only (hs : Placed s) {c : Cpu n} {x₀ x : Place κ} (hx₀ : At s p x₀)
    (hk : x₀ = .popped k ∨ x₀ = .run k ∨ x₀ = .back k) (hx : At (s.setCpu k c) p x) :
    x = .popped k ∧ (c = .popped p ∨ c = .locked p) ∨ x = .run k ∧ c = .run p ∨
      x = .back k ∧ c = .back p := by
  have hno : ∀ y, At s p y → y = x₀ := fun y hy => hs.unique p y x₀ hy hx₀
  cases x with
  | queue =>
    have := hno .queue hx
    rcases hk with rfl | rfl | rfl <;> cases this
  | popped m =>
    by_cases hm : m = k
    · subst hm
      simp only [At, setCpu_self] at hx
      exact Or.inl ⟨rfl, hx⟩
    · have := hno (.popped m) (by simpa [At, setCpu_of_ne _ _ hm] using hx)
      rcases hk with rfl | rfl | rfl <;> simp_all
  | run m =>
    by_cases hm : m = k
    · subst hm
      simp only [At, setCpu_self] at hx
      exact Or.inr (Or.inl ⟨rfl, hx⟩)
    · have := hno (.run m) (by simpa [At, setCpu_of_ne _ _ hm] using hx)
      rcases hk with rfl | rfl | rfl <;> simp_all
  | back m =>
    by_cases hm : m = k
    · subst hm
      simp only [At, setCpu_self] at hx
      exact Or.inr (Or.inr ⟨rfl, hx⟩)
    · have := hno (.back m) (by simpa [At, setCpu_of_ne _ _ hm] using hx)
      rcases hk with rfl | rfl | rfl <;> simp_all

theorem Placed.setCpu_calm (hs : Placed s) {c : Cpu n} (hc : c ≠ .panicked) (m : κ) :
    (s.setCpu k c).cpu m ≠ .panicked := by
  by_cases hm : m = k
  · subst hm
    rwa [setCpu_self]
  · rw [setCpu_of_ne _ _ hm]
    exact hs.calm m

/-- **A CPU and the process that it has move on**, to the place `x`. -/
theorem Placed.setCpu (hs : Placed s) {c : Cpu n} {x₀ x : Place κ} (hx₀ : At s p x₀)
    (hk : x₀ = .popped k ∨ x₀ = .run k ∨ x₀ = .back k) (hproc : proc (s.cpu k) = some p)
    (hnew : proc c = some p) (hx : At (s.setCpu k c) p x) (hallows : Allows t x)
    (hrun : IsRunning t.pc → ∃ m, x = .run m) : Placed ((s.set p t).setCpu k c) := by
  have honly : ∀ y, At (s.setCpu k c) p y → y = x := by
    intro y hy
    rcases hs.at_only hx₀ hk hx with ⟨rfl, hc⟩ | ⟨rfl, rfl⟩ | ⟨rfl, rfl⟩ <;>
      rcases hs.at_only hx₀ hk hy with ⟨rfl, hc'⟩ | ⟨rfl, hc'⟩ | ⟨rfl, hc'⟩ <;> simp_all
  have hother : ∀ r, r ≠ p → some p ≠ some r := fun r hr h => hr (Option.some.inj h).symm
  refine hs.move hs.nodup
    (fun r hr y => at_setCpu (hproc.trans_ne (hother r hr)) (hnew.trans_ne (hother r hr)) y)
    (fun r hr => set_of_ne _ _ hr) (fun y z hy hz => (honly y hy).trans (honly z hz).symm) ?_
    (hs.setCpu_calm ?_)
  · change Sits _ p ((s.set p t).slot p)
    rw [set_self]
    refine ⟨fun y hy => ?_, fun hr => ?_, fun _ _ => ⟨x, hx⟩⟩
    · obtain rfl := honly y hy
      exact hallows
    · obtain ⟨m, rfl⟩ := hrun hr
      exact ⟨m, hx⟩
  · rintro rfl
    cases hnew

theorem Placed.back (hs : Placed s) (hk : s.cpu k = .back p) :
    Placed ((if (s.slot p).state = .runnable then s.addTask p else s).setCpu k (.unlock p)) := by
  have hat : At s p (.back k) := hk
  have hpark : IsParked (s.slot p).pc := (hs.sits p).allows _ hat
  have hnone : ∀ x, ¬ At (s.setCpu k (.unlock p)) p x := by
    intro x hx
    rcases hs.at_only hat (Or.inr (Or.inr rfl)) hx with ⟨-, h | h⟩ | ⟨-, h⟩ | ⟨-, h⟩ <;> cases h
  have hold : ∀ r, r ≠ p → proc (s.cpu k) ≠ some r := fun r hr h => by
    rw [hk] at h
    exact hr (Option.some.inj h).symm
  split_ifs with hst
  · have honly : ∀ x, At ((s.addTask p).setCpu k (.unlock p)) p x → x = .queue := by
      intro x hx
      cases x with
      | queue => rfl
      | popped m => exact absurd hx (hnone (.popped m))
      | run m => exact absurd hx (hnone (.run m))
      | back m => exact absurd hx (hnone (.back m))
    have hin : At ((s.addTask p).setCpu k (.unlock p)) p .queue := by
      simp [At, State.setCpu, State.addTask]
    refine hs.move ?_ (fun r hr x => ?_) (fun _ _ => rfl)
      (fun x y hx hy => (honly x hx).trans (honly y hy).symm)
      ⟨fun x hx => ?_, fun hrun => absurd hpark hrun.2, fun _ _ => ⟨_, hin⟩⟩
      (hs.setCpu_calm (by simp))
    · have hp : p ∉ s.queue := hnone .queue
      simpa [State.setCpu, State.addTask, List.nodup_append] using
        ⟨hs.nodup, fun a ha h => hp (h ▸ ha)⟩
    · refine Iff.trans ?_ (at_addTask hr x)
      exact at_setCpu (s := s.addTask p) (hold r hr) (by simp [proc]) x
    · obtain rfl := honly x hx
      exact ⟨hpark, hst⟩
  · exact hs.move hs.nodup (fun r hr x => at_setCpu (hold r hr) (by simp [proc]) x)
      (fun _ _ => rfl) (fun x y hx _ => absurd hx (hnone x))
      ⟨fun x hx => absurd hx (hnone x), fun hrun => absurd hpark hrun.2, fun _ h => absurd h hst⟩
      (hs.setCpu_calm (by simp))

theorem Placed.pop (hs : Placed s) {l : List (Fin (n + 1))} (hk : s.cpu k = .loop)
    (hq : s.queue = p :: l) : Placed ({ s with queue := l }.setCpu k (.popped p)) := by
  have hat : At s p .queue := by simp [At, hq]
  have hno : ∀ x, At s p x → x = .queue := fun x hx => hs.unique p x _ hx hat
  have hnodup := hs.nodup
  rw [hq, List.nodup_cons] at hnodup
  have honly : ∀ x, At ({ s with queue := l }.setCpu k (.popped p)) p x → x = .popped k := by
    intro x hx
    cases x with
    | queue => exact absurd hx hnodup.1
    | popped m =>
      by_cases hm : m = k
      · rw [hm]
      · have := hno (.popped m) (by simpa [At, setCpu_of_ne _ _ hm] using hx)
        cases this
    | run m =>
      by_cases hm : m = k
      · subst hm
        simp [At] at hx
      · have := hno (.run m) (by simpa [At, setCpu_of_ne _ _ hm] using hx)
        cases this
    | back m =>
      by_cases hm : m = k
      · subst hm
        simp [At] at hx
      · have := hno (.back m) (by simpa [At, setCpu_of_ne _ _ hm] using hx)
        cases this
  have hin : At ({ s with queue := l }.setCpu k (.popped p)) p (.popped k) := by simp [At]
  have hallows := (hs.sits p).allows _ hat
  refine hs.move hnodup.2 (fun r hr x => ?_) (fun _ _ => rfl)
    (fun x y hx hy => (honly x hx).trans (honly y hy).symm)
    ⟨fun x hx => ?_, fun hrun => absurd hallows.1 hrun.2, fun _ _ => ⟨_, hin⟩⟩ (fun m => ?_)
  · refine (at_setCpu (s := { s with queue := l }) ?_ ?_ x).trans ?_
    · simp [hk, proc]
    · simpa [proc] using hr.symm
    · cases x <;> simp [At, hq, hr]
  · obtain rfl := honly x hx
    exact hallows
  · exact Placed.setCpu_calm hs (c := .popped p) (by simp) m

theorem Placed.step (hs : Placed s) (hsound : Sound s) (h : Step s event s') : Placed s' := by
  cases h with
  | own k p hk h =>
    obtain ⟨hold, hnew⟩ := Own.running h
    refine (hs.set_same (iff_of_true hnew hold) (iff_of_false hnew.2 hold.2) fun hpark => ?_).congr
      rfl rfl rfl
    exact absurd hpark hold.2
  | visit k p q hk hlock h => exact hs.visit hsound hlock h
  | alloc k p q hk hp hlock hq => exact (hs.alloc hsound hp hq).congr rfl rfl rfl
  | fork k p q hk hp => exact hs.fork hsound hp
  | forkDone k p q hk hp =>
    have hset : Placed (s.set q { s.slot q with lock := none }) :=
      hs.set_same Iff.rfl Iff.rfl fun _ => Iff.rfl
    have hne := (hsound.child p q (by rw [hp]; rfl)).1
    refine hset.goto ?_ (by simp [IsRunning, IsParked])
    rw [set_of_ne _ _ hne.symm, hp]
    simp [IsRunning, IsParked]
  | @switch c k p hk hp =>
    have hat : At s p (.run k) := hk
    refine hs.setCpu (x := .back k) hat (Or.inr (Or.inl rfl)) (by rw [hk]; rfl) rfl
      (setCpu_self _ _ _) ⟨c, rfl⟩ fun hrun => absurd ⟨c, rfl⟩ hrun.2
  | back k p hk => exact hs.back hk
  | unlock k p hk =>
    have hset : Placed (s.set p { s.slot p with lock := none }) :=
      hs.set_same Iff.rfl Iff.rfl fun _ => Iff.rfl
    have hat := fun r x => at_setCpu (s := s.set p { s.slot p with lock := none }) (k := k) (r := r)
      (c := .loop) (by simp [State.set, hk, proc]) (by simp [proc]) x
    refine ⟨hset.nodup, fun r x y hx hy => ?_, fun r => ?_, hset.setCpu_calm (by simp)⟩
    · exact hset.unique r x y ((hat r x).mp hx) ((hat r y).mp hy)
    · exact (hset.sits r).congr (hat r) Iff.rfl Iff.rfl fun _ => Iff.rfl
  | pop k p hk hq => exact hs.pop hk hq
  | lock k p hk hlock =>
    have hat : At s p (.popped k) := Or.inl hk
    have hallows := (hs.sits p).allows _ hat
    exact hs.setCpu (x := .popped k) hat (Or.inl rfl) (by rw [hk]; rfl) rfl
      (Or.inr (setCpu_self _ _ _)) hallows fun hrun => absurd hallows.1 hrun.2
  | @dispatch c k p hk hstate hp =>
    have hat : At s p (.popped k) := Or.inr hk
    exact hs.setCpu (x := .run k) hat (Or.inl rfl) (by rw [hk]; rfl) rfl (setCpu_self _ _ _)
      ⟨by simp, fun ⟨_, h⟩ => by cases h⟩ fun _ => ⟨k, rfl⟩
  | panic k p hk hstate =>
    have hat : At s p (.popped k) := Or.inr hk
    exact absurd ((hs.sits p).allows _ hat).2 hstate
  | wakeup q hlock hw =>
    have := hs.wakeup hsound hlock .cons
    rwa [if_pos hw] at this

/-! ### Every run -/

theorem placed_run (hrun : Run Step (start : State n κ) events s) : Placed s := by
  have hinv := hrun.invariant (I := fun s => Sound s ∧ Placed s) ⟨sound_start, placed_start⟩
    fun _ _ _ hI hstep => ⟨hI.1.step hstep, hI.2.step hI.1 hstep⟩
  exact hinv.2

/-- **Every process is where it belongs.** It occurs at most once; when its lock is free, it occurs if
it is `RUNNABLE` or `RUNNING`, and only then. So `push_queue` finds room, the process that a scheduler
has locked is `RUNNABLE` and switched away, and a process that has called `exit` does not return from
`sched`. -/
theorem process_placed (hrun : Run Step (start : State n κ) events s) :
    (∀ p x y, Occurs s p x → Occurs s p y → x = y) ∧
    (∀ p, (s.slot p).lock = none →
      ((∃ x, Occurs s p x) ↔ (s.slot p).state = .runnable ∨ (s.slot p).state = .running)) ∧
    (∀ p event s', Step s event s' → s'.queue = s.queue ++ [p] → s.queue.length < n + 1) ∧
    (∀ k p, s.cpu k = .locked p → (s.slot p).state = .runnable ∧ ∃ c, (s.slot p).pc = .parked c) ∧
    (∀ k, s.cpu k ≠ .panicked) ∧ ∀ p, (s.slot p).pc ≠ .back .exit := by
  have hsound := sound_run hrun
  have hs := placed_run hrun
  refine ⟨fun p x y => hs.occurs_once, fun p hlock => ⟨?_, fun hst => ?_⟩,
    fun p event s' hstep hq => ?_, fun k p hk => ?_, hs.calm, fun p hp => ?_⟩
  · rintro ⟨x, hx⟩
    obtain ⟨y, hy⟩ := hx.at
    by_contra hno
    rw [not_or] at hno
    refine hs.nowhere hsound hlock hno.1 (fun hrun => ?_) y hy
    rcases Local.running (hsound.slot p) hlock hrun with h | h
    · exact hno.2 h
    · exact hno.1 h
  · by_cases hrunning : IsRunning (s.slot p).pc
    · obtain ⟨k, hk⟩ := (hs.sits p).running hrunning
      exact At.occurs hk
    · obtain ⟨hpark, hready⟩ := Local.ready (hsound.slot p) hst hrunning
      obtain ⟨x, hx⟩ := (hs.sits p).ready hpark hready
      exact At.occurs hx
  · have hnodup := (hs.step hsound hstep).nodup
    have hlen := List.Nodup.length_le_card hnodup
    rw [hq, List.length_append, List.length_singleton, Fintype.card_fin] at hlen
    omega
  · obtain ⟨hpark, hst⟩ := (hs.sits p).allows (.popped k) (Or.inr hk)
    exact ⟨hst, hpark⟩
  · have hfits := (hsound.slot p).fits
    rw [hp] at hfits
    exact hfits

/-- `init_proc` runs on one CPU and forks; the child is dispatched on the other. Each of them runs there
and occurs nowhere else. -/
theorem process_placed_sample : ∃ (s : State 1 Bool) (events : List (Event 1)),
    Run Step start events s ∧ s.queue = [] ∧
    (∀ y, Occurs s 0 y ↔ y = .current false) ∧ (∀ y, Occurs s 1 y ↔ y = .current true) ∧
    (s.slot 1).lock = none ∧ ((s.slot 1).state = .runnable ∨ (s.slot 1).state = .running) := by
  have hrun : Run Step (start : State 1 Bool) _ _ := Run.refl
    |>.tail (.pop false 0 rfl rfl) |>.tail (.lock false 0 rfl rfl) |>.tail (.dispatch false 0 rfl rfl rfl)
    |>.tail (.own false 0 rfl (.backFirst rfl)) |>.tail (.own false 0 rfl (.fork rfl))
    |>.tail (.visit false 0 0 rfl rfl (.forkScan (by decide))) |>.tail (.alloc false 0 1 rfl rfl rfl rfl)
    |>.tail (.own false 0 rfl (.forkLock rfl rfl)) |>.tail (.fork false 0 1 rfl rfl)
    |>.tail (.forkDone false 0 1 rfl rfl) |>.tail (.own false 0 rfl (.forkRet rfl))
    |>.tail (.pop true 1 rfl rfl) |>.tail (.lock true 1 rfl rfl) |>.tail (.dispatch true 1 rfl rfl rfl)
    |>.tail (.own true 1 rfl (.backFirst rfl))
  obtain ⟨honce, hiff, -⟩ := process_placed hrun
  refine ⟨_, _, hrun, rfl, fun y => ⟨fun hy => ?_, ?_⟩, fun y => ⟨fun hy => ?_, ?_⟩, rfl, ?_⟩
  · exact honce 0 y (.current false) hy rfl
  · rintro rfl
    rfl
  · exact honce 1 y (.current true) hy rfl
  · rintro rfl
    rfl
  · exact (hiff 1 rfl).mp ⟨.current true, rfl⟩

end UCore.Proc.Queue

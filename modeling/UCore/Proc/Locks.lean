import UCore.Proc.Table

/-! # What a place holds

The first invariant of the process table: each thread and each scheduler holds the locks that its place
says, the state of a process fits with the place of its thread, and the slot that a `fork` has found
stays in its hands until it is `RUNNABLE`. -/

namespace UCore.Proc.Locks

open UCore.Proc.State UCore.Proc.Table UCore.Lib.Runs

variable {n : ℕ} {κ : Type} {s s' : State n κ} {p q r : Fin (n + 1)} {k : κ} {t t' : Slot n κ}
  {wl wl' : Option (Fin (n + 1))} {event : Event n} {pc pc' : Pc n} {add : Bool}

/-! ### Places -/

/-- The places with the `p->lock` of the own slot. -/
def ownLock : Pc n → Bool
  | .forkCopy _ | .forkDone _ | .forkRet | .reparent _ _ | .exitDone | .waitLocked _ | .waitSet _
  | .sched _ | .back _ => true
  | _ => false

/-- The slot of the child whose lock `fork` has. -/
def childLock : Pc n → Option (Fin (n + 1))
  | .forkLock q | .forkCopy q | .forkDone q => some q
  | _ => none

/-- The slot that `fork` has found, until it is `RUNNABLE`. -/
def creating : Pc n → Option (Fin (n + 1))
  | .forkLock q | .forkCopy q => some q
  | _ => none

/-- The slot whose lock a scheduler has. -/
def schedLock : Cpu n → Option (Fin (n + 1))
  | .locked p | .back p | .unlock p => some p
  | _ => none

/-- The states that fit with a place. -/
def Fits : Pc n → ProcState → Prop
  | .off, st => st = .unused ∨ st = .used
  | .sched .first, st | .sched .yield, st | .parked .first, st | .parked .yield, st => st = .runnable
  | .sched .read, st | .sched (.wait _), st => st = .sleeping
  | .parked .read, st | .parked (.wait _), st => st = .sleeping ∨ st = .runnable
  | .exitDone, st | .sched .exit, st | .parked .exit, st => st = .zombie
  | .back .exit, _ => False
  | _, st => st = .running ∨ st = .runnable

theorem childLock_of_creating (h : creating pc = some q) : childLock pc = some q := by
  cases pc <;> first | exact h | cases h

/-! ### The invariant -/

/-- A slot by itself. -/
structure Local (p : Fin (n + 1)) (t : Slot n κ) : Prop where
  fits : Fits t.pc t.state
  own : ownLock t.pc = true → t.lock = some (.proc p)

structure Sound (s : State n κ) : Prop where
  slot : ∀ p, Local p (s.slot p)
  child : ∀ p q, childLock (s.slot p).pc = some q → q ≠ p ∧ (s.slot q).lock = some (.proc p)
  created : ∀ p q, creating (s.slot p).pc = some q →
    (s.slot q).state = .used ∧ (s.slot q).pc = .off
  sched : ∀ k p, schedLock (s.cpu k) = some p → (s.slot p).lock = some (.sched k)

/-- Nobody else has the lock of the slot. -/
def Unheld (s : State n κ) (p : Fin (n + 1)) : Prop :=
  (∀ r, childLock (s.slot r).pc ≠ some p) ∧ ∀ k, schedLock (s.cpu k) ≠ some p

theorem Sound.unheld (hs : Sound s) (h : (s.slot p).lock = none ∨ (s.slot p).lock = some (.proc p)) :
    Unheld s p := by
  refine ⟨fun r hr => ?_, fun k hk => ?_⟩
  · obtain ⟨hne, hlock⟩ := hs.child r p hr
    rcases h with h | h <;> rw [h] at hlock
    · cases hlock
    · exact hne (by simpa using hlock)
  · have hlock := hs.sched k p hk
    rcases h with h | h <;> rw [h] at hlock <;> cases hlock

/-- A slot that has a thread is not being made. -/
theorem Sound.not_creating (hs : Sound s) (h : (s.slot p).pc ≠ .off) (r : Fin (n + 1)) :
    creating (s.slot r).pc ≠ some p :=
  fun hr => h (hs.created r p hr).2

@[simp] theorem set_self (s : State n κ) (p : Fin (n + 1)) (t : Slot n κ) : (s.set p t).slot p = t :=
  Function.update_self _ _ _

theorem set_of_ne (s : State n κ) (t : Slot n κ) (h : q ≠ p) : (s.set p t).slot q = s.slot q :=
  Function.update_of_ne h _ _

/-- **One slot changes.** -/
theorem Sound.set (hs : Sound s) (ht : Local p t)
    (hchild : ∀ q, childLock t.pc = some q → q ≠ p ∧ (s.slot q).lock = some (.proc p))
    (hcreated : ∀ q, creating t.pc = some q → (s.slot q).state = .used ∧ (s.slot q).pc = .off)
    (hlock : t.lock = (s.slot p).lock ∨ Unheld s p)
    (hmade : (∀ r, creating (s.slot r).pc ≠ some p) ∨ t.state = .used ∧ t.pc = .off) :
    Sound (s.set p t) := by
  -- whoever else has the lock of `p` still has it
  have hkeep : ∀ o, (s.slot p).lock = some o →
      (∃ r, childLock (s.slot r).pc = some p) ∨ (∃ k, schedLock (s.cpu k) = some p) →
      t.lock = some o := by
    intro o ho hheld
    rcases hlock with hlock | hno
    · rw [hlock, ho]
    · rcases hheld with ⟨r, hr⟩ | ⟨k, hk⟩
      · exact absurd hr (hno.1 r)
      · exact absurd hk (hno.2 k)
  refine ⟨fun r => ?_, fun r q hr => ?_, fun r q hr => ?_, fun k q hk => ?_⟩
  · by_cases hrp : r = p
    · subst hrp
      rwa [set_self]
    · rw [set_of_ne _ _ hrp]
      exact hs.slot r
  · by_cases hrp : r = p
    · subst hrp
      rw [set_self] at hr
      obtain ⟨hne, hq⟩ := hchild q hr
      exact ⟨hne, by rwa [set_of_ne _ _ hne]⟩
    · rw [set_of_ne _ _ hrp] at hr
      obtain ⟨hne, hq⟩ := hs.child r q hr
      refine ⟨hne, ?_⟩
      by_cases hqp : q = p
      · subst hqp
        rw [set_self]
        exact hkeep _ hq (Or.inl ⟨r, hr⟩)
      · rwa [set_of_ne _ _ hqp]
  · by_cases hrp : r = p
    · subst hrp
      rw [set_self] at hr
      have hne := (hchild q (childLock_of_creating hr)).1
      rw [set_of_ne _ _ hne]
      exact hcreated q hr
    · rw [set_of_ne _ _ hrp] at hr
      by_cases hqp : q = p
      · subst hqp
        rw [set_self]
        rcases hmade with hno | hmade
        · exact absurd hr (hno r)
        · exact hmade
      · rw [set_of_ne _ _ hqp]
        exact hs.created r q hr
  · have hq := hs.sched k q hk
    by_cases hqp : q = p
    · subst hqp
      rw [set_self]
      exact hkeep _ hq (Or.inr ⟨k, hk⟩)
    · rwa [set_of_ne _ _ hqp]

/-- A thread moves on by itself. -/
theorem Sound.goto (hs : Sound s) (hpc : (s.slot p).pc ≠ .off) (hfits : Fits pc (s.slot p).state)
    (hown : ownLock pc = true → (s.slot p).lock = some (.proc p))
    (hchild : ∀ q, childLock pc = some q → q ≠ p ∧ (s.slot q).lock = some (.proc p))
    (hcreated : ∀ q, creating pc = some q → (s.slot q).state = .used ∧ (s.slot q).pc = .off) :
    Sound (s.goto p pc) :=
  hs.set ⟨hfits, hown⟩ hchild hcreated (Or.inl rfl) (Or.inl (hs.not_creating hpc))

/-! ### The steps on one slot -/

theorem Own.thread (h : Own p wl t event wl' t') : t.pc ≠ .off ∧ t'.pc ≠ .off := by
  cases h <;> simp_all

theorem Own.isLocal (h : Own p wl t event wl' t') (ht : Local p t) : Local p t' := by
  obtain ⟨hfits, hown⟩ := ht
  cases h <;> constructor <;> simp_all [Fits, ownLock]

theorem Own.childLock (h : Own p wl t event wl' t') (hq : childLock t'.pc = some q) :
    Locks.childLock t.pc = some q := by
  cases h <;> simp_all [Locks.childLock]

theorem Own.creating (h : Own p wl t event wl' t') (hq : creating t'.pc = some q) :
    Locks.creating t.pc = some q := by
  cases h <;> simp_all [Locks.creating]

/-- A process takes its own lock when it is free, or gives it up when it has it. -/
theorem Own.lock (h : Own p wl t event wl' t') (ht : Local p t) :
    t'.lock = t.lock ∨ t.lock = none ∨ t.lock = some (.proc p) := by
  have hown := ht.own
  cases h <;> simp_all [ownLock]

/-- A slot that is visited keeps its thread and its lock, or is freed. -/
theorem Visit.thread (h : Visit p q pc t event pc' t' add) :
    t'.lock = t.lock ∧ (t'.pc = t.pc ∨ t'.pc = .off ∧ q ≠ p) := by
  cases h with
  | forkScan _ => exact ⟨rfl, Or.inl rfl⟩
  | wakeup =>
    unfold Slot.wakeup
    split_ifs <;> exact ⟨rfl, Or.inl rfl⟩
  | reparent _ => split_ifs <;> exact ⟨rfl, Or.inl rfl⟩
  | scan _ _ => exact ⟨rfl, Or.inl rfl⟩
  | reap hne _ _ => exact ⟨rfl, Or.inr ⟨rfl, hne⟩⟩

theorem Local.wakeup (ht : Local q t) (hlock : t.lock = none) (chan : Chan n) :
    Local q (t.wakeup chan).1 := by
  obtain ⟨hfits, hown⟩ := ht
  unfold Slot.wakeup
  split_ifs with h
  · -- a slot that sleeps with its lock free is switched away
    refine ⟨?_, hown⟩
    change Fits t.pc .runnable
    rw [h.1] at hfits
    have hfree : ownLock t.pc = false := by
      rw [Bool.eq_false_iff]
      intro ho
      rw [hown ho] at hlock
      cases hlock
    unfold Fits at hfits ⊢
    split at hfits <;> simp_all [ownLock]
  · exact ⟨hfits, hown⟩

theorem Visit.isLocal (h : Visit p q pc t event pc' t' add) (hlock : t.lock = none)
    (ht : Local q t) : Local q t' := by
  cases h with
  | forkScan _ => exact ht
  | wakeup => exact ht.wakeup hlock _
  | reparent _ => split_ifs <;> exact ⟨ht.fits, ht.own⟩
  | scan _ _ => exact ht
  | reap _ _ _ => exact ⟨Or.inl rfl, fun ho => by cases ho⟩

/-- The visitor stays in its loop, or has freed a child. -/
theorem Visit.visitor (h : Visit p q pc t event pc' t' add) :
    pc ≠ .off ∧ (∀ st, Fits pc st → Fits pc' st) ∧ (ownLock pc' = true → ownLock pc = true) ∧
      childLock pc' = none := by
  cases h <;> exact ⟨by simp, fun _ => id, id, rfl⟩

/-! ### The invariant holds -/

theorem Sound.own (hs : Sound s) (h : Own p s.waitLock (s.slot p) event wl t) : Sound (s.set p t) := by
  refine hs.set (Own.isLocal h (hs.slot p)) (fun q hq => hs.child p q (Own.childLock h hq))
    (fun q hq => hs.created p q (Own.creating h hq)) ?_ (Or.inl (hs.not_creating (Own.thread h).1))
  rcases Own.lock h (hs.slot p) with hl | hl | hl
  · exact Or.inl hl
  · exact Or.inr (hs.unheld (Or.inl hl))
  · exact Or.inr (hs.unheld (Or.inr hl))

/-- A slot changes that nobody has locked. -/
theorem Sound.free (hs : Sound s) (hlock : (s.slot q).lock = none) (ht : Local q t)
    (hpc : t.pc = (s.slot q).pc ∨ t.pc = .off) : Sound (s.set q t) := by
  have hun := hs.unheld (Or.inl hlock)
  refine hs.set ht (fun r hr => ?_) (fun r hr => ?_) (Or.inr hun)
    (Or.inl fun r hr => hun.1 r (childLock_of_creating hr))
  · rcases hpc with hpc | hpc <;> rw [hpc] at hr
    · exact hs.child q r hr
    · cases hr
  · rcases hpc with hpc | hpc <;> rw [hpc] at hr
    · exact hs.created q r hr
    · cases hr

theorem Sound.visit (hs : Sound s) (hlock : (s.slot q).lock = none)
    (h : Visit p q (s.slot p).pc (s.slot q) event pc t add) : Sound ((s.set q t).goto p pc) := by
  obtain ⟨htl, htpc⟩ := Visit.thread h
  obtain ⟨hoff, hfits, hown, hchild⟩ := Visit.visitor h
  have hset : Sound (s.set q t) := hs.free hlock (Visit.isLocal h hlock (hs.slot q))
    (htpc.imp_right And.left)
  -- the visitor has not freed itself
  have hpc : ((s.set q t).slot p).pc = (s.slot p).pc := by
    by_cases hpq : p = q
    · subst hpq
      rw [set_self]
      rcases htpc with htpc | ⟨-, hne⟩
      · exact htpc
      · exact absurd rfl hne
    · rw [set_of_ne _ _ hpq]
  have hp := hset.slot p
  refine hset.goto (by rwa [hpc]) (hfits _ (hpc ▸ hp.fits)) (fun ho => hp.own ?_)
    (fun r hr => by rw [hchild] at hr; cases hr) fun r hr => ?_
  · rw [hpc]
    exact hown ho
  · have := childLock_of_creating hr
    rw [hchild] at this
    cases this

theorem set_comm (s : State n κ) (h : q ≠ p) (t t' : Slot n κ) :
    (s.set q t).set p t' = (s.set p t').set q t := by
  unfold State.set
  rw [Function.update_comm h]

theorem Sound.congr (hs : Sound s) (hslot : s'.slot = s.slot) (hcpu : s'.cpu = s.cpu) : Sound s' := by
  refine ⟨fun p => ?_, fun p q h => ?_, fun p q h => ?_, fun k p h => ?_⟩
  · rw [hslot]
    exact hs.slot p
  · rw [hslot] at h ⊢
    exact hs.child p q h
  · rw [hslot] at h ⊢
    exact hs.created p q h
  · rw [hcpu] at h
    rw [hslot]
    exact hs.sched k p h

/-- A `fork` that has the lock of its child is the only one that has it. -/
theorem Sound.unheld_child (hs : Sound s) (h : childLock (s.slot p).pc = some q)
    (hpc : childLock pc ≠ some q) : Unheld (s.goto p pc) q := by
  have hlock := (hs.child p q h).2
  refine ⟨fun r hr => ?_, fun m hm => ?_⟩
  · by_cases hrp : r = p
    · subst hrp
      exact hpc (by simpa [State.goto] using hr)
    · rw [State.goto, set_of_ne _ _ hrp] at hr
      have := (hs.child r q hr).2
      rw [hlock] at this
      exact hrp (by simpa using this.symm)
  · have := hs.sched m q hm
    rw [hlock] at this
    cases this

/-- A process that runs has a thread. -/
theorem Fits.not_unused (h : Fits pc .unused) : pc = .off := by
  unfold Fits at h
  split at h <;> simp_all

/-- A slot whose lock somebody else has is not in a place with its own lock. -/
theorem Sound.not_ownLock (hs : Sound s) {o : Option (Owner n κ)} (h : (s.slot p).lock = o)
    (ho : o ≠ some (.proc p)) : ¬ ownLock (s.slot p).pc = true :=
  fun hown => ho (h ▸ (hs.slot p).own hown)

theorem Sound.alloc (hs : Sound s) {l : List (Fin (n + 1))} {pid : ℤ}
    (hp : (s.slot p).pc = .forkScan (q :: l)) (hlock : (s.slot q).lock = none)
    (hq : (s.slot q).state = .unused) :
    Sound ((s.set q ((s.slot q).allocproc pid p)).goto p (.forkLock q)) := by
  have hoff : (s.slot q).pc = .off := Fits.not_unused (hq ▸ (hs.slot q).fits)
  have hne : q ≠ p := by
    rintro rfl
    rw [hp] at hoff
    cases hoff
  have hset : Sound (s.set q ((s.slot q).allocproc pid p)) := by
    refine hs.free hlock ⟨?_, fun ho => ?_⟩ (Or.inl rfl)
    · change Fits (s.slot q).pc .used
      rw [hoff]
      exact Or.inr rfl
    · exact absurd ho (hs.not_ownLock hlock (by simp))
  have hsp : (s.set q ((s.slot q).allocproc pid p)).slot p = s.slot p := set_of_ne _ _ hne.symm
  have hfits := (hs.slot p).fits
  rw [hp] at hfits
  refine hset.goto (by rw [hsp, hp]; simp) (by rw [hsp]; exact hfits) (fun ho => by cases ho)
    (fun r hr => ?_) fun r hr => ?_
  · obtain rfl := Option.some.inj hr
    exact ⟨hne, by rw [set_self]; rfl⟩
  · obtain rfl := Option.some.inj hr
    rw [set_self]
    exact ⟨rfl, hoff⟩

theorem Sound.fork (hs : Sound s) (hp : (s.slot p).pc = .forkCopy q) :
    Sound ((s.set q { s.slot q with
      parent := some p, state := .runnable, pc := .parked .first }).goto p (.forkDone q)) := by
  have hchild : childLock (s.slot p).pc = some q := by rw [hp]; rfl
  obtain ⟨hne, hlock⟩ := hs.child p q hchild
  have hfits := (hs.slot p).fits
  have hown := (hs.slot p).own
  rw [hp] at hfits hown
  have hgoto : Sound (s.goto p (.forkDone q)) := by
    refine hs.goto (by rw [hp]; simp) hfits (fun _ => hown rfl) (fun r hr => ?_) fun r hr => by cases hr
    obtain rfl := Option.some.inj hr
    exact ⟨hne, hlock⟩
  rw [State.goto, set_of_ne _ _ hne.symm, set_comm _ hne]
  refine hgoto.set ⟨rfl, fun ho => by cases ho⟩ (fun r hr => by cases hr) (fun r hr => by cases hr)
    (Or.inl ?_) (Or.inl fun r hr => ?_)
  · change (s.slot q).lock = ((s.set p _).slot q).lock
    rw [set_of_ne _ _ hne]
  · by_cases hrp : r = p
    · subst hrp
      rw [State.goto, set_self] at hr
      cases hr
    · rw [State.goto, set_of_ne _ _ hrp] at hr
      have := (hs.child r q (childLock_of_creating hr)).2
      rw [hlock] at this
      exact hrp (by simpa using this.symm)

theorem Sound.forkDone (hs : Sound s) (hp : (s.slot p).pc = .forkDone q) :
    Sound ((s.set q { s.slot q with lock := none }).goto p .forkRet) := by
  have hchild : childLock (s.slot p).pc = some q := by rw [hp]; rfl
  obtain ⟨hne, hlock⟩ := hs.child p q hchild
  have hfits := (hs.slot p).fits
  have hown := (hs.slot p).own
  rw [hp] at hfits hown
  have hgoto : Sound (s.goto p .forkRet) :=
    hs.goto (by rw [hp]; simp) hfits (fun _ => hown rfl) (fun r hr => by cases hr)
      fun r hr => by cases hr
  have hun : Unheld (s.goto p .forkRet) q := hs.unheld_child hchild (by simp [childLock])
  have hq : (s.goto p .forkRet).slot q = s.slot q := set_of_ne _ _ hne
  rw [State.goto, set_of_ne _ _ hne.symm, set_comm _ hne]
  refine hgoto.set ⟨(hs.slot q).fits, fun ho => ?_⟩ (fun r hr => ?_) (fun r hr => ?_) (Or.inr hun)
    (Or.inl fun r hr => hun.1 r (childLock_of_creating hr))
  · exact absurd ho (hs.not_ownLock hlock (by simpa using hne.symm))
  · have := hgoto.child q r (by rw [hq]; exact hr)
    exact this
  · have := hgoto.created q r (by rw [hq]; exact hr)
    exact this

theorem sound_start : Sound (start : State n κ) := by
  refine ⟨fun p => ⟨?_, fun ho => ?_⟩, fun p q h => ?_, fun p q h => ?_, fun k p h => by cases h⟩
  · change Fits (if p = init_proc then _ else _) (if p = init_proc then _ else _)
    split_ifs
    · rfl
    · exact Or.inl rfl
  all_goals
    by_cases hp : p = init_proc <;> simp_all [start, ownLock, childLock, creating]

variable [DecidableEq κ]

/-- A CPU moves on that gives up the lock it has, or takes over that of a slot. -/
theorem Sound.setCpu (hs : Sound s) {c : Cpu n}
    (hc : ∀ p, schedLock c = some p → (s.slot p).lock = some (.sched k)) : Sound (s.setCpu k c) := by
  refine ⟨hs.slot, hs.child, hs.created, fun m p hm => ?_⟩
  by_cases hmk : m = k
  · subst hmk
    exact hc p (by simpa [State.setCpu] using hm)
  · exact hs.sched m p (by simpa [State.setCpu, Function.update_of_ne hmk] using hm)

/-- A scheduler that has the lock of a slot is the only one that has it. -/
theorem Sound.unheld_sched (hs : Sound s) (h : (s.slot p).lock = some (.sched k)) {c : Cpu n}
    (hc : schedLock c ≠ some p) : Unheld (s.setCpu k c) p := by
  refine ⟨fun r hr => ?_, fun m hm => ?_⟩
  · have := (hs.child r p hr).2
    rw [h] at this
    cases this
  · by_cases hmk : m = k
    · subst hmk
      exact hc (by simpa [State.setCpu] using hm)
    · have := hs.sched m p (by simpa [State.setCpu, Function.update_of_ne hmk] using hm)
      rw [h] at this
      exact hmk (by simpa using this.symm)

theorem Sound.switch (hs : Sound s) {c : Caller} (hp : (s.slot p).pc = .sched c) :
    Sound ((s.set p { s.slot p with pc := .parked c, lock := some (.sched k) }).setCpu k
      (.back p)) := by
  have hfits := (hs.slot p).fits
  have hown := (hs.slot p).own
  rw [hp] at hfits hown
  refine Sound.setCpu (hs.set ⟨?_, fun ho => by cases ho⟩ (fun r hr => by cases hr)
    (fun r hr => by cases hr) (Or.inr (hs.unheld (Or.inr (hown rfl))))
    (Or.inl (hs.not_creating (by rw [hp]; simp)))) fun r hr => ?_
  · cases c
    · exact hfits
    · exact hfits
    · exact Or.inl hfits
    · exact Or.inl hfits
    · exact hfits
  · obtain rfl := Option.some.inj hr
    rw [set_self]

theorem Sound.unlock (hs : Sound s) (hk : s.cpu k = .unlock p) :
    Sound ((s.set p { s.slot p with lock := none }).setCpu k .loop) := by
  have hlock := hs.sched k p (by rw [hk]; rfl)
  have hcpu : Sound (s.setCpu k .loop) := hs.setCpu fun r hr => by cases hr
  exact hcpu.set ⟨(hs.slot p).fits, fun ho => absurd ho (hs.not_ownLock hlock (by simp))⟩
    (fun r hr => hs.child p r hr) (fun r hr => hs.created p r hr)
    (Or.inr (hs.unheld_sched hlock (by simp [schedLock])))
    (Or.inl fun r hr => (hs.unheld_sched (c := .loop) hlock (by simp [schedLock])).1 r
      (childLock_of_creating hr))

theorem Sound.lock (hs : Sound s) (hlock : (s.slot p).lock = none) :
    Sound ((s.set p { s.slot p with lock := some (.sched k) }).setCpu k (.locked p)) := by
  have hset : Sound (s.set p { s.slot p with lock := some (.sched k) }) :=
    hs.free hlock ⟨(hs.slot p).fits, fun ho => absurd ho (hs.not_ownLock hlock (by simp))⟩
      (Or.inl rfl)
  refine hset.setCpu fun r hr => ?_
  · obtain rfl := Option.some.inj hr
    rw [set_self]

theorem Sound.dispatch (hs : Sound s) {c : Caller} (hk : s.cpu k = .locked p)
    (hstate : (s.slot p).state = .runnable) (hp : (s.slot p).pc = .parked c) :
    Sound ((s.set p { s.slot p with
      state := .running, pc := .back c, lock := some (.proc p) }).setCpu k (.run p)) := by
  have hlock := hs.sched k p (by rw [hk]; rfl)
  have hcpu : Sound (s.setCpu k (.run p)) := hs.setCpu fun r hr => by cases hr
  have hfits := (hs.slot p).fits
  rw [hp, hstate] at hfits
  refine hcpu.set ⟨?_, fun _ => rfl⟩ (fun r hr => by cases hr) (fun r hr => by cases hr)
    (Or.inr (hs.unheld_sched hlock (by simp [schedLock])))
    (Or.inl (hcpu.not_creating (by change (s.slot p).pc ≠ .off; rw [hp]; simp)))
  -- a dead process is not `RUNNABLE`
  cases c <;> first | exact Or.inl rfl | cases hfits

theorem Sound.step (hs : Sound s) (h : Step s event s') : Sound s' := by
  cases h with
  | own k p hk h => exact (hs.own h).congr rfl rfl
  | @visit pc t add _ k p q hk hlock h =>
    refine (hs.visit hlock h).congr ?_ ?_ <;> cases add <;> rfl
  | alloc k p q hk hp hlock hq => exact (hs.alloc hp hlock hq).congr rfl rfl
  | fork k p q hk hp => exact (hs.fork hp).congr rfl rfl
  | forkDone k p q hk hp => exact hs.forkDone hp
  | switch k p hk hp => exact hs.switch hp
  | back k p hk =>
    have hlock := hs.sched k p (by rw [hk]; rfl)
    have hback : Sound (s.setCpu k (.unlock p)) := hs.setCpu fun r hr => by
      obtain rfl := Option.some.inj hr
      exact hlock
    split_ifs
    · exact hback.congr rfl rfl
    · exact hback
  | unlock k p hk => exact hs.unlock hk
  | pop k p hk hq =>
    have hpop : Sound (s.setCpu k (.popped p)) := hs.setCpu fun r hr => by cases hr
    exact hpop.congr rfl rfl
  | lock k p hk hlock => exact hs.lock hlock
  | dispatch k p hk hstate hp => exact hs.dispatch hk hstate hp
  | panic k p hk hstate => exact hs.setCpu fun r hr => by cases hr
  | wakeup q hlock hw =>
    refine (hs.free hlock ((hs.slot q).wakeup hlock .cons) (Or.inl ?_)).congr rfl rfl
    unfold Slot.wakeup
    split_ifs <;> rfl

theorem sound_run {events : List (Event n)} (hrun : Run Step (start : State n κ) events s) : Sound s :=
  hrun.invariant sound_start fun _ _ _ => Sound.step

end UCore.Proc.Locks

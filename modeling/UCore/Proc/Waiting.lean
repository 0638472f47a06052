import UCore.Proc.Parents

/-! # Waiting for a child

`wait` scans the children and goes to sleep under `wait_lock`, `exit` wakes the parent and becomes a
`ZOMBIE` under it, so a parent does not sleep through the exit of its child. `exit` also gives the
children of a process to `init_proc`, and does not wake it: a child that is a `ZOMBIE` already, given
away while `init_proc` sleeps in `wait`, is not noticed (`orphan_unnoticed`). That is the only way
(`wait_notices`). -/

namespace UCore.Proc.Waiting

open UCore.Proc.State UCore.Proc.Table UCore.Proc.Locks UCore.Proc.Parents UCore.Lib.Runs

variable {n : ℕ} {κ : Type} {s s' : State n κ} {p q r : Fin (n + 1)} {k : κ} {t t' u u' : Slot n κ}
  {wl wl' : Option (Fin (n + 1))} {event : Event n} {events : List (Event n)} {pc pc' : Pc n}
  {add : Bool} {pid : ℤ} {chan : Chan n}

/-! ### Places -/

/-- The places with `wait_lock`. -/
def holdsWait : Pc n → Bool
  | .exitWake _ _ _ | .reparent _ _ | .exitDone | .waitScan _ _ _ | .waitLocked _ | .waitRet _ => true
  | _ => false

/-- In `exit`, after the parent has been woken, with `wait_lock`. -/
def IsPast : Pc n → Prop
  | .reparent _ _ | .exitDone => True
  | _ => False

/-- In `wait(pid)`, past `release(&wait_lock)`, and not woken yet. -/
def Dozes (t : Slot n κ) (pid : ℤ) : Prop :=
  t.pc = .waitSet pid ∨ t.pc = .sched (.wait pid) ∨
    t.pc = .parked (.wait pid) ∧ t.state = .sleeping

/-- What holds between a child `q` and its parent `p`. -/
structure Pair (q p : Fin (n + 1)) (t u : Slot n κ) : Prop where
  doze : ∀ pid, Dozes u pid → ¬ t.exited pid
  past : ∀ pid, Dozes u pid → ¬ IsPast t.pc
  /-- A dozing parent is ahead of the loop of its child's `wakeup`. -/
  ahead : ∀ pid code chan l, Dozes u pid → t.pc = .exitWake code chan l → p ∈ l
  chan : ∀ code chan l, t.pc = .exitWake code chan l → chan = .proc p
  locked : ∀ pid, u.pc = .waitLocked pid → ¬ t.exited pid
  /-- A child that has exited is ahead of the scan. -/
  scan : ∀ pid kids l, u.pc = .waitScan pid kids l → t.exited pid → q ∈ l

/-- **The invariant of waiting.** -/
structure Patient (s : State n κ) : Prop where
  holder : ∀ p, holdsWait (s.slot p).pc = true → s.waitLock = some p
  chan : ∀ p pid, (s.slot p).pc = .sched (.wait pid) ∨ (s.slot p).pc = .parked (.wait pid) →
    (s.slot p).state = .sleeping → (s.slot p).sleepChan = .proc p
  pair : ∀ q p, (s.slot q).parent = some p → Pair q p (s.slot q) (s.slot p)

/-- **One slot changes**, and `wait_lock`. -/
theorem Patient.set (hs : Patient s) {w : Option (Fin (n + 1))} (hirrefl : t.parent ≠ some p)
    (hholder : holdsWait t.pc = true → w = some p)
    (hothers : ∀ r, r ≠ p → holdsWait (s.slot r).pc = true → w = some r)
    (hchan : ∀ pid, t.pc = .sched (.wait pid) ∨ t.pc = .parked (.wait pid) →
      t.state = .sleeping → t.sleepChan = .proc p)
    (hchild : ∀ r, r ≠ p → t.parent = some r → Pair p r t (s.slot r))
    (hparent : ∀ q, q ≠ p → (s.slot q).parent = some p → Pair q p (s.slot q) t) :
    Patient { s.set p t with waitLock := w } := by
  have hslot : ∀ r, ({ s.set p t with waitLock := w } : State n κ).slot r = (s.set p t).slot r :=
    fun _ => rfl
  refine ⟨fun r hr => ?_, fun r pid hr hst => ?_, fun q r hq => ?_⟩
  · rw [hslot] at hr
    by_cases hrp : r = p
    · subst hrp
      rw [set_self] at hr
      exact hholder hr
    · rw [set_of_ne _ _ hrp] at hr
      exact hothers r hrp hr
  · rw [hslot] at hr hst ⊢
    by_cases hrp : r = p
    · subst hrp
      rw [set_self] at hr hst ⊢
      exact hchan pid hr hst
    · rw [set_of_ne _ _ hrp] at hr hst ⊢
      exact hs.chan r pid hr hst
  · rw [hslot] at hq
    rw [hslot, hslot]
    by_cases hqp : q = p
    · subst hqp
      rw [set_self] at hq ⊢
      have hrq : r ≠ q := fun h => hirrefl (h ▸ hq)
      rw [set_of_ne _ _ hrq]
      exact hchild r hrq hq
    · rw [set_of_ne _ _ hqp] at hq ⊢
      by_cases hrp : r = p
      · subst hrp
        rw [set_self]
        exact hparent q hqp hq
      · rw [set_of_ne _ _ hrp]
        exact hs.pair q r hq

/-! ### Changes that do not matter -/

/-- As a child the slot has not moved on. -/
structure SameChild (t t' : Slot n κ) : Prop where
  exited : ∀ pid, t'.exited pid → t.exited pid
  past : IsPast t'.pc → IsPast t.pc
  wake : ∀ code chan l, t'.pc = .exitWake code chan l → t.pc = .exitWake code chan l

/-- As a parent the slot has not moved on. -/
structure SameParent (u u' : Slot n κ) : Prop where
  doze : ∀ pid, Dozes u' pid → Dozes u pid
  locked : ∀ pid, u'.pc = .waitLocked pid → u.pc = .waitLocked pid
  scan : ∀ pid kids l, u'.pc = .waitScan pid kids l → u.pc = .waitScan pid kids l

theorem Pair.child (h : Pair q p t u) (hc : SameChild t t') : Pair q p t' u :=
  ⟨fun pid hd he => h.doze pid hd (hc.exited pid he), fun pid hd hp => h.past pid hd (hc.past hp),
    fun pid _ _ _ hd hw => h.ahead pid _ _ _ hd (hc.wake _ _ _ hw),
    fun code chan l hw => h.chan code chan l (hc.wake _ _ _ hw),
    fun pid hl he => h.locked pid hl (hc.exited pid he),
    fun pid kids l hu he => h.scan pid kids l hu (hc.exited pid he)⟩

theorem Pair.parent (h : Pair q p t u) (hc : SameParent u u') : Pair q p t u' :=
  ⟨fun pid hd => h.doze pid (hc.doze pid hd), fun pid hd => h.past pid (hc.doze pid hd),
    fun pid _ _ _ hd => h.ahead pid _ _ _ (hc.doze pid hd), h.chan,
    fun pid hl => h.locked pid (hc.locked pid hl),
    fun pid kids l hu => h.scan pid kids l (hc.scan pid kids l hu)⟩

theorem SameChild.of_pc (hpc : t'.pc = t.pc) (hexited : ∀ pid, t'.exited pid → t.exited pid) :
    SameChild t t' :=
  ⟨hexited, fun h => hpc ▸ h, fun _ _ _ h => hpc ▸ h⟩

theorem SameParent.of_pc (hpc : u'.pc = u.pc) (hst : u'.state = .sleeping → u.state = .sleeping) :
    SameParent u u' := by
  refine ⟨fun pid h => ?_, fun pid h => hpc ▸ h, fun pid kids l h => hpc ▸ h⟩
  unfold Dozes at h ⊢
  rw [hpc] at h
  exact h.imp_right (Or.imp_right (And.imp_right hst))

/-- The places that matter in a parent. -/
def InWait : Pc n → Prop
  | .waitScan _ _ _ | .waitLocked _ | .waitSet _ | .sched (.wait _) | .parked (.wait _) => True
  | _ => False

/-- The places that matter in a child. -/
def InExit : Pc n → Prop
  | .exitWake _ _ _ | .reparent _ _ | .exitDone => True
  | _ => False

theorem SameParent.of_not (h : ¬ InWait u'.pc) : SameParent u u' := by
  refine ⟨fun pid hd => ?_, fun pid hu => ?_, fun pid kids l hu => ?_⟩
  · rcases hd with hd | hd | ⟨hd, -⟩ <;> rw [hd] at h <;> exact absurd trivial h
  · rw [hu] at h
    exact absurd trivial h
  · rw [hu] at h
    exact absurd trivial h

theorem SameChild.of_not (h : ¬ InExit t'.pc) (hexited : ∀ pid, t'.exited pid → t.exited pid) :
    SameChild t t' := by
  refine ⟨hexited, fun hp => ?_, fun code chan l ht => ?_⟩
  · generalize t'.pc = pc at h hp
    cases pc <;> first | exact absurd trivial h | exact hp.elim
  · rw [ht] at h
    exact absurd trivial h

/-! ### The steps of a process -/

/-- A process takes `wait_lock` when it is free, or gives it up when it has it. -/
theorem Own.wait (h : Own p wl t event wl' t') (ht : holdsWait t.pc = true → wl = some p) :
    (holdsWait t'.pc = true → wl' = some p) ∧
      (wl' = wl ∨ wl = none ∧ wl' = some p ∨ wl = some p ∧ wl' = none) := by
  cases h <;> simp_all [holdsWait]

theorem Own.sleepChan (h : Own p wl t event wl' t')
    (ht' : t'.pc = .sched (.wait pid) ∨ t'.pc = .parked (.wait pid)) : t'.sleepChan = .proc p := by
  cases h <;> simp_all

/-- As a child: a process that takes `wait_lock` has its parent ahead, and becomes a `ZOMBIE` when its
parent is woken. -/
theorem Own.child (h : Own p wl t event wl' t') (hpair : Pair p r t u)
    (ht : holdsWait t.pc = true → wl = some p) (hu : holdsWait u.pc = true → wl = some r)
    (hr : r ≠ p) (hparent : t.parent = some r) : Pair p r t' u := by
  cases h with
  | exitEnter hpc =>
    refine ⟨hpair.doze, fun _ _ => id, fun pid code chan l _ hw => ?_, fun code chan l hw => ?_,
      hpair.locked, hpair.scan⟩
    · obtain ⟨-, -, rfl⟩ := Pc.exitWake.inj hw
      exact List.mem_finRange r
    · obtain ⟨-, rfl, -⟩ := Pc.exitWake.inj hw
      rw [hparent]
      rfl
  | exitLock hpc hlock =>
    have hno : ∀ pid, ¬ Dozes u pid := fun pid hd => by
      have := hpair.ahead pid _ _ _ hd hpc
      cases this
    exact ⟨fun pid hd => absurd hd (hno pid), fun pid hd => absurd hd (hno pid),
      fun pid _ _ _ hd => absurd hd (hno pid), (fun _ _ _ hw => by cases hw), hpair.locked,
      hpair.scan⟩
  | zombie hpc =>
    have hno : ∀ pid, ¬ Dozes u pid := fun pid hd => hpair.past pid hd (by rw [hpc]; trivial)
    have hwl : holdsWait u.pc ≠ true := fun h => by
      have := ht (by rw [hpc]; rfl)
      rw [hu h] at this
      exact hr (Option.some.inj this)
    refine ⟨fun pid hd => absurd hd (hno pid), fun pid hd => absurd hd (hno pid),
      fun pid _ _ _ hd => absurd hd (hno pid), (fun _ _ _ hw => by cases hw), fun pid hl => ?_,
      fun pid kids l hl => ?_⟩
    · rw [hl] at hwl
      exact absurd rfl hwl
    · rw [hl] at hwl
      exact absurd rfl hwl
  | reparentSkip hpc =>
    refine hpair.child ⟨fun _ => id, fun _ => ?_, fun _ _ _ hw => by cases hw⟩
    rw [hpc]
    trivial
  | _ =>
    refine hpair.child (SameChild.of_not (by simp_all [InExit]) fun pid he => ?_)
    simp_all [Slot.exited]

/-- As a parent: a process that scans has all its children ahead, and goes to sleep when none of them
has exited. -/
theorem Own.parent (h : Own p wl u event wl' u') (hpair : Pair q p t u)
    (hu : holdsWait u.pc = true → wl = some p) (ht : holdsWait t.pc = true → wl = some q)
    (hq : q ≠ p) : Pair q p t u' := by
  cases h with
  | waitEnter hpc =>
    refine ⟨?_, ?_, ?_, hpair.chan, ?_, fun pid kids l hl _ => ?_⟩
    · rintro _ (h | h | ⟨h, -⟩) <;> cases h
    · rintro _ (h | h | ⟨h, -⟩) <;> cases h
    · rintro _ _ _ _ (h | h | ⟨h, -⟩) <;> cases h
    · intro pid hl
      cases hl
    · obtain ⟨-, -, rfl⟩ := Pc.waitScan.inj hl
      exact List.mem_finRange q
  | scanSkip hpc =>
    refine ⟨?_, ?_, ?_, hpair.chan, ?_, fun pid kids l hl he => ?_⟩
    · rintro _ (h | h | ⟨h, -⟩) <;> cases h
    · rintro _ (h | h | ⟨h, -⟩) <;> cases h
    · rintro _ _ _ _ (h | h | ⟨h, -⟩) <;> cases h
    · intro pid hl
      cases hl
    · obtain ⟨rfl, -, rfl⟩ := Pc.waitScan.inj hl
      exact (List.mem_cons.mp (hpair.scan _ _ _ hpc he)).resolve_left hq
  | waitLock hpc hkilled hlock =>
    refine ⟨?_, ?_, ?_, hpair.chan, fun pid hl he => ?_, ?_⟩
    · rintro _ (h | h | ⟨h, -⟩) <;> cases h
    · rintro _ (h | h | ⟨h, -⟩) <;> cases h
    · rintro _ _ _ _ (h | h | ⟨h, -⟩) <;> cases h
    · obtain rfl := Pc.waitLocked.inj hl
      have := hpair.scan _ _ _ hpc he
      cases this
    · intro pid kids l hl
      cases hl
  | waitRelease hpc =>
    -- the child is not in `exit` while its parent has `wait_lock`
    have hwl : holdsWait t.pc ≠ true := fun h => by
      have := hu (by rw [hpc]; rfl)
      rw [ht h] at this
      exact hq (Option.some.inj this)
    refine ⟨fun pid hd he => ?_, fun pid _ hp => hwl ?_, fun pid code chan l _ hw => ?_, hpair.chan,
      (fun pid hl => by cases hl), fun pid kids l hl => by cases hl⟩
    · rcases hd with h | h | ⟨h, -⟩ <;> cases h
      exact hpair.locked _ hpc he
    · generalize t.pc = pc at hp
      cases pc <;> first | rfl | exact hp.elim
    · rw [hw] at hwl
      exact absurd rfl hwl
  | waitSet hpc =>
    refine hpair.parent ⟨fun pid hd => ?_, (fun pid hl => by cases hl),
      fun pid kids l hl => by cases hl⟩
    rcases hd with h | h | ⟨h, -⟩ <;> cases h
    exact Or.inl hpc
  | _ => exact hpair.parent (SameParent.of_not (by simp_all [InWait]))

theorem Patient.congr (hs : Patient s) (hslot : s'.slot = s.slot) (hwl : s'.waitLock = s.waitLock) :
    Patient s' := by
  refine ⟨fun p h => ?_, fun p pid h hst => ?_, fun q p h => ?_⟩
  · rw [hslot] at h
    rw [hwl]
    exact hs.holder p h
  · rw [hslot] at h hst ⊢
    exact hs.chan p pid h hst
  · rw [hslot] at h ⊢
    exact hs.pair q p h

theorem Patient.own (hs : Patient s) (hf : Family s)
    (h : Own p s.waitLock (s.slot p) event wl t) : Patient { s.set p t with waitLock := wl } := by
  obtain ⟨hown, hwl⟩ := Own.wait h (hs.holder p)
  have hparent := (Own.family h).1
  refine hs.set (hparent ▸ hf.irrefl p) hown (fun r hr hold => ?_) (fun pid hpc _ => Own.sleepChan h hpc)
    (fun r hr hp => ?_) fun q hq hp => ?_
  · have hlock := hs.holder r hold
    rcases hwl with rfl | ⟨hnone, -⟩ | ⟨hp, -⟩
    · exact hlock
    · rw [hnone] at hlock
      cases hlock
    · rw [hp] at hlock
      exact absurd (Option.some.inj hlock).symm hr
  · rw [hparent] at hp
    exact Own.child h (hs.pair p r hp) (hs.holder p) (hs.holder r) hr hp
  · exact Own.parent h (hs.pair q p hp) (hs.holder p) (hs.holder q) hq

/-- **A slot changes in nothing that matters.** -/
theorem Patient.plain (hs : Patient s) (hirrefl : (s.slot p).parent ≠ some p)
    (hparent : t.parent = (s.slot p).parent ∨ t.parent = none)
    (hholds : holdsWait t.pc = true → holdsWait (s.slot p).pc = true)
    (hchan : ∀ pid, t.pc = .sched (.wait pid) ∨ t.pc = .parked (.wait pid) →
      t.state = .sleeping → t.sleepChan = .proc p)
    (hc : SameChild (s.slot p) t) (hp : SameParent (s.slot p) t) : Patient (s.set p t) := by
  refine hs.set (w := s.waitLock) ?_ (fun h => hs.holder p (hholds h)) (fun r _ h => hs.holder r h)
    hchan (fun r _ hr => ?_) fun q _ hq => (hs.pair q p hq).parent hp
  · rcases hparent with h | h <;> rw [h]
    · exact hirrefl
    · simp
  · rcases hparent with h | h <;> rw [h] at hr
    · exact (hs.pair p r hr).child hc
    · cases hr

/-- A thread moves on, without `wait_lock` or with it as before. -/
theorem Patient.goto (hs : Patient s) (hirrefl : (s.slot p).parent ≠ some p)
    (hholds : holdsWait pc = true → holdsWait (s.slot p).pc = true)
    (hpc : ∀ pid, pc ≠ .sched (.wait pid) ∧ pc ≠ .parked (.wait pid))
    (hchild : ∀ r, (s.slot p).parent = some r → Pair p r { s.slot p with pc := pc } (s.slot r))
    (hparent : ∀ q, (s.slot q).parent = some p → Pair q p (s.slot q) { s.slot p with pc := pc }) :
    Patient (s.goto p pc) :=
  hs.set (w := s.waitLock) hirrefl (fun h => hs.holder p (hholds h)) (fun r _ h => hs.holder r h)
    (fun pid h => by rcases h with h | h <;> simp_all) (fun r _ hr => hchild r hr)
    fun q _ hq => hparent q hq

/-- A thread moves on to a place that does not matter. -/
theorem Patient.leave (hs : Patient s) (hirrefl : (s.slot p).parent ≠ some p)
    (hholds : holdsWait pc = true → holdsWait (s.slot p).pc = true) (hwait : ¬ InWait pc)
    (hexit : ¬ InExit pc) : Patient (s.goto p pc) :=
  hs.goto hirrefl hholds (fun pid => ⟨by rintro rfl; exact hwait trivial,
    by rintro rfl; exact hwait trivial⟩)
    (fun r hr => (hs.pair p r hr).child (SameChild.of_not hexit fun _ => id))
    fun q hq => (hs.pair q p hq).parent (SameParent.of_not hwait)

/-! ### Visits -/

theorem wakeup_exited (h : (t.wakeup chan).1.exited pid) : t.exited pid := by
  unfold Slot.wakeup at h
  split_ifs at h with hw
  · cases h.1
  · exact h

theorem wakeup_state (t : Slot n κ) (chan : Chan n) (h : (t.wakeup chan).1.state = .sleeping) :
    t.state = .sleeping ∧ t.sleepChan ≠ chan ∧ (t.wakeup chan).1.sleepChan = t.sleepChan := by
  unfold Slot.wakeup at h ⊢
  split_ifs at h ⊢ with hw
  exact ⟨h, fun hc => hw ⟨h, hc⟩, rfl⟩

theorem Patient.wakeup (hs : Patient s) (hf : Family s) (chan : Chan n) :
    Patient (s.set q ((s.slot q).wakeup chan).1) := by
  have hpc := (wakeup_same (s.slot q) chan).1
  refine hs.plain (hf.irrefl q) (Or.inl ?_) (fun h => hpc ▸ h) (fun pid h hst => ?_)
    (SameChild.of_pc hpc fun pid => wakeup_exited)
    (SameParent.of_pc hpc fun hst => (wakeup_state _ _ hst).1)
  · unfold Slot.wakeup
    split_ifs <;> rfl
  · obtain ⟨hst', -, hch⟩ := wakeup_state _ _ hst
    rw [hch]
    exact hs.chan q pid (hpc ▸ h) hst'

/-- After `wakeup` on its channel a process does not doze; before, it dozed with its lock free. -/
theorem not_dozes_wakeup (hs : Patient s) (hsound : Sound s) (hlock : (s.slot q).lock = none) :
    ¬ Dozes ((s.slot q).wakeup (.proc q)).1 pid := by
  intro hd
  have hpc := (wakeup_same (s.slot q) (.proc q)).1
  have hown := hsound.not_ownLock hlock (by simp)
  rcases hd with hd | hd | ⟨hd, hst⟩ <;> rw [hpc] at hd
  · exact hown (by rw [hd]; rfl)
  · exact hown (by rw [hd]; rfl)
  · obtain ⟨hst', hne, -⟩ := wakeup_state _ _ hst
    exact hne (hs.chan q pid (Or.inr hd) hst')

/-- In this step `exit` gives a child that has exited to `init_proc`, while `init_proc` sleeps in a
`wait` that the child satisfies. -/
def Abandons (s s' : State n κ) : Prop :=
  ∃ q pid, Dozes (s.slot init_proc) pid ∧ (s.slot q).exited pid ∧
    (s.slot q).parent ≠ some init_proc ∧ (s'.slot q).parent = some init_proc

theorem inExit_holdsWait (h : IsPast pc) : holdsWait pc = true := by
  cases pc <;> first | rfl | exact h.elim

/-- Somebody else than the holder of `wait_lock` becomes a child of `init_proc`. -/
theorem Patient.adopt (hs : Patient s) {code : ℤ} {l : List (Fin (n + 1))}
    (hp : (s.slot p).pc = .reparent code l) (hqp : q ≠ p) (hq : q ≠ init_proc)
    (hno : ∀ pid, Dozes (s.slot init_proc) pid → ¬ (s.slot q).exited pid) :
    Patient (s.set q { s.slot q with parent := some init_proc }) := by
  have hwl := hs.holder p (by rw [hp]; rfl)
  have hnot : ∀ r, holdsWait (s.slot r).pc = true → r = p := fun r hr => by
    have := hs.holder r hr
    rw [hwl] at this
    exact (Option.some.inj this).symm
  refine hs.set (w := s.waitLock) (fun h => hq (Option.some.inj h).symm) (hs.holder q)
    (fun r _ hr => hs.holder r hr) (hs.chan q) (fun r hr hri => ?_)
    fun r hrq hr => (hs.pair r q hr).parent (SameParent.of_pc rfl id)
  obtain rfl := Option.some.inj hri
  have hfree : holdsWait (s.slot q).pc ≠ true := fun h => hqp (hnot q h)
  refine ⟨hno, fun pid _ hpast => hfree (inExit_holdsWait hpast), fun pid code chan l _ hw => ?_,
    fun code chan l hw => ?_, fun pid hl => ?_, fun pid kids l hl => ?_⟩
  · exact absurd (show holdsWait (s.slot q).pc = true by rw [show (s.slot q).pc = _ from hw]; rfl) hfree
  · exact absurd (show holdsWait (s.slot q).pc = true by rw [show (s.slot q).pc = _ from hw]; rfl) hfree
  · have := hnot init_proc (by rw [hl]; rfl)
    rw [this, hp] at hl
    cases hl
  · have := hnot init_proc (by rw [hl]; rfl)
    rw [this, hp] at hl
    cases hl

theorem set_eq_self (s : State n κ) (p : Fin (n + 1)) : s.set p (s.slot p) = s := by
  unfold State.set
  rw [Function.update_eq_self]

theorem Patient.visit (hs : Patient s) (hf : Family s) (hsound : Sound s)
    (hlock : (s.slot q).lock = none)
    (h : Visit p q (s.slot p).pc (s.slot q) event pc t add)
    (hno : ¬ Abandons s ((s.set q t).goto p pc)) : Patient ((s.set q t).goto p pc) := by
  generalize hpc₀ : (s.slot p).pc = pc₀ at h
  cases h with
  | forkScan hne =>
    rw [set_eq_self]
    exact hs.leave (hf.irrefl p) (fun h => by cases h) id id
  | @wakeup _ code chan l =>
    have hset := hs.wakeup (q := q) hf chan
    have hp : ((s.set q ((s.slot q).wakeup chan).1).slot p).pc = .exitWake code chan (q :: l) ∧
        ((s.set q ((s.slot q).wakeup chan).1).slot p).parent = (s.slot p).parent := by
      by_cases hpq : p = q
      · subst hpq
        rw [set_self]
        refine ⟨(wakeup_same _ _).1.trans hpc₀, ?_⟩
        unfold Slot.wakeup
        split_ifs <;> rfl
      · rw [set_of_ne _ _ hpq]
        exact ⟨hpc₀, rfl⟩
    refine hset.goto (hp.2 ▸ hf.irrefl p) (fun _ => by rw [hp.1]; rfl) (fun _ => by simp)
      (fun r hr => ?_) fun r hr => (hset.pair r p hr).parent (SameParent.of_not id)
    have hpair := hset.pair p r hr
    have hch := hpair.chan _ _ _ hp.1
    refine ⟨hpair.doze, fun _ _ => id, fun pid code' chan' l' hd hw => ?_, fun code' chan' l' hw => ?_,
      hpair.locked, hpair.scan⟩
    · obtain ⟨-, -, rfl⟩ := Pc.exitWake.inj hw
      rcases List.mem_cons.mp (hpair.ahead pid _ _ _ hd hp.1) with rfl | hmem
      · rw [set_self, hch] at hd
        exact absurd hd (not_dozes_wakeup hs hsound hlock)
      · exact hmem
    · obtain ⟨-, rfl, -⟩ := Pc.exitWake.inj hw
      exact hch
  | @reparent _ code l hqp =>
    have hset : Patient (s.set q (if (s.slot q).parent = some p then
        { s.slot q with parent := some init_proc } else s.slot q)) := by
      split_ifs with hp
      · have hq : q ≠ init_proc := by
          rintro rfl
          rw [hf.init.1] at hp
          cases hp
        refine hs.adopt hpc₀ hqp hq fun pid hd he => ?_
        by_cases hpi : p = init_proc
        · -- `init_proc` is the one that exits
          rw [← hpi] at hd
          rcases hd with hd | hd | ⟨hd, -⟩ <;> rw [hpc₀] at hd <;> cases hd
        · refine hno ⟨q, pid, hd, he, fun h => ?_, ?_⟩
          · rw [hp] at h
            exact hpi (Option.some.inj h)
          · rw [State.goto, set_of_ne _ _ hqp, set_self, if_pos hp]
      · rw [set_eq_self]
        exact hs
    have hp : (s.set q (if (s.slot q).parent = some p then
        { s.slot q with parent := some init_proc } else s.slot q)).slot p = s.slot p :=
      set_of_ne _ _ hqp.symm
    refine hset.goto (by rw [hp]; exact hf.irrefl p) (fun _ => by rw [hp, hpc₀]; rfl) (fun _ => by simp)
      (fun r hr => (hset.pair p r hr).child ⟨fun _ => id, fun _ => ?_, fun _ _ _ hw => by cases hw⟩)
      fun r hr => (hset.pair r p hr).parent (SameParent.of_not id)
    rw [hp, hpc₀]
    trivial
  | @scan _ pid kids l hqp hnone =>
    rw [set_eq_self]
    refine hs.goto (hf.irrefl p) (fun _ => by rw [hpc₀]; rfl) (fun _ => by simp)
      (fun r hr => (hs.pair p r hr).child (SameChild.of_not id fun _ => id)) fun r hr => ?_
    have hpair := hs.pair r p hr
    refine ⟨?_, ?_, ?_, hpair.chan, ?_, fun pid' kids' l' hl he => ?_⟩
    · rintro _ (h | h | ⟨h, -⟩) <;> cases h
    · rintro _ (h | h | ⟨h, -⟩) <;> cases h
    · rintro _ _ _ _ (h | h | ⟨h, -⟩) <;> cases h
    · intro pid' hl
      cases hl
    · obtain ⟨rfl, -, rfl⟩ := Pc.waitScan.inj hl
      rcases List.mem_cons.mp (hpair.scan _ _ _ hpc₀ he) with rfl | hmem
      · exact absurd ⟨hr, he⟩ hnone
      · exact hmem
  | @reap _ pid kids l hqp hparent hex =>
    have hset : Patient (s.set q (s.slot q).freeproc) := by
      refine hs.plain (hf.irrefl q) (Or.inr rfl) (fun h => by cases h) (fun pid h => ?_)
        (SameChild.of_not id fun pid he => by cases he.1) (SameParent.of_not id)
      rcases h with h | h <;> cases h
    have hp : (s.set q (s.slot q).freeproc).slot p = s.slot p := set_of_ne _ _ hqp.symm
    exact hset.leave (by rw [hp]; exact hf.irrefl p) (fun _ => by rw [hp, hpc₀]; rfl) id id

/-! ### Every run -/

theorem Patient.fork (hs : Patient s) (hf : Family s) (hsound : Sound s)
    (hp : (s.slot p).pc = .forkCopy q) :
    Patient ((s.set q { s.slot q with
      parent := some p, state := .runnable, pc := .parked .first }).goto p (.forkDone q)) := by
  have hne := (hsound.child p q (by rw [hp]; rfl)).1
  have hset : Patient (s.set q { s.slot q with
      parent := some p, state := .runnable, pc := .parked .first }) := by
    refine hs.set (w := s.waitLock) (fun h => hne (Option.some.inj h).symm) (fun h => by cases h)
      (fun r _ hr => hs.holder r hr) (fun pid h => by rcases h with h | h <;> cases h)
      (fun r _ hr => ?_) fun r _ hr => (hs.pair r q hr).parent (SameParent.of_not id)
    obtain rfl := Option.some.inj hr
    have hno : ∀ pid, ¬ Dozes (s.slot p) pid := by
      rintro pid (h | h | ⟨h, -⟩) <;> rw [hp] at h <;> cases h
    refine ⟨fun pid hd => absurd hd (hno pid), fun pid hd => absurd hd (hno pid),
      fun pid _ _ _ hd => absurd hd (hno pid), (fun _ _ _ hw => by cases hw), fun pid hl => ?_,
      fun pid kids l hl => ?_⟩
    · rw [hp] at hl
      cases hl
    · rw [hp] at hl
      cases hl
  have hsp : (s.set q { s.slot q with
      parent := some p, state := .runnable, pc := .parked .first }).slot p = s.slot p :=
    set_of_ne _ _ hne.symm
  exact hset.leave (by rw [hsp]; exact hf.irrefl p) (fun h => by cases h) id id

theorem patient_start : Patient (start : State n κ) := by
  refine ⟨fun p h => ?_, fun p pid h => ?_, fun q p h => by cases h⟩
  · by_cases hp : p = init_proc <;> simp [start, hp, holdsWait] at h
  · by_cases hp : p = init_proc <;> simp [start, hp] at h

/-- The places where `init_proc` can doze. -/
def dozy : Pc n → Bool
  | .waitSet _ | .sched (.wait _) | .parked (.wait _) => true
  | _ => false

theorem not_abandons_of_not_dozy (h : dozy (s.slot init_proc).pc = false) : ¬ Abandons s s' := by
  rintro ⟨q, pid, hd, -⟩
  rcases hd with hd | hd | ⟨hd, -⟩ <;> rw [hd] at h <;> cases h

theorem not_abandons_of_own (h : Own p s.waitLock (s.slot p) event wl t) :
    ¬ Abandons s { s.set p t with waitLock := wl } := by
  rintro ⟨q, pid, -, -, hne, heq⟩
  change ((s.set p t).slot q).parent = some init_proc at heq
  by_cases hq : q = p
  · subst hq
    rw [set_self, (Own.family h).1] at heq
    exact hne heq
  · rw [set_of_ne _ _ hq] at heq
    exact hne heq

variable [DecidableEq κ]

theorem Patient.step (hs : Patient s) (hf : Family s) (hsound : Sound s) (h : Step s event s')
    (hno : ¬ Abandons s s') : Patient s' := by
  cases h with
  | own k p hk h => exact hs.own hf h
  | @visit pc t add _ k p q hk hlock h =>
    refine (hs.visit hf hsound hlock h ?_).congr ?_ ?_
    all_goals cases add <;> first | rfl | exact hno
  | alloc k p q hk hp hlock hq =>
    have hoff := Fits.not_unused (hq ▸ (hsound.slot q).fits)
    have hne : p ≠ q := by
      rintro rfl
      rw [hp] at hoff
      cases hoff
    have hpc : ((s.slot q).allocproc s.nextPid p).pc = .off := hoff
    have hset : Patient (s.set q ((s.slot q).allocproc s.nextPid p)) := by
      refine hs.plain (hf.irrefl q) (Or.inr rfl) (fun h => ?_) (fun pid h => ?_)
        (SameChild.of_not ?_ fun pid he => by cases he.1) (SameParent.of_not ?_)
      · rw [hpc] at h
        cases h
      · rw [hpc] at h
        rcases h with h | h <;> cases h
      · rw [hpc]
        exact id
      · rw [hpc]
        exact id
    have hsp : (s.set q ((s.slot q).allocproc s.nextPid p)).slot p = s.slot p := set_of_ne _ _ hne
    exact (hset.leave (by rw [hsp]; exact hf.irrefl p) (fun h => by cases h) id id).congr rfl rfl
  | fork k p q hk hp => exact (hs.fork hf hsound hp).congr rfl rfl
  | forkDone k p q hk hp =>
    have hne := (hsound.child p q (by rw [hp]; rfl)).1
    have hset : Patient (s.set q { s.slot q with lock := none }) :=
      hs.plain (hf.irrefl q) (Or.inl rfl) id (hs.chan q) (SameChild.of_pc rfl fun _ => id)
        (SameParent.of_pc rfl id)
    have hsp : (s.set q { s.slot q with lock := none }).slot p = s.slot p := set_of_ne _ _ hne.symm
    exact hset.leave (by rw [hsp]; exact hf.irrefl p) (fun h => by cases h) id id
  | @switch c k p hk hp =>
    have hset : Patient (s.set p { s.slot p with pc := .parked c, lock := some (.sched k) }) := by
      refine hs.plain (hf.irrefl p) (Or.inl rfl) (fun h => by cases h) (fun pid h hst => ?_)
        (SameChild.of_not id fun _ => id) ⟨fun pid hd => ?_, (fun pid hl => by cases hl),
          fun pid kids l hl => by cases hl⟩
      · rcases h with h | h
        · cases h
        · cases h
          exact hs.chan p pid (Or.inl hp) hst
      · rcases hd with hd | hd | ⟨hd, -⟩
        · cases hd
        · cases hd
        · cases hd
          exact Or.inr (Or.inl hp)
    exact hset.congr rfl rfl
  | back k p hk =>
    refine hs.congr ?_ ?_
    all_goals split_ifs <;> rfl
  | unlock k p hk =>
    have hset : Patient (s.set p { s.slot p with lock := none }) :=
      hs.plain (hf.irrefl p) (Or.inl rfl) id (hs.chan p) (SameChild.of_pc rfl fun _ => id)
        (SameParent.of_pc rfl id)
    exact hset.congr rfl rfl
  | pop k p hk hq => exact hs.congr rfl rfl
  | lock k p hk hlock =>
    have hset : Patient (s.set p { s.slot p with lock := some (.sched k) }) :=
      hs.plain (hf.irrefl p) (Or.inl rfl) id (hs.chan p) (SameChild.of_pc rfl fun _ => id)
        (SameParent.of_pc rfl id)
    exact hset.congr rfl rfl
  | @dispatch c k p hk hstate hp =>
    have hset : Patient (s.set p { s.slot p with
        state := .running, pc := .back c, lock := some (.proc p) }) :=
      hs.plain (hf.irrefl p) (Or.inl rfl) (fun h => by cases h)
        (fun pid h => by rcases h with h | h <;> cases h)
        (SameChild.of_not id fun pid he => by cases he.1) (SameParent.of_not id)
    exact hset.congr rfl rfl
  | panic k p hk hstate => exact hs.congr rfl rfl
  | wakeup q hlock hw => exact (hs.wakeup hf .cons).congr rfl rfl

/-- **When `wait` does not miss an exit.** In every run in which no step abandons a child, nobody sleeps
in `wait(pid)` while it has a child that has exited and that it waits for. -/
theorem wait_notices
    (hrun : Run (fun s event s' => Step s event s' ∧ ¬ Abandons s s') (start : State n κ) events s)
    (hpc : (s.slot p).pc = .sched (.wait pid) ∨ (s.slot p).pc = .parked (.wait pid))
    (hstate : (s.slot p).state = .sleeping) (hparent : (s.slot q).parent = some p) :
    ¬ (s.slot q).exited pid := by
  have hinv := hrun.invariant (I := fun s => Sound s ∧ Family s ∧ Patient s)
    ⟨sound_start, family_start, patient_start⟩ fun _ _ _ hI hstep =>
      ⟨hI.1.step hstep.1, hI.2.1.step hI.1 hstep.1, hI.2.2.step hI.2.1 hI.1 hstep.1 hstep.2⟩
  refine (hinv.2.2.pair q p hparent).doze pid ?_
  rcases hpc with hpc | hpc
  · exact Or.inr (Or.inl hpc)
  · exact Or.inr (Or.inr ⟨hpc, hstate⟩)

theorem wait_notices_sample : ∃ s : State 1 Unit, (s.slot 0).pc = .sched (.wait (-1)) ∧
    (s.slot 1).parent = some 0 ∧ ¬ (s.slot 1).exited (-1) := by
  have hquiet : ∀ {s s' : State 1 Unit} {event : Event 1}, Step s event s' →
      dozy (s.slot init_proc).pc = false → Step s event s' ∧ ¬ Abandons s s' :=
    fun h hd => ⟨h, not_abandons_of_not_dozy hd⟩
  have hstart : Run (fun s event s' => Step s event s' ∧ ¬ Abandons s s')
      (start : State 1 Unit) [] start := Run.refl
  have hrun := hstart
    |>.tail (hquiet (.pop () 0 rfl rfl) rfl) |>.tail (hquiet (.lock () 0 rfl rfl) rfl)
    |>.tail (hquiet (.dispatch () 0 rfl rfl rfl) rfl)
    |>.tail (hquiet (.own () 0 rfl (.backFirst rfl)) rfl)
    |>.tail (hquiet (.own () 0 rfl (.fork rfl)) rfl)
    |>.tail (hquiet (.visit () 0 0 rfl rfl (.forkScan (by decide))) rfl)
    |>.tail (hquiet (.alloc () 0 1 rfl rfl rfl rfl) rfl)
    |>.tail (hquiet (.own () 0 rfl (.forkLock rfl rfl)) rfl)
    |>.tail (hquiet (.fork () 0 1 rfl rfl) rfl) |>.tail (hquiet (.forkDone () 0 1 rfl rfl) rfl)
    |>.tail (hquiet (.own () 0 rfl (.forkRet rfl)) rfl)
    |>.tail (hquiet (.own () 0 rfl (.wait (-1) rfl)) rfl)
    |>.tail (hquiet (.own () 0 rfl (.waitEnter rfl)) rfl)
    |>.tail (hquiet (.own () 0 rfl (.scanSkip rfl)) rfl)
    |>.tail (hquiet (.visit () 0 1 rfl rfl (.scan (by decide) (fun h => by cases h.2.1))) rfl)
    |>.tail (hquiet (.own () 0 rfl (.waitLock rfl rfl rfl)) rfl)
    |>.tail (hquiet (.own () 0 rfl (.waitRelease rfl)) rfl)
  have hasleep := hrun.tail ⟨.own () 0 rfl (.waitSet rfl), not_abandons_of_own (.waitSet rfl)⟩
  exact ⟨_, rfl, rfl, wait_notices hasleep (Or.inl rfl) rfl rfl⟩

/-- **An orphan is not noticed.** `init_proc` forks 1 and waits for any child; 1 forks 2, 2 forks 3; 3
exits, and then 2, which gives 3 to `init_proc` and wakes 1. -/
theorem orphan_unnoticed : ∃ (s : State 3 (Fin 4)) (events : List (Event 3)), Run Step start events s ∧
    s.waitLock = none ∧ (s.slot 0).pc = .parked (.wait (-1)) ∧ (s.slot 0).state = .sleeping ∧
    (s.slot 0).sleepChan = .proc 0 ∧ (s.slot 3).parent = some 0 ∧ (s.slot 3).exited (-1) := by
  have hstart : Run Step (start : State 3 (Fin 4)) [] start := Run.refl
  have hinit := hstart
    |>.tail (.pop 0 0 rfl rfl) |>.tail (.lock 0 0 rfl rfl) |>.tail (.dispatch 0 0 rfl rfl rfl)
    |>.tail (.own 0 0 rfl (.backFirst rfl)) |>.tail (.own 0 0 rfl (.fork rfl))
    |>.tail (.visit 0 0 0 rfl rfl (.forkScan (by decide))) |>.tail (.alloc 0 0 1 rfl rfl rfl rfl)
    |>.tail (.own 0 0 rfl (.forkLock rfl rfl)) |>.tail (.fork 0 0 1 rfl rfl)
    |>.tail (.forkDone 0 0 1 rfl rfl) |>.tail (.own 0 0 rfl (.forkRet rfl))
    |>.tail (.own 0 0 rfl (.wait (-1) rfl)) |>.tail (.own 0 0 rfl (.waitEnter rfl))
    |>.tail (.own 0 0 rfl (.scanSkip rfl))
    |>.tail (.visit 0 0 1 rfl rfl (.scan (by decide) (fun h => by cases h.2.1)))
    |>.tail (.visit 0 0 2 rfl rfl (.scan (by decide) (fun h => by cases h.2.1)))
    |>.tail (.visit 0 0 3 rfl rfl (.scan (by decide) (fun h => by cases h.2.1)))
    |>.tail (.own 0 0 rfl (.waitLock rfl rfl rfl)) |>.tail (.own 0 0 rfl (.waitRelease rfl))
    |>.tail (.own 0 0 rfl (.waitSet rfl)) |>.tail (.switch 0 0 rfl rfl) |>.tail (.back 0 0 rfl)
    |>.tail (.unlock 0 0 rfl)
  have hp := hinit
    |>.tail (.pop 1 1 rfl rfl) |>.tail (.lock 1 1 rfl rfl) |>.tail (.dispatch 1 1 rfl rfl rfl)
    |>.tail (.own 1 1 rfl (.backFirst rfl)) |>.tail (.own 1 1 rfl (.fork rfl))
    |>.tail (.visit 1 1 0 rfl rfl (.forkScan (by decide)))
    |>.tail (.visit 1 1 1 rfl rfl (.forkScan (by decide))) |>.tail (.alloc 1 1 2 rfl rfl rfl rfl)
    |>.tail (.own 1 1 rfl (.forkLock rfl rfl)) |>.tail (.fork 1 1 2 rfl rfl)
    |>.tail (.forkDone 1 1 2 rfl rfl) |>.tail (.own 1 1 rfl (.forkRet rfl))
  have hm := hp
    |>.tail (.pop 2 2 rfl rfl) |>.tail (.lock 2 2 rfl rfl) |>.tail (.dispatch 2 2 rfl rfl rfl)
    |>.tail (.own 2 2 rfl (.backFirst rfl)) |>.tail (.own 2 2 rfl (.fork rfl))
    |>.tail (.visit 2 2 0 rfl rfl (.forkScan (by decide)))
    |>.tail (.visit 2 2 1 rfl rfl (.forkScan (by decide)))
    |>.tail (.visit 2 2 2 rfl rfl (.forkScan (by decide))) |>.tail (.alloc 2 2 3 rfl rfl rfl rfl)
    |>.tail (.own 2 2 rfl (.forkLock rfl rfl)) |>.tail (.fork 2 2 3 rfl rfl)
    |>.tail (.forkDone 2 2 3 rfl rfl) |>.tail (.own 2 2 rfl (.forkRet rfl))
  have hz := hm
    |>.tail (.pop 3 3 rfl rfl) |>.tail (.lock 3 3 rfl rfl) |>.tail (.dispatch 3 3 rfl rfl rfl)
    |>.tail (.own 3 3 rfl (.backFirst rfl))
    |>.tail (.own 3 3 rfl (.exit 0 rfl (by decide) (by decide)))
    |>.tail (.own 3 3 rfl (.exitEnter rfl)) |>.tail (.visit 3 3 0 rfl rfl .wakeup)
    |>.tail (.visit 3 3 1 rfl rfl .wakeup) |>.tail (.visit 3 3 2 rfl rfl .wakeup)
    |>.tail (.visit 3 3 3 rfl rfl .wakeup) |>.tail (.own 3 3 rfl (.exitLock rfl rfl))
    |>.tail (.visit 3 3 0 rfl rfl (.reparent (by decide)))
    |>.tail (.visit 3 3 1 rfl rfl (.reparent (by decide)))
    |>.tail (.visit 3 3 2 rfl rfl (.reparent (by decide)))
    |>.tail (.own 3 3 rfl (.reparentSkip rfl)) |>.tail (.own 3 3 rfl (.zombie rfl))
    |>.tail (.own 3 3 rfl (.exitDone rfl)) |>.tail (.switch 3 3 rfl rfl)
    |>.tail (.back 3 3 rfl) |>.tail (.unlock 3 3 rfl)
  have hexit := hz
    |>.tail (.own 2 2 rfl (.exit 0 rfl (by decide) (by decide)))
    |>.tail (.own 2 2 rfl (.exitEnter rfl)) |>.tail (.visit 2 2 0 rfl rfl .wakeup)
    |>.tail (.visit 2 2 1 rfl rfl .wakeup) |>.tail (.visit 2 2 2 rfl rfl .wakeup)
    |>.tail (.visit 2 2 3 rfl rfl .wakeup) |>.tail (.own 2 2 rfl (.exitLock rfl rfl))
    |>.tail (.visit 2 2 0 rfl rfl (.reparent (by decide)))
    |>.tail (.visit 2 2 1 rfl rfl (.reparent (by decide)))
    |>.tail (.own 2 2 rfl (.reparentSkip rfl))
    |>.tail (.visit 2 2 3 rfl rfl (.reparent (by decide))) |>.tail (.own 2 2 rfl (.zombie rfl))
    |>.tail (.own 2 2 rfl (.exitDone rfl))
  exact ⟨_, _, hexit, rfl, rfl, rfl, rfl, rfl, rfl, Or.inl (by decide)⟩
end UCore.Proc.Waiting

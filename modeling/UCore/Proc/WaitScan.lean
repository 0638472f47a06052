import UCore.Proc.Waiting

/-! # The loop of wait

`wait` holds `wait_lock` while it looks at the slots, so that it has the same children all along
(`Scans`). Its flag `havekids` says that there is a child, of any pid; so `wait(pid)` sleeps although
no child has the pid, if there is another child (`wait_decides_iff`). -/

namespace UCore.Proc.WaitScan

open UCore.Proc.State UCore.Proc.Table UCore.Proc.Locks UCore.Proc.Parents UCore.Proc.Waiting
open UCore.Lib.Runs

variable {n : ℕ} {κ : Type} {s s' : State n κ} {p q r : Fin (n + 1)} {t t' : Slot n κ}
  {wl wl' : Option (Fin (n + 1))} {event : Event n} {events : List (Event n)} {pc pc' : Pc n}
  {add : Bool} {pid : ℤ} {kids : Bool} {l : List (Fin (n + 1))}

/-! ### What a scan has seen -/

/-- In the loop over the children. -/
def IsScan : Pc n → Prop
  | .waitScan _ _ _ => True
  | _ => False

/-- No child behind the scan has exited with a pid that is waited for; `havekids` says whether there is
one. -/
def Seen (s : State n κ) (p : Fin (n + 1)) : Pc n → Prop
  | .waitScan pid kids l =>
    (∀ q, (s.slot q).parent = some p → q ∉ l → kids = true ∧ ¬ (s.slot q).exited pid) ∧
      (kids = true → ∃ q, (s.slot q).parent = some p)
  | _ => True

/-- **The invariant of the scan.** -/
structure Scans (s : State n κ) : Prop where
  holder : ∀ p, holdsWait (s.slot p).pc = true → s.waitLock = some p
  seen : ∀ p, Seen s p (s.slot p).pc

theorem isScan_holdsWait (h : IsScan pc) : holdsWait pc = true := by
  cases pc <;> first | rfl | exact h.elim

theorem Seen.of_not (h : ¬ IsScan pc) : Seen s p pc := by
  cases pc <;> first | trivial | exact absurd trivial h

/-- Two that hold `wait_lock` are one. -/
theorem Scans.eq (hs : Scans s) (hp : holdsWait (s.slot p).pc = true)
    (hr : holdsWait (s.slot r).pc = true) : r = p := by
  have h := hs.holder r hr
  rw [hs.holder p hp] at h
  exact (Option.some.inj h).symm

/-- The slot is a child of the same process as before, and has not exited. -/
structure SameKid (r : Fin (n + 1)) (t t' : Slot n κ) : Prop where
  parent : t'.parent = some r ↔ t.parent = some r
  exited : ∀ pid, t'.exited pid → t.exited pid

theorem SameKid.refl (r : Fin (n + 1)) (t : Slot n κ) : SameKid r t t := ⟨Iff.rfl, fun _ => id⟩

theorem Seen.congr (h : Seen s r pc) (hkids : ∀ q, SameKid r (s.slot q) (s'.slot q)) :
    Seen s' r pc := by
  cases pc with
  | waitScan pid kids l =>
    obtain ⟨hseen, hex⟩ := h
    refine ⟨fun q hq hl => ?_, fun hk => ?_⟩
    · obtain ⟨hk, hno⟩ := hseen q ((hkids q).parent.mp hq) hl
      exact ⟨hk, fun he => hno ((hkids q).exited pid he)⟩
    · obtain ⟨q, hq⟩ := hex hk
      exact ⟨q, (hkids q).parent.mpr hq⟩
  | _ => trivial

/-- **One slot changes**, and `wait_lock`. -/
theorem Scans.set (hs : Scans s) {w : Option (Fin (n + 1))}
    (hholder : holdsWait t.pc = true → w = some p)
    (hothers : ∀ r, r ≠ p → holdsWait (s.slot r).pc = true → w = some r)
    (hown : Seen s p t.pc) (hirrefl : IsScan t.pc → SameKid p (s.slot p) t)
    (hkid : ∀ r, r ≠ p → IsScan (s.slot r).pc → SameKid r (s.slot p) t) :
    Scans { s.set p t with waitLock := w } := by
  have hslot : ∀ r, ({ s.set p t with waitLock := w } : State n κ).slot r = (s.set p t).slot r :=
    fun _ => rfl
  have hkids : ∀ r, SameKid r (s.slot p) t → ∀ q, SameKid r (s.slot q) ((s.set p t).slot q) := by
    intro r h q
    by_cases hqp : q = p
    · subst hqp
      rwa [set_self]
    · rw [set_of_ne _ _ hqp]
      exact SameKid.refl r _
  refine ⟨fun r hr => ?_, fun r => ?_⟩
  · rw [hslot] at hr
    by_cases hrp : r = p
    · subst hrp
      rw [set_self] at hr
      exact hholder hr
    · rw [set_of_ne _ _ hrp] at hr
      exact hothers r hrp hr
  · rw [hslot]
    by_cases hrp : r = p
    · subst hrp
      rw [set_self]
      by_cases hscan : IsScan t.pc
      · exact hown.congr (hkids r (hirrefl hscan))
      · exact Seen.of_not hscan
    · rw [set_of_ne _ _ hrp]
      by_cases hscan : IsScan (s.slot r).pc
      · exact (hs.seen r).congr (hkids r (hkid r hrp hscan))
      · exact Seen.of_not hscan

theorem Scans.congr (hs : Scans s) (hslot : s'.slot = s.slot) (hwl : s'.waitLock = s.waitLock) :
    Scans s' := by
  refine ⟨fun p h => ?_, fun p => ?_⟩
  · rw [hslot] at h
    rw [hwl]
    exact hs.holder p h
  · rw [hslot]
    exact (hs.seen p).congr fun q => by
      rw [hslot]
      exact SameKid.refl p _

/-- A slot changes in nothing that matters. -/
theorem Scans.plain (hs : Scans s) (hholds : holdsWait t.pc = true → holdsWait (s.slot p).pc = true)
    (hscan : ¬ IsScan t.pc ∨ t.pc = (s.slot p).pc) (hkid : ∀ r, SameKid r (s.slot p) t) :
    Scans (s.set p t) := by
  refine hs.set (w := s.waitLock) (fun h => hs.holder p (hholds h)) (fun r _ => hs.holder r) ?_
    (fun _ => hkid p) fun r _ _ => hkid r
  rcases hscan with h | h
  · exact Seen.of_not h
  · rw [h]
    exact hs.seen p

/-- A thread leaves the loop, or is not in it. -/
theorem Scans.leave (hs : Scans s) (hholds : holdsWait pc = true → holdsWait (s.slot p).pc = true)
    (hscan : ¬ IsScan pc) : Scans (s.goto p pc) :=
  hs.plain hholds (Or.inl hscan) fun _ => ⟨Iff.rfl, fun _ => id⟩

/-! ### The steps -/

/-- A process becomes a `ZOMBIE` with `wait_lock`. -/
theorem Own.exited (h : Own p wl t event wl' t') :
    (∀ pid, t'.exited pid → t.exited pid) ∨ holdsWait t.pc = true ∧ ¬ IsScan t'.pc := by
  cases h with
  | zombie hpc => exact Or.inr ⟨by rw [hpc]; rfl, id⟩
  | _ =>
    refine Or.inl fun pid he => ?_
    simp_all [Slot.exited]

theorem Own.seen (hs : Scans s) (hf : Family s) (h : Own p s.waitLock (s.slot p) event wl t) :
    Seen s p t.pc := by
  have hseen := hs.seen p
  have hirrefl := hf.irrefl
  generalize s.slot p = u at h hseen
  generalize s.waitLock = w at h
  cases h with
  | waitEnter hpc => exact ⟨fun q _ hl => absurd (List.mem_finRange q) hl, fun hk => by cases hk⟩
  | scanSkip hpc =>
    rw [hpc] at hseen
    refine ⟨fun q hq hl => hseen.1 q hq fun hmem => ?_, hseen.2⟩
    rcases List.mem_cons.mp hmem with rfl | hmem
    · exact hirrefl _ hq
    · exact hl hmem
  | _ => exact Seen.of_not (by simp_all [IsScan])

theorem Scans.own (hs : Scans s) (hf : Family s) (h : Own p s.waitLock (s.slot p) event wl t) :
    Scans { s.set p t with waitLock := wl } := by
  obtain ⟨hown, hwl⟩ := Own.wait h (hs.holder p)
  have hparent := (Own.family h).1
  refine hs.set hown (fun r hr hold => ?_) (Own.seen hs hf h) (fun hscan => ?_) fun r hr hscan => ?_
  · have hlock := hs.holder r hold
    rcases hwl with rfl | ⟨hnone, -⟩ | ⟨hp, -⟩
    · exact hlock
    · rw [hnone] at hlock
      cases hlock
    · rw [hp] at hlock
      exact absurd (Option.some.inj hlock).symm hr
  · rcases Own.exited h with he | ⟨-, hno⟩
    · exact ⟨by rw [hparent], he⟩
    · exact absurd hscan hno
  · rcases Own.exited h with he | ⟨hold, -⟩
    · exact ⟨by rw [hparent], he⟩
    · exact absurd (hs.eq hold (isScan_holdsWait hscan)) hr

theorem wakeup_sameKid (t : Slot n κ) (chan : Chan n) (r : Fin (n + 1)) :
    SameKid r t (t.wakeup chan).1 := by
  refine ⟨?_, fun pid => wakeup_exited⟩
  unfold Slot.wakeup
  split_ifs <;> rfl

theorem Scans.wakeup (hs : Scans s) (chan : Chan n) :
    Scans (s.set q ((s.slot q).wakeup chan).1) := by
  have hpc := (wakeup_same (s.slot q) chan).1
  exact hs.plain (fun h => hpc ▸ h) (Or.inr hpc) fun r => wakeup_sameKid _ chan r

theorem Scans.visit (hs : Scans s) (hlock : (s.slot q).lock = none)
    (h : Visit p q (s.slot p).pc (s.slot q) event pc t add) : Scans ((s.set q t).goto p pc) := by
  generalize hpc₀ : (s.slot p).pc = pc₀ at h
  cases h with
  | forkScan hne =>
    rw [set_eq_self]
    exact hs.leave (fun h => by cases h) id
  | @wakeup _ code chan l =>
    have hp : ((s.set q ((s.slot q).wakeup chan).1).slot p).pc = .exitWake code chan (q :: l) := by
      by_cases hpq : p = q
      · subst hpq
        rw [set_self]
        exact (wakeup_same _ _).1.trans hpc₀
      · rw [set_of_ne _ _ hpq]
        exact hpc₀
    exact (hs.wakeup chan).leave (fun _ => by rw [hp]; rfl) id
  | @reparent _ code l hqp =>
    have hold : holdsWait (s.slot p).pc = true := by rw [hpc₀]; rfl
    have hset : Scans (s.set q (if (s.slot q).parent = some p then
        { s.slot q with parent := some init_proc } else s.slot q)) := by
      -- nobody scans while `p` has `wait_lock`
      have hno : ∀ r, ¬ IsScan (s.slot r).pc := fun r hr => by
        rw [hs.eq hold (isScan_holdsWait hr), hpc₀] at hr
        exact hr
      split_ifs with hp
      · exact hs.set (w := s.waitLock) (hs.holder q) (fun r _ => hs.holder r) (hs.seen q)
          (fun hq => absurd hq (hno q)) fun r _ hr => absurd hr (hno r)
      · rw [set_eq_self]
        exact hs
    have hp : (s.set q (if (s.slot q).parent = some p then
        { s.slot q with parent := some init_proc } else s.slot q)).slot p = s.slot p :=
      set_of_ne _ _ hqp.symm
    exact hset.leave (fun _ => by rw [hp]; exact hold) id
  | @scan _ pid kids l hqp hnone =>
    rw [set_eq_self]
    have hold : holdsWait (s.slot p).pc = true := by rw [hpc₀]; rfl
    refine hs.set (w := s.waitLock) (fun _ => hs.holder p hold) (fun r _ => hs.holder r) ?_
      (fun _ => ⟨Iff.rfl, fun _ => id⟩) fun _ _ _ => ⟨Iff.rfl, fun _ => id⟩
    have hseen := hs.seen p
    rw [hpc₀] at hseen
    refine ⟨fun r hr hl => ?_, fun hk => ?_⟩
    · by_cases hrq : r = q
      · subst hrq
        refine ⟨?_, fun he => hnone ⟨hr, he⟩⟩
        rw [decide_eq_true hr, Bool.or_true]
      · obtain ⟨hk, hno⟩ := hseen.1 r hr fun hmem => (List.mem_cons.mp hmem).elim hrq hl
        exact ⟨by rw [hk, Bool.true_or], hno⟩
    · rcases Bool.or_eq_true _ _ ▸ hk with hk | hq
      · exact hseen.2 hk
      · exact ⟨q, of_decide_eq_true hq⟩
  | @reap _ pid kids l hqp hparent hex =>
    have hgoto : Scans (s.goto p (.waitRet (s.slot q).pid)) :=
      hs.leave (fun _ => by rw [hpc₀]; rfl) id
    have hold : holdsWait ((s.goto p (.waitRet (s.slot q).pid)).slot p).pc = true := by
      rw [State.goto, set_self]
      rfl
    rw [State.goto, set_of_ne _ _ hqp.symm, set_comm _ hqp]
    refine hgoto.set (w := s.waitLock) (fun hc => by cases hc) (fun r _ => hgoto.holder r) trivial
      (fun hc => hc.elim) fun r _ hr => ?_
    rw [hgoto.eq hold (isScan_holdsWait hr), State.goto, set_self] at hr
    exact hr.elim

theorem scans_start : Scans (start : State n κ) := by
  refine ⟨fun p h => ?_, fun p => Seen.of_not ?_⟩
  · by_cases hp : p = init_proc <;> simp [start, hp, holdsWait] at h
  · by_cases hp : p = init_proc <;> simp [start, hp, IsScan]

/-- The slot that `fork` fills was nobody's child. -/
theorem Scans.fork (hs : Scans s) (hf : Family s) (hsound : Sound s)
    (hp : (s.slot p).pc = .forkCopy q) : Scans ((s.set q { s.slot q with
      parent := some p, state := .runnable, pc := .parked .first }).goto p (.forkDone q)) := by
  have hne := (hsound.child p q (by rw [hp]; rfl)).1
  have horphan := hf.orphan q (Or.inr (hsound.created p q (by rw [hp]; rfl)).1)
  have hset : Scans (s.set q { s.slot q with
      parent := some p, state := .runnable, pc := .parked .first }) := by
    refine hs.set (w := s.waitLock) (fun hc => by cases hc) (fun r _ => hs.holder r) trivial
      (fun hc => hc.elim) fun r _ hr => ⟨?_, fun pid he => by cases he.1⟩
    have hrp : r ≠ p := by
      rintro rfl
      rw [hp] at hr
      exact hr
    rw [horphan]
    exact ⟨fun h => absurd (Option.some.inj h).symm hrp, fun h => by cases h⟩
  exact hset.leave (fun hc => by cases hc) id

variable [DecidableEq κ]

theorem Scans.step (hs : Scans s) (hf : Family s) (hsound : Sound s) (h : Step s event s') :
    Scans s' := by
  cases h with
  | own k p hk h => exact hs.own hf h
  | @visit pc t add _ k p q hk hlock h =>
    refine (hs.visit hlock h).congr ?_ ?_
    all_goals cases add <;> rfl
  | alloc k p q hk hp hlock hq =>
    have hoff := Fits.not_unused (hq ▸ (hsound.slot q).fits)
    have hpc : ((s.slot q).allocproc s.nextPid p).pc = .off := hoff
    have hset : Scans (s.set q ((s.slot q).allocproc s.nextPid p)) := by
      refine hs.plain (fun h => ?_) (Or.inl ?_) fun r => ⟨?_, fun pid he => by cases he.1⟩
      · rw [hpc] at h
        cases h
      · rw [hpc]
        exact id
      · rw [hf.orphan q (Or.inl hq)]
        rfl
    exact (hset.leave (fun h => by cases h) id).congr rfl rfl
  | fork k p q hk hp => exact (hs.fork hf hsound hp).congr rfl rfl
  | forkDone k p q hk hp =>
    have hset : Scans (s.set q { s.slot q with lock := none }) :=
      hs.plain id (Or.inr rfl) fun _ => ⟨Iff.rfl, fun _ => id⟩
    exact hset.leave (fun h => by cases h) id
  | @switch c k p hk hp =>
    have hset : Scans (s.set p { s.slot p with pc := .parked c, lock := some (.sched k) }) :=
      hs.plain (fun h => by cases h) (Or.inl id) fun _ => ⟨Iff.rfl, fun _ => id⟩
    exact hset.congr rfl rfl
  | back k p hk =>
    refine hs.congr ?_ ?_
    all_goals split_ifs <;> rfl
  | unlock k p hk =>
    have hset : Scans (s.set p { s.slot p with lock := none }) :=
      hs.plain id (Or.inr rfl) fun _ => ⟨Iff.rfl, fun _ => id⟩
    exact hset.congr rfl rfl
  | pop k p hk hq => exact hs.congr rfl rfl
  | lock k p hk hlock =>
    have hset : Scans (s.set p { s.slot p with lock := some (.sched k) }) :=
      hs.plain id (Or.inr rfl) fun _ => ⟨Iff.rfl, fun _ => id⟩
    exact hset.congr rfl rfl
  | @dispatch c k p hk hstate hp =>
    have hset : Scans (s.set p { s.slot p with
        state := .running, pc := .back c, lock := some (.proc p) }) :=
      hs.plain (fun h => by cases h) (Or.inl id) fun _ => ⟨Iff.rfl, fun pid he => by cases he.1⟩
    exact hset.congr rfl rfl
  | panic k p hk hstate => exact hs.congr rfl rfl
  | wakeup q hlock hw => exact (hs.wakeup .cons).congr rfl rfl

theorem scans_run (hrun : Run Step (start : State n κ) events s) : Scans s := by
  have hinv := hrun.invariant (I := fun s => Sound s ∧ Family s ∧ Scans s)
    ⟨sound_start, family_start, scans_start⟩ fun _ _ _ hI hstep =>
      ⟨hI.1.step hstep, hI.2.1.step hI.1 hstep, hI.2.2.step hI.2.1 hI.1 hstep⟩
  exact hinv.2.2

/-! ### The decision -/

/-- The process `p` has the child `q`. -/
def Child (s : State n κ) (p q : Fin (n + 1)) : Prop := (s.slot q).parent = some p

/-- `wait(pid)` goes on to the place `pc` at the end of its loop. It goes to sleep only if there is a
child with the pid that has not exited; if no child has the pid it returns `-1`. -/
structure Decides (s : State n κ) (p : Fin (n + 1)) (pid : ℤ) (pc : Pc n) : Prop where
  sleeps : pc = .waitLocked pid → ∃ q, Child s p q ∧ (s.slot q).pid = pid ∧ (s.slot q).state ≠ .zombie
  returns : (∀ q, Child s p q → (s.slot q).pid ≠ pid) → pc = .waitRet (-1)

omit [DecidableEq κ] in
/-- The step out of the loop. -/
theorem Own.decide (h : Own p wl t event wl' t') (hpc : t.pc = .waitScan pid kids []) :
    t'.pc = if kids = true ∧ t.killed = false then .waitLocked pid else .waitRet (-1) := by
  cases h with
  | noKids h hk =>
    rw [hpc] at h
    cases h
    refine (if_neg fun hc => ?_).symm
    rcases hk with hk | hk
    · rw [hk] at hc
      cases hc.1
    · rw [hk] at hc
      cases hc.2
  | waitLock h hk hlock =>
    rw [hpc] at h
    cases h
    exact (if_pos ⟨rfl, hk⟩).symm
  | _ => simp_all

/-- **`wait(pid)` decides as it should** exactly if the caller is killed, has no child, or has one with
that pid. -/
theorem wait_decides_iff (hrun : Run Step (start : State n κ) events s)
    (hpc : (s.slot p).pc = .waitScan pid kids [])
    (hstep : Own p s.waitLock (s.slot p) event wl t) :
    Decides s p pid t.pc ↔ (s.slot p).killed = true ∨ (∀ q, ¬ Child s p q) ∨
      ∃ q, Child s p q ∧ (s.slot q).pid = pid := by
  have hseen := (scans_run hrun).seen p
  rw [hpc] at hseen
  obtain ⟨hno, hex⟩ := hseen
  rw [Own.decide hstep hpc]
  constructor
  · rintro ⟨-, hreturns⟩
    by_contra hc
    rw [not_or, not_or, not_forall] at hc
    obtain ⟨hkilled, ⟨q, hq⟩, hnone⟩ := hc
    have hk : kids = true := (hno q (not_not.mp hq) List.not_mem_nil).1
    have hret := hreturns fun r hr hp => hnone ⟨r, hr, hp⟩
    rw [if_pos ⟨hk, by simpa using hkilled⟩] at hret
    cases hret
  · intro h
    refine ⟨fun hsleep => ?_, fun hnone => ?_⟩
    · split_ifs at hsleep with hc
      rcases h with hkilled | hnone | ⟨q, hq, hp⟩
      · rw [hc.2] at hkilled
        cases hkilled
      · obtain ⟨q, hq⟩ := hex hc.1
        exact absurd hq (hnone q)
      · refine ⟨q, hq, hp, fun hz => ?_⟩
        exact (hno q hq List.not_mem_nil).2 ⟨hz, Or.inr hp⟩
    · refine if_neg fun hc => ?_
      rcases h with hkilled | hno' | ⟨q, hq, hp⟩
      · rw [hc.2] at hkilled
        cases hkilled
      · obtain ⟨q, hq⟩ := hex hc.1
        exact hno' q hq
      · exact hnone q hq hp

/-- `init_proc` forks the process of pid 2 and calls `wait(pid)`. -/
theorem exists_scan (pid : ℤ) : ∃ (s : State 1 Unit) (events : List (Event 1)),
    Run Step start events s ∧ (s.slot 0).pc = .waitScan pid true [] ∧
    (s.slot 0).killed = false ∧ (s.slot 0).lock = none ∧ (s.slot 0).parent = none ∧
    (s.slot 1).parent = some 0 ∧ (s.slot 1).pid = 2 := by
  have hstart : Run Step (start : State 1 Unit) [] start := Run.refl
  have hrun := hstart
    |>.tail (.pop () 0 rfl rfl) |>.tail (.lock () 0 rfl rfl) |>.tail (.dispatch () 0 rfl rfl rfl)
    |>.tail (.own () 0 rfl (.backFirst rfl)) |>.tail (.own () 0 rfl (.fork rfl))
    |>.tail (.visit () 0 0 rfl rfl (.forkScan (by decide))) |>.tail (.alloc () 0 1 rfl rfl rfl rfl)
    |>.tail (.own () 0 rfl (.forkLock rfl rfl)) |>.tail (.fork () 0 1 rfl rfl)
    |>.tail (.forkDone () 0 1 rfl rfl) |>.tail (.own () 0 rfl (.forkRet rfl))
    |>.tail (.own () 0 rfl (.wait pid rfl)) |>.tail (.own () 0 rfl (.waitEnter rfl))
    |>.tail (.own () 0 rfl (.scanSkip rfl))
    |>.tail (.visit () 0 1 rfl rfl (.scan (by decide) (fun h => by cases h.2.1)))
  exact ⟨_, _, hrun, rfl, rfl, rfl, rfl, rfl, rfl⟩

theorem wait_decides_iff_sample : ∃ (s : State 1 Unit) (t : Slot 1 Unit), Decides s 0 2 t.pc ↔
    (s.slot 0).killed = true ∨ (∀ q, ¬ Child s 0 q) ∨ ∃ q, Child s 0 q ∧ (s.slot q).pid = 2 := by
  obtain ⟨s, events, hrun, hpc, hkilled, hlock, -⟩ := exists_scan 2
  exact ⟨s, _, wait_decides_iff hrun hpc (.waitLock hpc hkilled hlock)⟩

/-- **A process sleeps for nobody**: with one child, of pid 2, `wait(99)` goes to sleep. -/
theorem sleeps_for_nobody : ∃ (s : State 1 Unit) (events : List (Event 1)) (t : Slot 1 Unit),
    Run Step start events s ∧ (s.slot 0).pc = .waitScan 99 true [] ∧
    Own 0 s.waitLock (s.slot 0) .quiet s.waitLock t ∧ t.pc = .waitLocked 99 ∧
    (∀ q, Child s 0 q → (s.slot q).pid ≠ 99) ∧ ¬ Decides s 0 99 t.pc := by
  obtain ⟨s, events, hrun, hpc, hkilled, hlock, h0, h1, hpid⟩ := exists_scan 99
  have hnone : ∀ q, Child s 0 q → (s.slot q).pid ≠ 99 := by
    intro q hq
    match q with
    | 0 => exact absurd (h0.symm.trans hq) (by simp)
    | 1 => rw [hpid]; decide
  exact ⟨s, events, _, hrun, hpc, .waitLock hpc hkilled hlock, rfl, hnone, fun hd => by
    cases hd.returns hnone⟩

end UCore.Proc.WaitScan

import UCore.Proc.ExitCode
import UCore.Proc.Locks

/-! # Parents and children

Parent pointers are slots, and slots are used again. What keeps them right is the order in `exit`: a
process changes the parents of all its children before it becomes a `ZOMBIE`, and only a `ZOMBIE` is
freed. So a slot that is not in use has no children, and no process is reaped twice. The code that
`wait` finds is the one of the last `exit`; whether it arrives in the memory of the parent is a matter
of the address alone (`parents_and_reaping`). -/

namespace UCore.Proc.Parents

open UCore.Lib.Runs UCore.Mem.Boot UCore.Proc.State UCore.Proc.Table UCore.Proc.Locks
open UCore.Mem.State (Layout KState)
open UCore.Proc.ExitCode (Waits StoresCode Consecutive storeExitCode)
open UCore.Vm.Walk (Mm)

variable {n : ℕ} {κ : Type} {s s' : State n κ} {p q r : Fin (n + 1)} {k : κ} {t t' : Slot n κ}
  {wl wl' : Option (Fin (n + 1))} {event : Event n} {events : List (Event n)} {pc pc' : Pc n}
  {add : Bool}

/-! ### Who has children -/

/-- At this place a process can have the child `q`. -/
def MayHave (q : Fin (n + 1)) : Pc n → Prop
  | .off | .exitDone | .sched .exit | .parked .exit | .back .exit => False
  | .reparent _ l => q ∈ l
  | _ => True

/-- **The invariant of the parent pointers.** -/
structure Family (s : State n κ) : Prop where
  parent : ∀ q p, (s.slot q).parent = some p → p ≠ init_proc → MayHave q (s.slot p).pc
  irrefl : ∀ q, (s.slot q).parent ≠ some q
  orphan : ∀ q, (s.slot q).state = .unused ∨ (s.slot q).state = .used → (s.slot q).parent = none
  init : (s.slot init_proc).parent = none ∧ (s.slot init_proc).pc ≠ .off

/-- **One slot changes.** -/
theorem Family.set (hs : Family s)
    (hparent : ∀ r, t.parent = some r → r ≠ init_proc → MayHave p (s.slot r).pc)
    (hirrefl : t.parent ≠ some p)
    (hkids : ∀ q, (s.slot q).parent = some p → p ≠ init_proc → MayHave q t.pc)
    (horphan : t.state = .unused ∨ t.state = .used → t.parent = none)
    (hinit : p = init_proc → t.parent = none ∧ t.pc ≠ .off) : Family (s.set p t) := by
  refine ⟨fun q r hr hne => ?_, fun q => ?_, fun q hq => ?_, ?_⟩
  · by_cases hqp : q = p
    · subst hqp
      rw [set_self] at hr
      have hrq : r ≠ q := fun h => hirrefl (h ▸ hr)
      rw [set_of_ne _ _ hrq]
      exact hparent r hr hne
    · rw [set_of_ne _ _ hqp] at hr
      by_cases hrp : r = p
      · subst hrp
        rw [set_self]
        exact hkids q hr hne
      · rw [set_of_ne _ _ hrp]
        exact hs.parent q r hr hne
  · by_cases hqp : q = p
    · subst hqp
      rwa [set_self]
    · rw [set_of_ne _ _ hqp]
      exact hs.irrefl q
  · by_cases hqp : q = p
    · subst hqp
      rw [set_self] at hq ⊢
      exact horphan hq
    · rw [set_of_ne _ _ hqp] at hq ⊢
      exact hs.orphan q hq
  · by_cases hp : init_proc = p
    · subst hp
      rw [set_self]
      exact hinit rfl
    · rw [set_of_ne _ _ hp]
      exact hs.init

/-- A slot changes, but its parent does not, and it can still have children. -/
theorem Family.set_pc (hs : Family s) (hparent : t.parent = (s.slot p).parent)
    (hkids : ∀ q, q ≠ p → MayHave q (s.slot p).pc → MayHave q t.pc)
    (hstate : t.state = .unused ∨ t.state = .used → t.state = (s.slot p).state)
    (hpc : (s.slot p).pc ≠ .off → t.pc ≠ .off) : Family (s.set p t) := by
  refine hs.set (fun r hr => hs.parent p r (hparent ▸ hr)) (hparent ▸ hs.irrefl p)
    (fun q hq hne => hkids q ?_ (hs.parent q p hq hne)) (fun ht => ?_) fun hp => ?_
  · rintro rfl
    exact hs.irrefl _ hq
  · rw [hparent]
    exact hs.orphan p (hstate ht ▸ ht)
  · subst hp
    exact ⟨hparent.trans hs.init.1, hpc hs.init.2⟩

/-- A thread moves on. -/
theorem Family.goto (hs : Family s)
    (hkids : ∀ q, (s.slot q).parent = some p → p ≠ init_proc → MayHave q (s.slot p).pc →
      MayHave q pc) (hpc : pc ≠ .off) : Family (s.goto p pc) := by
  refine hs.set (hs.parent p) (hs.irrefl p) (fun q hq hne => hkids q hq hne (hs.parent q p hq hne))
    (hs.orphan p) fun hp => ?_
  · subst hp
    exact ⟨hs.init.1, hpc⟩

theorem Family.congr (hs : Family s) (hslot : s'.slot = s.slot) : Family s' := by
  refine ⟨fun q p h hne => ?_, fun q => ?_, fun q h => ?_, ?_⟩
  · rw [hslot] at h ⊢
    exact hs.parent q p h hne
  · rw [hslot]
    exact hs.irrefl q
  · rw [hslot] at h ⊢
    exact hs.orphan q h
  · rw [hslot]
    exact hs.init

/-! ### The steps -/

theorem Own.family (h : Own p wl t event wl' t') :
    t'.parent = t.parent ∧ (∀ q, q ≠ p → MayHave q t.pc → MayHave q t'.pc) ∧
      (t'.state = .unused ∨ t'.state = .used → t'.state = t.state) := by
  cases h <;> simp_all [MayHave]

/-- A slot that is `ZOMBIE` with its lock free is dead. -/
theorem Local.dead (h : Local q t) (hlock : t.lock = none) (hz : t.state = .zombie) :
    t.pc = .parked .exit := by
  obtain ⟨hfits, hown⟩ := h
  rw [hlock] at hown
  rw [hz] at hfits
  unfold Fits at hfits
  split at hfits <;> simp_all [ownLock]

theorem Family.visit (hs : Family s) (hsound : Sound s) (hlock : (s.slot q).lock = none)
    (h : Visit p q (s.slot p).pc (s.slot q) event pc t add) : Family ((s.set q t).goto p pc) := by
  generalize hpc₀ : (s.slot p).pc = pc₀ at h
  cases h with
  | @forkScan _ l hne =>
    have hset : Family (s.set q (s.slot q)) := hs.set_pc rfl (fun _ _ => id) (fun _ => rfl) id
    exact hset.goto (fun _ _ _ _ => trivial) (by simp)
  | @wakeup _ code chan l =>
    have hset : Family (s.set q ((s.slot q).wakeup chan).1) := by
      refine hs.set_pc ?_ (fun r _ hr => ?_) (fun hst => ?_) fun hoff => ?_
      all_goals
        unfold Slot.wakeup at *
        split_ifs at * <;> simp_all
    exact hset.goto (fun _ _ _ _ => trivial) (by simp)
  | @reparent _ code l hqp =>
    have hset : Family (s.set q (if (s.slot q).parent = some p then
        { s.slot q with parent := some init_proc } else s.slot q)) := by
      split_ifs with hp
      · have hq : q ≠ init_proc := by
          rintro rfl
          rw [hs.init.1] at hp
          cases hp
        refine hs.set (fun r hr hne => ?_) (fun hr => ?_) (fun r hr hne => hs.parent r q hr hne)
          (fun hst => ?_) fun hq' => absurd hq' hq
        · exact absurd (Option.some.inj hr).symm hne
        · exact hq (Option.some.inj hr).symm
        · rw [hs.orphan q hst] at hp
          cases hp
      · exact hs.set_pc rfl (fun _ _ => id) (fun _ => rfl) id
    refine hset.goto (fun r hrp hne hmay => ?_) (by simp)
    rw [set_of_ne _ _ hqp.symm, hpc₀] at hmay
    rcases List.mem_cons.mp hmay with rfl | hmem
    · -- the parent of `q` has just been changed
      rw [set_self] at hrp
      split_ifs at hrp with hp
      · exact absurd (Option.some.inj hrp).symm hne
      · exact absurd hrp hp
    · exact hmem
  | @scan _ pid kids l hqp hno =>
    have hset : Family (s.set q (s.slot q)) := hs.set_pc rfl (fun _ _ => id) (fun _ => rfl) id
    exact hset.goto (fun _ _ _ _ => trivial) (by simp)
  | @reap _ pid kids l hqp hp hex =>
    have hdead := Local.dead (hsound.slot q) hlock hex.1
    have hset : Family (s.set q (s.slot q).freeproc) := by
      refine hs.set (fun r hr => by cases hr) (by simp [Slot.freeproc]) (fun r hr hne => ?_)
        (fun _ => rfl) fun hq => ?_
      · -- a dead process has no children
        have hmay := hs.parent r q hr hne
        rw [hdead] at hmay
        exact hmay
      · subst hq
        rw [hs.init.1] at hp
        cases hp
    exact hset.goto (fun _ _ _ _ => trivial) (by simp)

theorem Family.alloc (hs : Family s) {pid : ℤ} :
    Family ((s.set q ((s.slot q).allocproc pid p)).goto p (.forkLock q)) := by
  have hset : Family (s.set q ((s.slot q).allocproc pid p)) := by
    refine hs.set (fun r hr => by cases hr) (by simp [Slot.allocproc])
      (fun r hr hne => hs.parent r q hr hne) (fun _ => rfl) fun hq => ?_
    subst hq
    exact ⟨rfl, hs.init.2⟩
  exact hset.goto (fun _ _ _ _ => trivial) (by simp)

theorem Family.fork (hs : Family s) (hsound : Sound s) (hp : (s.slot p).pc = .forkCopy q) :
    Family ((s.set q { s.slot q with
      parent := some p, state := .runnable, pc := .parked .first }).goto p (.forkDone q)) := by
  have hcreating : creating (s.slot p).pc = some q := by rw [hp]; rfl
  have hne := (hsound.child p q (childLock_of_creating hcreating)).1
  have hoff := (hsound.created p q hcreating).2
  have hset : Family (s.set q { s.slot q with
      parent := some p, state := .runnable, pc := .parked .first }) := by
    refine hs.set (fun r hr _ => ?_) (fun hr => hne (Option.some.inj hr).symm) (fun _ _ _ => trivial)
      (fun hst => by rcases hst with h | h <;> cases h) fun hq => ?_
    · obtain rfl := Option.some.inj hr
      rw [hp]
      trivial
    · subst hq
      exact absurd hoff hs.init.2
  exact hset.goto (fun _ _ _ _ => trivial) (by simp)

theorem Family.step [DecidableEq κ] (hs : Family s) (hsound : Sound s) (h : Step s event s') :
    Family s' := by
  cases h with
  | own k p hk h =>
    obtain ⟨hparent, hmay, hstate⟩ := Own.family h
    exact (hs.set_pc hparent hmay hstate fun _ => (Own.thread h).2).congr rfl
  | @visit pc t add _ k p q hk hlock h =>
    refine (hs.visit hsound hlock h).congr ?_
    cases add <;> rfl
  | alloc k p q hk hp hlock hq => exact hs.alloc.congr rfl
  | fork k p q hk hp => exact (hs.fork hsound hp).congr rfl
  | forkDone k p q hk hp =>
    have hset : Family (s.set q { s.slot q with lock := none }) :=
      hs.set_pc rfl (fun _ _ => id) (fun _ => rfl) id
    exact hset.goto (fun _ _ _ _ => trivial) (by simp)
  | @switch c k p hk hp =>
    have hset : Family (s.set p { s.slot p with pc := .parked c, lock := some (.sched k) }) := by
      refine hs.set_pc rfl (fun q _ hmay => ?_) (fun _ => rfl) fun _ => by simp
      rw [hp] at hmay
      cases c <;> exact hmay
    exact hset.congr rfl
  | back k p hk =>
    refine hs.congr ?_
    split_ifs <;> rfl
  | unlock k p hk =>
    have hset : Family (s.set p { s.slot p with lock := none }) :=
      hs.set_pc rfl (fun _ _ => id) (fun _ => rfl) id
    exact hset.congr rfl
  | pop k p hk hq => exact hs.congr rfl
  | lock k p hk hlock =>
    have hset : Family (s.set p { s.slot p with lock := some (.sched k) }) :=
      hs.set_pc rfl (fun _ _ => id) (fun _ => rfl) id
    exact hset.congr rfl
  | @dispatch c k p hk hstate hp =>
    have hset : Family (s.set p { s.slot p with
        state := .running, pc := .back c, lock := some (.proc p) }) := by
      refine hs.set_pc rfl (fun q _ hmay => ?_) (fun hst => by rcases hst with h | h <;> cases h)
        fun _ => by simp
      rw [hp] at hmay
      cases c <;> exact hmay
    exact hset.congr rfl
  | panic k p hk hstate => exact hs.congr rfl
  | wakeup q hlock hw =>
    have hset : Family (s.set q ((s.slot q).wakeup .cons).1) := by
      refine hs.set_pc ?_ (fun r _ hr => ?_) (fun hst => ?_) fun hoff => ?_
      all_goals
        unfold Slot.wakeup at *
        split_ifs at *
        simp_all
    exact hset.congr rfl

theorem family_start : Family (start : State n κ) := by
  refine ⟨fun q p h => ?_, fun q => ?_, fun q _ => rfl, rfl, ?_⟩
  · cases h
  · simp [start]
  · simp [start]

/-! ### Exits and reapings -/

/-- The event is an exit of `q`, or `q` is freed. -/
def About (q : Fin (n + 1)) : Event n → Prop
  | .exit p _ _ => p = q
  | .reap _ child _ _ => child = q
  | _ => False

/-- The last event about `q` is that it, of this pid, has called `exit(code)`. -/
def LastExit (events : List (Event n)) (q : Fin (n + 1)) (pid code : ℤ) : Prop :=
  ∃ l₁ l₂, events = l₁ ++ .exit q pid code :: l₂ ∧ ∀ e ∈ l₂, ¬ About q e

/-- The event is one of `wait`, called by `p`. -/
def By (p : Fin (n + 1)) : Event n → Prop
  | .reap q _ _ _ | .ret q _ => q = p
  | _ => False

/-- The last thing that `wait`, called by `p`, has done is that it has freed a child of this pid. -/
def LastReap (events : List (Event n)) (p : Fin (n + 1)) (pid : ℤ) : Prop :=
  ∃ l₁ l₂ q code, events = l₁ ++ .reap p q pid code :: l₂ ∧ ∀ e ∈ l₂, ¬ By p e

/-- The code of a process that has called `exit`. -/
def exitCode (t : Slot n κ) : Option ℤ :=
  match t.pc with
  | .exitEnter code | .exitWake code _ _ | .reparent code _ => some code
  | .exitDone | .sched .exit | .parked .exit => some (fromExitCode t.exitCode)
  | _ => none

/-- What `wait` is about to return. -/
def waitRet : Pc n → Option ℤ
  | .waitRet ret => some ret
  | _ => none

/-- The events so far fit with what the slots say. -/
structure Ledger (events : List (Event n)) (s : State n κ) : Prop where
  exit : ∀ q code, exitCode (s.slot q) = some code →
    LastExit events q (s.slot q).pid code ∧ -2 ^ 31 ≤ code ∧ code < 2 ^ 31
  ret : ∀ p ret, waitRet (s.slot p).pc = some ret → ret = -1 ∨ LastReap events p ret

theorem fromExitCode_toExitCode {code : ℤ} (h : -2 ^ 31 ≤ code) (h' : code < 2 ^ 31) :
    fromExitCode (toExitCode code) = code := by
  unfold fromExitCode toExitCode
  rw [Int.bmod_def]
  omega

/-- What `wait` finds in the field is the code, as far as an `int` goes. -/
theorem toExitCode_fromExitCode (e : ℕ) : e % 2 ^ 32 = toExitCode (fromExitCode e) % 2 ^ 32 := by
  unfold fromExitCode toExitCode
  rw [Int.bmod_def]
  omega

theorem LastExit.append {pid code : ℤ} (h : LastExit events q pid code) (he : ¬ About q event) :
    LastExit (events ++ [event]) q pid code := by
  obtain ⟨l₁, l₂, rfl, hl⟩ := h
  refine ⟨l₁, l₂ ++ [event], by simp, fun e hmem => ?_⟩
  rcases List.mem_append.mp hmem with hmem | hmem
  · exact hl e hmem
  · rwa [List.mem_singleton.mp hmem]

theorem LastReap.append {pid : ℤ} (h : LastReap events p pid) (he : ¬ By p event) :
    LastReap (events ++ [event]) p pid := by
  obtain ⟨l₁, l₂, q, code, rfl, hl⟩ := h
  refine ⟨l₁, l₂ ++ [event], q, code, by simp, fun e hmem => ?_⟩
  rcases List.mem_append.mp hmem with hmem | hmem
  · exact hl e hmem
  · rwa [List.mem_singleton.mp hmem]

/-- What a step does to the slot `p` is in the event. -/
structure Kept (p : Fin (n + 1)) (event : Event n) (t t' : Slot n κ) : Prop where
  exit : ∀ code, exitCode t' = some code →
    (exitCode t = some code ∧ t'.pid = t.pid ∧ ¬ About p event) ∨
      event = .exit p t'.pid code ∧ -2 ^ 31 ≤ code ∧ code < 2 ^ 31
  ret : ∀ ret, waitRet t'.pc = some ret →
    (waitRet t.pc = some ret ∧ ¬ By p event) ∨ ret = -1 ∨ ∃ q code, event = .reap p q ret code

theorem Kept.same (hpc : t'.pc = t.pc) (hpid : t'.pid = t.pid) (hcode : t'.exitCode = t.exitCode)
    (habout : ¬ About p event) (hby : ¬ By p event) : Kept p event t t' := by
  refine ⟨fun code h => Or.inl ⟨?_, hpid, habout⟩, fun ret h => Or.inl ⟨by rwa [← hpc], hby⟩⟩
  unfold exitCode at h ⊢
  rwa [hpc, hcode] at h

theorem Kept.clear (hexit : exitCode t' = none) (hret : waitRet t'.pc = none) : Kept p event t t' := by
  refine ⟨fun code h => ?_, fun ret h => ?_⟩
  · rw [hexit] at h
    cases h
  · rw [hret] at h
    cases h

theorem Ledger.step (hs : Ledger events s) (h : ∀ p, Kept p event (s.slot p) (s'.slot p)) :
    Ledger (events ++ [event]) s' := by
  refine ⟨fun q code hq => ?_, fun p ret hp => ?_⟩
  · rcases (h q).exit code hq with ⟨hold, hpid, hno⟩ | ⟨rfl, hrange⟩
    · obtain ⟨hlast, hrange⟩ := hs.exit q code hold
      exact ⟨hpid ▸ hlast.append hno, hrange⟩
    · exact ⟨⟨events, [], rfl, by simp⟩, hrange⟩
  · rcases (h p).ret ret hp with ⟨hold, hno⟩ | hret | ⟨q, code, rfl⟩
    · exact (hs.ret p ret hold).imp_right fun hlast => hlast.append hno
    · exact Or.inl hret
    · exact Or.inr ⟨events, [], q, code, rfl, by simp⟩

/-- The slot `p` changes. -/
theorem Kept.set (hp : Kept p event (s.slot p) t)
    (hno : ∀ r, r ≠ p → ¬ About r event ∧ ¬ By r event) (r : Fin (n + 1)) :
    Kept r event (s.slot r) ((s.set p t).slot r) := by
  by_cases hr : r = p
  · subst hr
    rwa [set_self]
  · rw [set_of_ne _ _ hr]
    exact Kept.same rfl rfl rfl (hno r hr).1 (hno r hr).2

theorem Own.kept (h : Own p wl t event wl' t')
    (hrange : ∀ code, exitCode t = some code → -2 ^ 31 ≤ code ∧ code < 2 ^ 31) :
    Kept p event t t' ∧ ∀ r, r ≠ p → ¬ About r event ∧ ¬ By r event := by
  cases h with
  | @zombie _ _ code hpc =>
    obtain ⟨h1, h2⟩ := hrange code (by simp [exitCode, hpc])
    refine ⟨⟨fun c hc => Or.inl ⟨?_, rfl, id⟩, fun ret hret => by cases hret⟩, fun _ _ => ⟨id, id⟩⟩
    rw [← hc]
    simp [exitCode, hpc, fromExitCode_toExitCode h1 h2]
  | exit code hpc h1 h2 =>
    refine ⟨⟨fun c hc => Or.inr ?_, fun ret hret => by cases hret⟩,
      fun r hr => ⟨fun h => hr h.symm, id⟩⟩
    obtain rfl := Option.some.inj hc
    exact ⟨rfl, h1, h2⟩
  | waitRet hpc => exact ⟨Kept.clear rfl rfl, fun r hr => ⟨id, fun h => hr h.symm⟩⟩
  | noKids hpc hno =>
    refine ⟨⟨(fun c hc => by cases hc), fun ret hret => Or.inr (Or.inl ?_)⟩, fun _ _ => ⟨id, id⟩⟩
    exact (Option.some.inj hret).symm
  | _ =>
    refine ⟨⟨fun c hc => Or.inl ⟨?_, rfl, id⟩, fun ret hret => Or.inl ⟨?_, id⟩⟩, fun _ _ => ⟨id, id⟩⟩
    all_goals simp_all [exitCode, waitRet]

theorem wakeup_same (t : Slot n κ) (chan : Chan n) : (t.wakeup chan).1.pc = t.pc ∧
    (t.wakeup chan).1.pid = t.pid ∧ (t.wakeup chan).1.exitCode = t.exitCode := by
  unfold Slot.wakeup
  split_ifs <;> exact ⟨rfl, rfl, rfl⟩

/-- The visited slot, and the visitor. -/
theorem Visit.kept (h : Visit p q pc t event pc' t' add) :
    (q ≠ p → Kept q event t t') ∧ (q = p → t'.pid = t.pid) ∧
    (∀ u u' : Slot n κ, u.pc = pc → u'.pid = u.pid → Kept p event u { u' with pc := pc' }) ∧
    ∀ r, r ≠ p → r ≠ q → ¬ About r event ∧ ¬ By r event := by
  cases h with
  | forkScan hne =>
    exact ⟨fun _ => Kept.same rfl rfl rfl id id, fun _ => rfl,
      fun u u' _ _ => Kept.clear rfl rfl, fun _ _ _ => ⟨id, id⟩⟩
  | @wakeup _ code chan l =>
    obtain ⟨h1, h2, h3⟩ := wakeup_same t chan
    refine ⟨fun _ => Kept.same h1 h2 h3 id id, fun _ => h2, fun u u' hpc hpid => ?_,
      fun _ _ _ => ⟨id, id⟩⟩
    refine ⟨fun c hc => Or.inl ⟨?_, hpid, id⟩, fun ret hret => by cases hret⟩
    rw [← hc]
    simp [exitCode, hpc]
  | reparent hqp =>
    refine ⟨fun _ => ?_, fun hq => absurd hq hqp, fun u u' hpc hpid => ?_, fun _ _ _ => ⟨id, id⟩⟩
    · split_ifs <;> exact Kept.same rfl rfl rfl id id
    · refine ⟨fun c hc => Or.inl ⟨?_, hpid, id⟩, fun ret hret => by cases hret⟩
      rw [← hc]
      simp [exitCode, hpc]
  | scan hqp hno =>
    exact ⟨fun _ => Kept.same rfl rfl rfl id id, fun _ => rfl,
      fun u u' _ _ => Kept.clear rfl rfl, fun _ _ _ => ⟨id, id⟩⟩
  | reap hqp hp hex =>
    refine ⟨fun _ => Kept.clear rfl rfl, fun hq => absurd hq hqp, fun u u' hpc hpid => ?_,
      fun r hrp hrq => ⟨fun h => hrq h.symm, fun h => hrp h.symm⟩⟩
    refine ⟨(fun c hc => by cases hc), fun ret hret => Or.inr (Or.inr ?_)⟩
    obtain rfl := Option.some.inj hret
    exact ⟨_, _, rfl⟩

theorem Ledger.visit (hs : Ledger events s)
    (h : Visit p q (s.slot p).pc (s.slot q) event pc t add) :
    Ledger (events ++ [event]) ((s.set q t).goto p pc) := by
  obtain ⟨hq, hself, hp, hother⟩ := Visit.kept h
  refine hs.step fun r => ?_
  by_cases hrp : r = p
  · subst hrp
    rw [State.goto, set_self]
    refine hp _ _ rfl ?_
    by_cases hqr : q = r
    · subst hqr
      rw [set_self]
      exact hself rfl
    · rw [set_of_ne _ _ (Ne.symm hqr)]
  · rw [State.goto, set_of_ne _ _ hrp]
    by_cases hrq : r = q
    · subst hrq
      rw [set_self]
      exact hq hrp
    · rw [set_of_ne _ _ hrq]
      exact Kept.same rfl rfl rfl (hother r hrp hrq).1 (hother r hrp hrq).2

theorem Ledger.congr (hs : Ledger events s) (hslot : s'.slot = s.slot) : Ledger events s' := by
  refine ⟨fun q code h => ?_, fun p ret h => ?_⟩
  · rw [hslot] at h ⊢
    exact hs.exit q code h
  · rw [hslot] at h
    exact hs.ret p ret h

/-- A quiet step on one slot. -/
theorem Ledger.quiet (hs : Ledger events s) (hp : Kept p .quiet (s.slot p) t) :
    Ledger (events ++ [.quiet]) (s.set p t) :=
  hs.step (Kept.set hp fun _ _ => ⟨id, id⟩)

/-- A quiet step on a child and its parent. -/
theorem Ledger.quiet_goto (hs : Ledger events s) (hne : q ≠ p) (hq : Kept q .quiet (s.slot q) t)
    (hexit : exitCode { s.slot p with pc := pc } = none) (hret : waitRet pc = none) :
    Ledger (events ++ [.quiet]) ((s.set q t).goto p pc) := by
  refine hs.step fun r => ?_
  rw [State.goto, set_of_ne _ _ hne.symm]
  by_cases hrp : r = p
  · subst hrp
    rw [set_self]
    exact Kept.clear hexit hret
  · rw [set_of_ne _ _ hrp]
    exact Kept.set hq (fun _ _ => ⟨id, id⟩) r

theorem Ledger.nothing (hs : Ledger events s) (hslot : s'.slot = s.slot) :
    Ledger (events ++ [.quiet]) s' := by
  refine hs.step fun r => ?_
  rw [hslot]
  exact Kept.same rfl rfl rfl id id

theorem Ledger.next [DecidableEq κ] (hs : Ledger events s) (hsound : Sound s) (h : Step s event s') :
    Ledger (events ++ [event]) s' := by
  cases h with
  | own k p hk h =>
    obtain ⟨hkept, hno⟩ := Own.kept h fun code hc => (hs.exit p code hc).2
    exact (hs.step (Kept.set hkept hno)).congr rfl
  | @visit pc t add _ k p q hk hlock h =>
    refine (hs.visit h).congr ?_
    cases add <;> rfl
  | alloc k p q hk hp hlock hq =>
    have hoff := Fits.not_unused (hq ▸ (hsound.slot q).fits)
    have hne : q ≠ p := by
      rintro rfl
      rw [hp] at hoff
      cases hoff
    have hq : Kept q .quiet (s.slot q) ((s.slot q).allocproc s.nextPid p) :=
      Kept.clear (by simp [exitCode, Slot.allocproc, hoff]) (by simp [waitRet, Slot.allocproc, hoff])
    exact (hs.quiet_goto hne hq rfl rfl).congr rfl
  | fork k p q hk hp =>
    have hne := (hsound.child p q (by rw [hp]; rfl)).1
    exact (hs.quiet_goto hne (Kept.clear rfl rfl) rfl rfl).congr rfl
  | forkDone k p q hk hp =>
    have hne := (hsound.child p q (by rw [hp]; rfl)).1
    exact hs.quiet_goto hne (Kept.same rfl rfl rfl id id) rfl rfl
  | @switch c k p hk hp =>
    refine (hs.quiet (p := p) ?_).congr rfl
    refine ⟨fun code hc => Or.inl ⟨?_, rfl, id⟩, fun ret hret => by cases hret⟩
    rw [← hc]
    cases c <;> simp [exitCode, hp]
  | back k p hk =>
    refine hs.nothing ?_
    split_ifs <;> rfl
  | unlock k p hk =>
    have hp : Kept p .quiet (s.slot p) { s.slot p with lock := none } := Kept.same rfl rfl rfl id id
    exact (hs.quiet hp).congr rfl
  | pop k p hk hq => exact hs.nothing rfl
  | lock k p hk hlock =>
    have hp : Kept p .quiet (s.slot p) { s.slot p with lock := some (.sched k) } :=
      Kept.same rfl rfl rfl id id
    exact (hs.quiet hp).congr rfl
  | dispatch k p hk hstate hp => exact (hs.quiet (p := p) (Kept.clear rfl rfl)).congr rfl
  | panic k p hk hstate => exact hs.nothing rfl
  | wakeup q hlock hw =>
    obtain ⟨h1, h2, h3⟩ := wakeup_same (s.slot q) .cons
    exact (hs.quiet (Kept.same h1 h2 h3 id id)).congr rfl

theorem ledger_start : Ledger [] (start : State n κ) := by
  refine ⟨fun q code h => ?_, fun p ret h => ?_⟩
  · unfold exitCode start at h
    by_cases hq : q = init_proc <;> simp [hq] at h
  · unfold start at h
    by_cases hp : p = init_proc <;> simp [hp, waitRet] at h

/-! ### Every run -/

theorem Family.alive (hs : Family s) (hsound : Sound s) (hp : (s.slot q).parent = some p)
    (hne : p ≠ init_proc) :
    (s.slot p).state = .runnable ∨ (s.slot p).state = .running ∨ (s.slot p).state = .sleeping := by
  have hmay := hs.parent q p hp hne
  have hfits := (hsound.slot p).fits
  unfold Fits at hfits
  split at hfits <;> simp_all [MayHave] <;> tauto

variable [DecidableEq κ]

theorem family_run (hrun : Run Step (start : State n κ) events s) : Family s := by
  have hinv := hrun.invariant (I := fun s => Sound s ∧ Family s) ⟨sound_start, family_start⟩
    fun _ _ _ hI hstep => ⟨hI.1.step hstep, hI.2.step hI.1 hstep⟩
  exact hinv.2

theorem ledger_run (hrun : Run Step (start : State n κ) events s) : Ledger events s := by
  induction hrun with
  | refl => exact ledger_start
  | tail hrun hstep ih => exact ih.next (sound_run hrun) hstep

/-- Who frees `q` is its parent and takes its pid and its code. -/
theorem Step.reap {pid code : ℤ} (hsound : Sound s) (h : Step s (.reap p q pid code) s') :
    (s.slot q).parent = some p ∧ (s.slot q).pid = pid ∧ exitCode (s.slot q) = some code ∧
      fromExitCode (s.slot q).exitCode = code ∧ (s'.slot p).pc = .waitRet pid := by
  cases h with
  | own k p hk h =>
    generalize s.waitLock = wl at h
    cases h
  | @visit pc t add _ k p₀ q₀ hk hlock h =>
    generalize hpc : (s.slot p₀).pc = pc₀ at h
    cases h with
    | reap hqp hparent hex =>
      have hdead := Local.dead (hsound.slot q) hlock hex.1
      refine ⟨hparent, rfl, by simp [exitCode, hdead], rfl, ?_⟩
      rw [State.goto, set_self]

theorem Step.ret {ret : ℤ} (h : Step s (.ret p ret) s') : (s.slot p).pc = .waitRet ret := by
  cases h with
  | own k p₀ hk h =>
    generalize s.waitLock = wl at h
    cases h with
    | waitRet hpc => exact hpc
  | visit k p₀ q₀ hk hlock h =>
    generalize (s.slot p₀).pc = pc₀ at h
    cases h

/-- **Parents and reaping.** A parent pointer is to a process that is alive, or to `init_proc`; a slot
that is not in use has no parent and no children. Whoever is reaped has called `exit` since it was
reaped the last time, in its present life; the reaper is its parent, takes its pid and its code, and
that pid is what its `wait` returns. The code is stored at the address that the reaper has given, and
nowhere else, exactly if the first byte is mapped and the four bytes are consecutive. -/
theorem parents_and_reaping (hrun : Run Step (start : State n κ) events s) :
    (∀ q p, (s.slot q).parent = some p → p = init_proc ∨ (s.slot p).state = .runnable ∨
      (s.slot p).state = .running ∨ (s.slot p).state = .sleeping) ∧
    (∀ p, (s.slot p).state = .unused → (s.slot p).parent = none ∧
      ∀ q, (s.slot q).parent ≠ some p) ∧
    (∀ p q pid code s', Step s (.reap p q pid code) s' → (s.slot q).parent = some p ∧
      LastExit events q pid code ∧ (s'.slot p).pc = .waitRet pid ∧
      (∀ L ptr, storeExitCode L ptr (s.slot q).exitCode = storeExitCode L ptr (toExitCode code)) ∧
      ∀ L m mm m' va, Waits L p m mm m' →
        ((∃ ptr m'', StoresCode L m m' mm va (toExitCode code) ptr m'') ↔ Consecutive m.mem mm va)) ∧
    ∀ p ret s', Step s (.ret p ret) s' → ret = -1 ∨ LastReap events p ret := by
  have hsound := sound_run hrun
  have hs := family_run hrun
  have hledger := ledger_run hrun
  refine ⟨fun q p hp => ?_, fun p hp => ⟨hs.orphan p (Or.inl hp), fun q hq => ?_⟩,
    fun p q pid code s' hstep => ?_, fun p ret s' hstep => ?_⟩
  · by_cases hne : p = init_proc
    · exact Or.inl hne
    · exact Or.inr (hs.alive hsound hp hne)
  · by_cases hne : p = init_proc
    · subst hne
      exact hs.init.2 (Fits.not_unused (hp ▸ (hsound.slot init_proc).fits))
    · have halive := hs.alive hsound hq hne
      rw [hp] at halive
      simp at halive
  · obtain ⟨hparent, rfl, hcode, rfl, hret⟩ := Step.reap hsound hstep
    refine ⟨hparent, (hledger.exit q _ hcode).1, hret, fun L ptr => ?_, fun L m mm m' va hw => ?_⟩
    · exact ExitCode.storeExitCode_congr L ptr (toExitCode_fromExitCode _)
    · exact hw.stored_iff va _
  · exact hledger.ret p ret (by rw [Step.ret hstep]; rfl)

/-- `wait` frees a child that has called `exit(code)`. -/
theorem step_reap {pid code : ℤ} {kids : Bool} {l : List (Fin (n + 1))} (k : κ)
    (hk : s.cpu k = .run p) (hpc : (s.slot p).pc = .waitScan (-1) kids (q :: l)) (hne : q ≠ p)
    (hlock : (s.slot q).lock = none) (hparent : (s.slot q).parent = some p)
    (hstate : (s.slot q).state = .zombie) (hpid : (s.slot q).pid = pid)
    (hcode : (s.slot q).exitCode = toExitCode code) (h : -2 ^ 31 ≤ code) (h' : code < 2 ^ 31) :
    ∃ s', Step s (.reap p q pid code) s' := by
  have hvisit : Visit p q (.waitScan (-1) kids (q :: l)) (s.slot q)
      (.reap p q (s.slot q).pid (fromExitCode (s.slot q).exitCode)) (.waitRet (s.slot q).pid)
      (s.slot q).freeproc false := .reap hne hparent ⟨hstate, Or.inl (by decide)⟩
  rw [← hpc, hpid, hcode, fromExitCode_toExitCode h h'] at hvisit
  exact ⟨_, .visit k p q hk hlock hvisit⟩

/-- `init_proc` forks and waits, the child exits with 7. -/
theorem exists_reap : ∃ (s : State 1 Bool) (events : List (Event 1)), Run Step start events s ∧
    ∃ s', Step s (.reap 0 1 2 7) s' := by
  have hstart : Run Step (start : State 1 Bool) [] start := Run.refl
  have hfork := hstart
    |>.tail (.pop false 0 rfl rfl) |>.tail (.lock false 0 rfl rfl) |>.tail (.dispatch false 0 rfl rfl rfl)
    |>.tail (.own false 0 rfl (.backFirst rfl)) |>.tail (.own false 0 rfl (.fork rfl))
    |>.tail (.visit false 0 0 rfl rfl (.forkScan (by decide))) |>.tail (.alloc false 0 1 rfl rfl rfl rfl)
    |>.tail (.own false 0 rfl (.forkLock rfl rfl)) |>.tail (.fork false 0 1 rfl rfl)
    |>.tail (.forkDone false 0 1 rfl rfl) |>.tail (.own false 0 rfl (.forkRet rfl))
  have hexit := hfork
    |>.tail (.pop true 1 rfl rfl) |>.tail (.lock true 1 rfl rfl) |>.tail (.dispatch true 1 rfl rfl rfl)
    |>.tail (.own true 1 rfl (.backFirst rfl)) |>.tail (.own true 1 rfl (.exit 7 rfl (by decide) (by decide)))
    |>.tail (.own true 1 rfl (.exitEnter rfl)) |>.tail (.visit true 1 0 rfl rfl .wakeup)
    |>.tail (.visit true 1 1 rfl rfl .wakeup) |>.tail (.own true 1 rfl (.exitLock rfl rfl))
    |>.tail (.visit true 1 0 rfl rfl (.reparent (by decide)))
    |>.tail (.own true 1 rfl (.reparentSkip rfl)) |>.tail (.own true 1 rfl (.zombie rfl))
    |>.tail (.own true 1 rfl (.exitDone rfl)) |>.tail (.switch true 1 rfl rfl)
    |>.tail (.back true 1 rfl) |>.tail (.unlock true 1 rfl)
  have hwait := hexit
    |>.tail (.own false 0 rfl (.wait (-1) rfl)) |>.tail (.own false 0 rfl (.waitEnter rfl))
    |>.tail (.own false 0 rfl (.scanSkip rfl))
  exact ⟨_, _, hwait, step_reap false rfl rfl (by decide) rfl rfl rfl rfl rfl (by decide) (by decide)⟩

/-- A parent with one page, at `0x1000`. -/
theorem exists_waits : ∃ (m : KState) (mm : Mm), Waits sampleLayout (0 : Fin 2) m mm m ∧
    Vm.UserCopy.Mapped m.mem mm 0x1000 ∧ ∀ e,
      ExitCode.sysWaitCode sampleLayout mm 0 m = .ok (Riscv.PA_TO_KVA 0) m ∧
      storeExitCode sampleLayout (Riscv.PA_TO_KVA 0) e m = .error .trapFromKernel m ∧
      ¬ ∃ ptr m'', StoresCode sampleLayout m m mm 0 e ptr m'' := by
  obtain ⟨m₀, m, mm, hfree, hlog, hlife, hlist⟩ := ExitCode.exists_waiter (0 : Fin 2)
  have hmm := Function.update_self (0 : Fin 2) (some mm) fun _ => none
  obtain ⟨A, hA, hall⟩ := Vm.Lives.lives_inv hfree hlog hlife
  have hi := hall 0 mm hmm
  have hmap : ∀ va, va / 4096 < Riscv.NVPN → (Vm.UserCopy.Mapped m.mem mm va ↔ va / 4096 = 1) := by
    intro va hva
    rw [Vm.UserCopy.mapped_iff_listed hA hi hva, hlist, List.mem_singleton]
  refine ⟨m, mm, ⟨m₀, _, _, _, hfree, hlog, hlife, hmm, .refl⟩, ?_, ?_⟩
  · exact (hmap 0x1000 (by decide)).mpr rfl
  · refine ExitCode.null_faults hA (.of_userMm hi) fun hc => ?_
    exact absurd ((hmap 0 (by decide)).mp hc) (by decide)

/-- `wait` gets the code 7 of the child, and stores it at `0x1000`. -/
theorem parents_and_reaping_sample : ∃ (s : State 1 Bool) (events : List (Event 1)) (m : KState)
    (mm : Mm), (s.slot 1).parent = some 0 ∧ LastExit events 1 2 7 ∧
    Waits sampleLayout (0 : Fin 2) m mm m ∧
    ∃ ptr m'', StoresCode sampleLayout m m mm 0x1000 (toExitCode 7) ptr m'' := by
  obtain ⟨s, events, hrun, s', hstep⟩ := exists_reap
  obtain ⟨-, -, hreap, -⟩ := parents_and_reaping hrun
  obtain ⟨hparent, hlast, -, -, hstore⟩ := hreap 0 1 2 7 s' hstep
  obtain ⟨m, mm, hw, hmap, -⟩ := exists_waits
  exact ⟨s, events, m, mm, hparent, hlast, hw, (hstore sampleLayout m mm m 0x1000 hw).mpr
    ⟨by decide, hmap, Or.inl (by decide)⟩⟩

/-- **The code is lost**: `init_proc` forks and waits with a null address, the child exits with 7. Its
parent is the one to reap it, but the store of the code is a kernel page fault. -/
theorem exit_code_lost : ∃ (s : State 1 Bool) (events : List (Event 1)) (m : KState) (mm : Mm),
    Run Step start events s ∧ (∃ s', Step s (.reap 0 1 2 7) s') ∧
    Waits sampleLayout (0 : Fin 2) m mm m ∧
    (∀ ptr, ExitCode.sysWaitCode sampleLayout mm 0 m = .ok ptr m →
      storeExitCode sampleLayout ptr (s.slot 1).exitCode m = .error .trapFromKernel m) ∧
    ¬ ∃ ptr m'', StoresCode sampleLayout m m mm 0 (s.slot 1).exitCode ptr m'' := by
  obtain ⟨s, events, hrun, hstep⟩ := exists_reap
  obtain ⟨m, mm, hw, -, hnull⟩ := exists_waits
  obtain ⟨hcode, hfault, hno⟩ := hnull (s.slot 1).exitCode
  refine ⟨s, events, m, mm, hrun, hstep, hw, fun ptr hptr => ?_, hno⟩
  rw [hcode] at hptr
  cases hptr
  exact hfault

end UCore.Proc.Parents

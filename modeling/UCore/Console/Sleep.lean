import UCore.Console.Input
import UCore.Proc.State
import Mathlib.Logic.Relation

/-! # Sleeping for input

`user_console_read`, `sleep`, `consintr` and `wakeup` step by step: every acquire, release and store that
the others can see is a step of its own, and the steps of any number of readers and of the handlers on
any number of CPUs interleave as they like. No input is missed (`no_missed_input`): a reader that dozes
off while input is committed is still ahead of the loop of some `wakeup`. -/

namespace UCore.Console.Sleep

open UCore.Console.Input UCore.Proc.State

variable {n : ℕ} {κ : Type}

/-! ### The system -/

/-- Who holds a lock. -/
inductive Owner (n : ℕ) (κ : Type)
  | proc (i : Fin n)
  /-- `consintr` on a CPU. -/
  | intr (k : κ)
  /-- The scheduler of some CPU. -/
  | sched
  /-- Code that is not modelled here: another `wakeup`, `wait`, `exit`, the copy to the user buffer. -/
  | other

/-- The values of `sleep_chan`. -/
inductive Chan
  | null
  | cons
  /-- The address of a process. -/
  | proc

/-- Where a process is, between `acquire(&cons.lock)` of `user_console_read` and its return. -/
inductive Pc
  /-- In other code. -/
  | outside
  /-- Before `acquire(&cons.lock)`, at the start of `user_console_read` or at the end of `sleep`. -/
  | enter (rd : Read)
  /-- At the head of the loop, with `cons.lock`. -/
  | loop (rd : Read)
  /-- In `sleep`, before `acquire(&p->lock)`. -/
  | sleep (rd : Read)
  /-- Before `release(lk)`, with both locks. -/
  | locked (rd : Read)
  /-- Before `p->sleep_chan = chan`. -/
  | released (rd : Read)
  /-- Before `p->state = SLEEPING`. -/
  | chanSet (rd : Read)
  /-- In `sched`, before the scheduler releases `p->lock`. -/
  | sched (rd : Read)
  /-- Switched away. -/
  | asleep (rd : Read)
  /-- `sched` has returned, with `p->lock`. -/
  | awake (rd : Read)
  /-- Before `release(&p->lock)`. -/
  | tidy (rd : Read)
  /-- After the loop, with `cons.lock`. -/
  | leave (rd : Read)

/-- Where the handler of a CPU is in `consintr`. -/
inductive Intr (n : ℕ)
  | idle
  /-- Before `acquire(&cons.lock)`. -/
  | enter (c : ℕ)
  /-- Before the `switch`. -/
  | body (c : ℕ)
  /-- In the loop of `wakeup`, before `acquire(&p->lock)` of the first of `l`, or after the loop. -/
  | wake (l : List (Fin n))
  /-- Before the test of `p`, with `p->lock`. -/
  | test (p : Fin n) (l : List (Fin n))
  /-- After the test. -/
  | tested (p : Fin n) (l : List (Fin n))

/-- What belongs to a process. -/
structure Thread (n : ℕ) (κ : Type) where
  pc : Pc
  state : ProcState
  sleepChan : Chan
  lock : Option (Owner n κ)

structure State (n : ℕ) (κ : Type) where
  cons : Cons
  lock : Option (Owner n κ)
  thread : Fin n → Thread n κ
  intr : κ → Intr n

/-- Where `readByte` leaves the reader. -/
def Pc.of : Reader → Pc
  | .loop rd => .loop rd
  | .leave rd => .leave rd
  | _ => .outside

/-- A step of the process `i`, or of the scheduler or other code on it, as a step of `cons`, `cons.lock`
and what belongs to `i`. -/
inductive Move (i : Fin n) : Cons → Option (Owner n κ) → Thread n κ →
    Cons → Option (Owner n κ) → Thread n κ → Prop
  | call {cons : Cons} {lk : Option (Owner n κ)} {t : Thread n κ} (rd : Read) : t.pc = .outside →
    Move i cons lk t cons lk { t with pc := .enter rd }
  | acquire {cons : Cons} {t : Thread n κ} {rd : Read} : t.pc = .enter rd →
    Move i cons none t cons (some (.proc i)) { t with pc := .loop rd }
  | take {cons cons' : Cons} {lk : Option (Owner n κ)} {t : Thread n κ} {rd : Read} {rdr : Reader}
    {event : Event (Fin n)} (copied : Bool) : t.pc = .loop rd → 0 < rd.n → cons.r ≠ cons.w →
    readByte i copied cons rd = (cons', rdr, event) →
    Move i cons lk t cons' lk { t with pc := .of rdr }
  | stop {cons : Cons} {lk : Option (Owner n κ)} {t : Thread n κ} {rd : Read} :
    t.pc = .loop rd → rd.n = 0 → Move i cons lk t cons lk { t with pc := .leave rd }
  | ret {cons : Cons} {lk : Option (Owner n κ)} {t : Thread n κ} {rd : Read} : t.pc = .leave rd →
    Move i cons lk t cons none { t with pc := .outside }
  | sleep {cons : Cons} {lk : Option (Owner n κ)} {t : Thread n κ} {rd : Read} :
    t.pc = .loop rd → 0 < rd.n → cons.r = cons.w →
    Move i cons lk t cons lk { t with pc := .sleep rd }
  | lockSelf {cons : Cons} {lk : Option (Owner n κ)} {t : Thread n κ} {rd : Read} :
    t.pc = .sleep rd → t.lock = none →
    Move i cons lk t cons lk { t with pc := .locked rd, lock := some (.proc i) }
  | release {cons : Cons} {lk : Option (Owner n κ)} {t : Thread n κ} {rd : Read} :
    t.pc = .locked rd → Move i cons lk t cons none { t with pc := .released rd }
  | setChan {cons : Cons} {lk : Option (Owner n κ)} {t : Thread n κ} {rd : Read} :
    t.pc = .released rd →
    Move i cons lk t cons lk { t with pc := .chanSet rd, sleepChan := .cons }
  | setState {cons : Cons} {lk : Option (Owner n κ)} {t : Thread n κ} {rd : Read} :
    t.pc = .chanSet rd →
    Move i cons lk t cons lk { t with pc := .sched rd, state := .sleeping }
  | switch {cons : Cons} {lk : Option (Owner n κ)} {t : Thread n κ} {rd : Read} :
    t.pc = .sched rd → Move i cons lk t cons lk { t with pc := .asleep rd, lock := none }
  | dispatch {cons : Cons} {lk : Option (Owner n κ)} {t : Thread n κ} {rd : Read} :
    t.pc = .asleep rd → t.state = .runnable → t.lock = none →
    Move i cons lk t cons lk { t with lock := some .sched }
  | resume {cons : Cons} {lk : Option (Owner n κ)} {t : Thread n κ} {rd : Read} :
    t.pc = .asleep rd → t.state = .runnable → t.lock = some .sched →
    Move i cons lk t cons lk
      { t with pc := .awake rd, state := .running, lock := some (.proc i) }
  | clearChan {cons : Cons} {lk : Option (Owner n κ)} {t : Thread n κ} {rd : Read} :
    t.pc = .awake rd → Move i cons lk t cons lk { t with pc := .tidy rd, sleepChan := .null }
  | unlockSelf {cons : Cons} {lk : Option (Owner n κ)} {t : Thread n κ} {rd : Read} :
    t.pc = .tidy rd → Move i cons lk t cons lk { t with pc := .enter rd, lock := none }
  /-- Other code takes `p->lock` for a while. -/
  | borrow {cons : Cons} {lk : Option (Owner n κ)} {t : Thread n κ} : t.lock = none →
    Move i cons lk t cons lk { t with lock := some .other }
  | giveBack {cons : Cons} {lk : Option (Owner n κ)} {t : Thread n κ} : t.lock = some .other →
    Move i cons lk t cons lk { t with lock := none }
  /-- What becomes of a process in other code; only `user_console_read` sleeps on `&cons`. -/
  | other {cons : Cons} {lk : Option (Owner n κ)} {t : Thread n κ} {state : ProcState} {chan : Chan} :
    t.pc = .outside → ¬ (state = .sleeping ∧ chan = .cons) →
    Move i cons lk t cons lk { t with state := state, sleepChan := chan }

/-- The test in `wakeup(&cons)`. -/
def Thread.wakeup (t : Thread n κ) : Thread n κ :=
  match t.state, t.sleepChan with
  | .sleeping, .cons => { t with state := .runnable }
  | _, _ => t

section

variable [DecidableEq κ]

inductive Step : State n κ → State n κ → Prop
  | proc {s : State n κ} {cons : Cons} {lk : Option (Owner n κ)} {t : Thread n κ} (i : Fin n) :
    Move i s.cons s.lock (s.thread i) cons lk t →
    Step s { s with cons := cons, lock := lk, thread := Function.update s.thread i t }
  | interrupt {s : State n κ} (k : κ) (c : ℕ) : s.intr k = .idle →
    Step s { s with intr := Function.update s.intr k (.enter c) }
  | lockCons {s : State n κ} {c : ℕ} (k : κ) : s.intr k = .enter c → s.lock = none →
    Step s { s with lock := some (.intr k), intr := Function.update s.intr k (.body c) }
  /-- The loop of `wakeup` is over `pool`. -/
  | input {s : State n κ} {c : ℕ} {cons : Cons} {woken : Bool} (k : κ) : s.intr k = .body c →
    consintr s.cons c = (cons, woken) →
    Step s { s with
      cons := cons
      intr := Function.update s.intr k (.wake (if woken then List.finRange n else [])) }
  | lockProc {s : State n κ} {p : Fin n} {l : List (Fin n)} (k : κ) : s.intr k = .wake (p :: l) →
    (s.thread p).lock = none →
    Step s { s with
      thread := Function.update s.thread p { s.thread p with lock := some (.intr k) }
      intr := Function.update s.intr k (.test p l) }
  | test {s : State n κ} {p : Fin n} {l : List (Fin n)} (k : κ) : s.intr k = .test p l →
    Step s { s with
      thread := Function.update s.thread p (s.thread p).wakeup
      intr := Function.update s.intr k (.tested p l) }
  | unlockProc {s : State n κ} {p : Fin n} {l : List (Fin n)} (k : κ) : s.intr k = .tested p l →
    Step s { s with
      thread := Function.update s.thread p { s.thread p with lock := none }
      intr := Function.update s.intr k (.wake l) }
  | unlockCons {s : State n κ} (k : κ) : s.intr k = .wake [] →
    Step s { s with lock := none, intr := Function.update s.intr k .idle }

end

/-- Nobody reads yet. -/
def start : State n κ :=
  ⟨⟨fun _ => 0, 0, 0, 0⟩, none, fun _ => ⟨.outside, .unused, .null, none⟩, fun _ => .idle⟩

/-! ### What each place knows -/

/-- The places with `cons.lock`. -/
def Pc.hasCons : Pc → Bool
  | .loop _ | .sleep _ | .locked _ | .leave _ => true
  | _ => false

/-- The places with `p->lock`. -/
def Pc.hasLock : Pc → Bool
  | .locked _ | .released _ | .chanSet _ | .sched _ | .awake _ | .tidy _ => true
  | _ => false

/-- The places where `sleep_chan` is set. -/
def Pc.hasChan : Pc → Bool
  | .chanSet _ | .sched _ | .asleep _ | .awake _ => true
  | _ => false

/-- The places after the test `cons.r == cons.w`, still with `cons.lock`. -/
def Pc.seesEmpty : Pc → Bool
  | .sleep _ | .locked _ => true
  | _ => false

/-- The places where a process can be found `SLEEPING` on `&cons`. -/
def Pc.slept : Pc → Bool
  | .chanSet _ | .sched _ | .asleep _ => true
  | _ => false

/-- Past `release(lk)`, and not woken yet. -/
def Thread.Dozing (t : Thread n κ) : Prop :=
  match t.pc with
  | .released _ | .chanSet _ => True
  | .sched _ | .asleep _ => t.state = .sleeping
  | _ => False

/-- Whether a handler has `cons.lock`. -/
def Intr.hasCons : Intr n → Bool
  | .idle | .enter _ => false
  | _ => true

/-- Whose lock a handler has. -/
def Intr.locked : Intr n → Option (Fin n)
  | .test p _ | .tested p _ => some p
  | _ => none

/-- Which processes the loop of `wakeup` has still ahead. -/
def Intr.ahead : Intr n → List (Fin n)
  | .wake l | .tested _ l => l
  | .test p l => p :: l
  | _ => []

/-- What belongs to the process `i` fits with the console. -/
structure Fits (i : Fin n) (cons : Cons) (lk : Option (Owner n κ)) (t : Thread n κ) : Prop where
  hasCons : t.pc.hasCons = true ↔ lk = some (.proc i)
  hasLock : t.pc.hasLock = true ↔ t.lock = some (.proc i)
  hasChan : t.pc.hasChan = true → t.sleepChan = .cons
  slept : t.state = .sleeping → t.sleepChan = .cons → t.pc.slept = true
  seesEmpty : t.pc.seesEmpty = true → cons.r = cons.w

/-- **The invariant.** -/
structure Inv (s : State n κ) : Prop where
  fits : ∀ i, Fits i s.cons s.lock (s.thread i)
  hasCons : ∀ k, (s.intr k).hasCons = true ↔ s.lock = some (.intr k)
  locked : ∀ k p, (s.intr k).locked = some p → (s.thread p).lock = some (.intr k)
  /-- A reader that dozes while input is committed is ahead of the loop of a `wakeup`. -/
  doze : ∀ i, (s.thread i).Dozing → s.cons.r = s.cons.w ∨ ∃ k, i ∈ (s.intr k).ahead

variable {i j : Fin n} {cons cons' : Cons} {lk lk' : Option (Owner n κ)} {t t' : Thread n κ}
  {s s' : State n κ}

/-! ### The steps of a process -/

/-- After a byte the reader is in its loop or behind it. -/
theorem readByte_reader {copied : Bool} {rd : Read} {rdr : Reader} {event : Event (Fin n)}
    (h : readByte i copied cons rd = (cons', rdr, event)) :
    ∃ rd', rdr = .loop rd' ∨ rdr = .leave rd' := by
  unfold readByte at h
  dsimp only at h
  split_ifs at h <;> obtain ⟨-, rfl, -⟩ := h
  · exact ⟨_, Or.inr rfl⟩
  · exact ⟨_, Or.inr rfl⟩
  · exact ⟨_, Or.inr rfl⟩
  · exact ⟨_, Or.inl rfl⟩
  · exact ⟨_, Or.inr rfl⟩

theorem Move.fits (h : Move i cons lk t cons' lk' t') (ht : Fits i cons lk t) :
    Fits i cons' lk' t' := by
  obtain ⟨hcons, hlock, hchan, hslept, hempty⟩ := ht
  cases h with
  | @take _ _ _ rd rdr event copied hpc hn hrw hread =>
    obtain ⟨rd', rfl | rfl⟩ := readByte_reader hread
    · constructor <;> simp_all [Pc.of, Pc.hasCons, Pc.hasLock, Pc.hasChan, Pc.seesEmpty, Pc.slept]
    · constructor <;> simp_all [Pc.of, Pc.hasCons, Pc.hasLock, Pc.hasChan, Pc.seesEmpty, Pc.slept]
  | _ => constructor <;> simp_all [Pc.hasCons, Pc.hasLock, Pc.hasChan, Pc.seesEmpty, Pc.slept]

/-- A process takes `cons.lock` when it is free, or gives it up when it has it. -/
theorem Move.lock (h : Move i cons lk t cons' lk' t') (ht : Fits i cons lk t) :
    lk' = lk ∨ lk = none ∧ lk' = some (.proc i) ∨ lk = some (.proc i) ∧ lk' = none := by
  have hcons := ht.hasCons
  cases h <;> simp_all [Pc.hasCons]

/-- A process changes the console only with its lock, and when there is input. -/
theorem Move.console (h : Move i cons lk t cons' lk' t') (ht : Fits i cons lk t) :
    cons' = cons ∨ lk = some (.proc i) ∧ cons.r ≠ cons.w := by
  have hcons := ht.hasCons
  cases h with
  | take copied hpc hn hrw hread => exact Or.inr ⟨hcons.mp (by rw [hpc]; rfl), hrw⟩
  | _ => exact Or.inl rfl

/-- The lock of the process stays with a handler that has it. -/
theorem Move.threadLock (h : Move i cons lk t cons' lk' t') (ht : Fits i cons lk t) {k : κ}
    (hk : t.lock = some (.intr k)) : t'.lock = some (.intr k) := by
  have hlock := ht.hasLock
  cases h <;> simp_all [Pc.hasLock]

/-- A process starts to doze when it finds nothing. -/
theorem Move.dozing (h : Move i cons lk t cons' lk' t') (ht : Fits i cons lk t)
    (hd : t'.Dozing) : t.Dozing ∨ cons'.r = cons'.w := by
  have hempty := ht.seesEmpty
  cases h with
  | @take _ _ _ rd rdr event copied hpc hn hrw hread =>
    obtain ⟨rd', rfl | rfl⟩ := readByte_reader hread <;> exact hd.elim
  | _ => simp_all [Thread.Dozing, Pc.seesEmpty]

/-- The lock of the others, and what they know, are not touched. -/
theorem Move.fits_other (h : Move i cons lk t cons' lk' t') (ht : Fits i cons lk t) {u : Thread n κ}
    (hj : j ≠ i) (hu : Fits j cons lk u) : Fits j cons' lk' u := by
  have hlk : lk' = some (.proc j) ↔ lk = some (.proc j) := by
    rcases h.lock ht with rfl | ⟨rfl, rfl⟩ | ⟨rfl, rfl⟩
    · rfl
    · simp [hj.symm]
    · simp [hj.symm]
  refine ⟨hu.hasCons.trans hlk.symm, hu.hasLock, hu.hasChan, hu.slept, fun he => ?_⟩
  rcases h.console ht with rfl | ⟨hown, hrw⟩
  · exact hu.seesEmpty he
  · exact absurd (hu.seesEmpty he) hrw

/-! ### The invariant holds -/

/-- A handler that still has somebody ahead has `cons.lock`. -/
theorem Intr.hasCons_of_ahead {intr : Intr n} (h : i ∈ intr.ahead) : intr.hasCons = true := by
  cases intr <;> first | rfl | cases h

theorem killLine_quiet (m : ℕ) (cons : Cons) :
    (killLine m cons).r = cons.r ∧ (killLine m cons).w = cons.w := by
  induction m generalizing cons with
  | zero => exact ⟨rfl, rfl⟩
  | succ m ih =>
    rw [killLine]
    split
    · exact ih _
    · exact ⟨rfl, rfl⟩

/-- Input that is not committed leaves `r` and `w`. -/
theorem consintr_quiet {c : ℕ} (h : consintr cons c = (cons', false)) :
    cons'.r = cons.r ∧ cons'.w = cons.w := by
  unfold consintr at h
  dsimp only at h
  split_ifs at h <;> cases h
  · exact ⟨rfl, rfl⟩
  · exact killLine_quiet _ _
  all_goals exact ⟨rfl, rfl⟩

/-- A woken process is not dozing. -/
theorem Fits.wakeup (h : Fits i cons lk t) (hlock : t.lock ≠ some (.proc i)) :
    Fits i cons lk t.wakeup ∧ ¬ t.wakeup.Dozing := by
  obtain ⟨hcons, hown, hchan, hslept, hempty⟩ := h
  have hpc : t.wakeup.pc = t.pc := by
    unfold Thread.wakeup
    split <;> rfl
  have hlk : t.wakeup.lock = t.lock := by
    unfold Thread.wakeup
    split <;> rfl
  have hch : t.wakeup.sleepChan = t.sleepChan := by
    unfold Thread.wakeup
    split <;> rfl
  have hst : t.wakeup.state = .sleeping → t.sleepChan ≠ .cons := by
    unfold Thread.wakeup
    split <;> simp_all
  refine ⟨⟨hpc ▸ hcons, ?_, ?_, fun h h' => ?_, hpc ▸ hempty⟩, fun hd => ?_⟩
  · rw [hpc, hlk]
    exact hown
  · rw [hpc, hch]
    exact hchan
  · rw [hch] at h'
    exact absurd h' (hst h)
  · unfold Thread.Dozing at hd
    rw [hpc] at hd
    have hno : t.pc.hasLock = false := by
      rw [Bool.eq_false_iff]
      exact fun h => hlock (hown.mp h)
    cases hp : t.pc <;> simp_all [Pc.hasLock, Pc.hasChan]

theorem Inv.proc (hs : Inv s) (h : Move i s.cons s.lock (s.thread i) cons lk t) :
    Inv { s with cons := cons, lock := lk, thread := Function.update s.thread i t } := by
  have hi := hs.fits i
  refine ⟨fun j => ?_, fun k => (hs.hasCons k).trans ?_, fun k p hp => ?_, fun j hd => ?_⟩
  · by_cases hj : j = i
    · subst hj
      simp only [Function.update_self]
      exact h.fits hi
    · simp only [Function.update_of_ne hj]
      exact h.fits_other hi hj (hs.fits j)
  · rcases h.lock hi with hlk | ⟨hold, hlk⟩ | ⟨hold, hlk⟩ <;> simp [*]
  · have hlocked := hs.locked k p hp
    by_cases hj : p = i
    · subst hj
      simp only [Function.update_self]
      exact h.threadLock hi hlocked
    · simp only [Function.update_of_ne hj]
      exact hlocked
  · -- whoever dozed before the reader took a byte would be ahead of a handler without the lock
    have hold : (s.thread j).Dozing ∨ cons.r = cons.w := by
      by_cases hj : j = i
      · subst hj
        simp only [Function.update_self] at hd
        exact h.dozing hi hd
      · simp only [Function.update_of_ne hj] at hd
        exact Or.inl hd
    rcases hold with hdz | hrw
    · rcases h.console hi with rfl | ⟨hown, hrw⟩
      · exact hs.doze j hdz
      · rcases hs.doze j hdz with he | ⟨k, hk⟩
        · exact absurd he hrw
        · have := (hs.hasCons k).mp (Intr.hasCons_of_ahead hk)
          rw [hown] at this
          cases this
    · exact Or.inl hrw

variable [DecidableEq κ]

/-- A step of the handler of `k`. -/
theorem Inv.handler (hs : Inv s) {k : κ} {intr : Intr n} {thread : Fin n → Thread n κ}
    (hfits : ∀ i, Fits i cons lk (thread i))
    (hhas : intr.hasCons = true ↔ lk = some (.intr k))
    (hlk : ∀ m, m ≠ k → (lk = some (.intr m) ↔ s.lock = some (.intr m)))
    (hlocked : ∀ p, intr.locked = some p → (thread p).lock = some (.intr k))
    (hlocks : ∀ m p, m ≠ k → (s.thread p).lock = some (.intr m) → (thread p).lock = some (.intr m))
    (hdoze : ∀ i, (thread i).Dozing →
      cons.r = cons.w ∨ i ∈ intr.ahead ∨ ∃ m, m ≠ k ∧ i ∈ (s.intr m).ahead) :
    Inv ⟨cons, lk, thread, Function.update s.intr k intr⟩ := by
  refine ⟨hfits, fun m => ?_, fun m p hp => ?_, fun i hd => ?_⟩
  · by_cases hm : m = k
    · subst hm
      simp only [Function.update_self]
      exact hhas
    · simp only [Function.update_of_ne hm]
      exact (hs.hasCons m).trans (hlk m hm).symm
  · by_cases hm : m = k
    · subst hm
      simp only [Function.update_self] at hp
      exact hlocked p hp
    · simp only [Function.update_of_ne hm] at hp
      exact hlocks m p hm (hs.locked m p hp)
  · rcases hdoze i hd with he | ha | ⟨m, hm, ha⟩
    · exact Or.inl he
    · exact Or.inr ⟨k, by simp only [Function.update_self]; exact ha⟩
    · exact Or.inr ⟨m, by simp only [Function.update_of_ne hm]; exact ha⟩

/-- Who dozes is ahead of the handler of `k`, or of another one. -/
theorem Inv.doze_cases (hs : Inv s) (k : κ) (hd : (s.thread i).Dozing) :
    s.cons.r = s.cons.w ∨ i ∈ (s.intr k).ahead ∨ ∃ m, m ≠ k ∧ i ∈ (s.intr m).ahead := by
  rcases hs.doze i hd with he | ⟨m, hm⟩
  · exact Or.inl he
  · by_cases hmk : m = k
    · exact Or.inr (Or.inl (hmk ▸ hm))
    · exact Or.inr (Or.inr ⟨m, hmk, hm⟩)

/-- A handler at a process `p`, whose lock it has or takes. -/
theorem Inv.visit (hs : Inv s) {k : κ} {intr : Intr n} {p : Fin n} (hfits : Fits p s.cons s.lock t)
    (hhas : intr.hasCons = true) (hold : (s.intr k).hasCons = true)
    (hlocked : ∀ q, intr.locked = some q → q = p ∧ t.lock = some (.intr k))
    (hp : (s.thread p).lock = none ∨ (s.thread p).lock = some (.intr k))
    (hd : t.Dozing → (s.thread p).Dozing) (hahead : ∀ i ∈ (s.intr k).ahead, i ∈ intr.ahead ∨
      i = p ∧ ¬ t.Dozing) :
    Inv ⟨s.cons, s.lock, Function.update s.thread p t, Function.update s.intr k intr⟩ := by
  refine hs.handler (fun j => ?_) ?_ (fun _ _ => Iff.rfl) (fun q hq => ?_) (fun m q hm hq => ?_)
    (fun j hj => ?_)
  · by_cases hjp : j = p
    · subst hjp
      rwa [Function.update_self]
    · rw [Function.update_of_ne hjp]
      exact hs.fits j
  · exact iff_of_true hhas ((hs.hasCons k).mp hold)
  · obtain ⟨rfl, hlk⟩ := hlocked q hq
    rwa [Function.update_self]
  · by_cases hqp : q = p
    · subst hqp
      rcases hp with h | h
      · rw [h] at hq
        cases hq
      · rw [h] at hq
        exact absurd (by simpa using hq.symm) hm
    · rwa [Function.update_of_ne hqp]
  · by_cases hjp : j = p
    · subst hjp
      rw [Function.update_self] at hj
      rcases hs.doze_cases k (hd hj) with he | ha | ha
      · exact Or.inl he
      · rcases hahead j ha with h | ⟨-, h⟩
        · exact Or.inr (Or.inl h)
        · exact absurd hj h
      · exact Or.inr (Or.inr ha)
    · rw [Function.update_of_ne hjp] at hj
      rcases hs.doze_cases k hj with he | ha | ha
      · exact Or.inl he
      · rcases hahead j ha with h | ⟨h, -⟩
        · exact Or.inr (Or.inl h)
        · exact absurd h hjp
      · exact Or.inr (Or.inr ha)

theorem Inv.step (hs : Inv s) (h : Step s s') : Inv s' := by
  cases h with
  | proc i h => exact hs.proc h
  | interrupt k c hk =>
    have hhas : (Intr.enter c : Intr n).hasCons = true ↔ s.lock = some (.intr k) := by
      rw [← hs.hasCons k, hk]
      exact Iff.rfl
    refine hs.handler hs.fits hhas (fun _ _ => Iff.rfl) (fun p hp => by cases hp)
      (fun _ _ _ h => h) fun i hd => ?_
    have := hs.doze_cases k hd
    rwa [hk] at this
  | @lockCons c k hk hfree =>
    refine hs.handler (fun i => ?_) (by simp [Intr.hasCons]) (fun m hm => ?_)
      (fun p hp => by cases hp) (fun _ _ _ h => h) fun i hd => ?_
    · have hi := hs.fits i
      exact ⟨by simp [hi.hasCons, hfree], hi.hasLock, hi.hasChan, hi.slept, hi.seesEmpty⟩
    · simp [hfree, hm.symm]
    · have := hs.doze_cases k hd
      rwa [hk] at this
  | @input c cons woken k hk hin =>
    have hlock := (hs.hasCons k).mp (by rw [hk]; rfl)
    refine hs.handler (fun i => ?_) (by simp [Intr.hasCons, hlock]) (fun _ _ => Iff.rfl)
      (fun p hp => by cases hp) (fun _ _ _ h => h) fun i hd => ?_
    · have hi := hs.fits i
      refine ⟨hi.hasCons, hi.hasLock, hi.hasChan, hi.slept, fun he => ?_⟩
      -- whoever sees the console empty has its lock
      have hown : (s.thread i).pc.hasCons = true := by
        cases hpc : (s.thread i).pc <;> simp_all [Pc.seesEmpty, Pc.hasCons]
      rw [hi.hasCons, hlock] at hown
      cases hown
    · cases woken with
      | true => exact Or.inr (Or.inl (List.mem_finRange i))
      | false =>
        obtain ⟨hr, hw⟩ := consintr_quiet hin
        have := hs.doze_cases k hd
        rw [hk] at this
        rwa [hr, hw]
  | @lockProc p l k hk hfree =>
    have hp := hs.fits p
    refine hs.visit ⟨hp.hasCons, ?_, hp.hasChan, hp.slept, hp.seesEmpty⟩ rfl (by rw [hk]; rfl)
      (fun q hq => ?_) (Or.inl hfree) id (fun i hi => Or.inl ?_)
    · rw [hp.hasLock, hfree]
      simp
    · obtain rfl := Option.some.inj hq
      exact ⟨rfl, rfl⟩
    · rwa [hk] at hi
  | @test p l k hk =>
    have hlock := hs.locked k p (by rw [hk]; rfl)
    obtain ⟨hfits, hd⟩ := (hs.fits p).wakeup (by rw [hlock]; simp)
    refine hs.visit hfits rfl (by rw [hk]; rfl) (fun q hq => ?_) (Or.inr hlock)
      (fun h => absurd h hd) (fun i hi => ?_)
    · obtain rfl := Option.some.inj hq
      refine ⟨rfl, ?_⟩
      rw [← hlock]
      unfold Thread.wakeup
      split <;> rfl
    · rw [hk] at hi
      rcases List.mem_cons.mp hi with rfl | hi
      · exact Or.inr ⟨rfl, hd⟩
      · exact Or.inl hi
  | @unlockProc p l k hk =>
    have hlock := hs.locked k p (by rw [hk]; rfl)
    have hp := hs.fits p
    refine hs.visit ⟨hp.hasCons, ?_, hp.hasChan, hp.slept, hp.seesEmpty⟩ rfl (by rw [hk]; rfl)
      (fun q hq => by cases hq) (Or.inr hlock) id (fun i hi => Or.inl ?_)
    · rw [hp.hasLock, hlock]
      simp
    · rwa [hk] at hi
  | unlockCons k hk =>
    have hlock := (hs.hasCons k).mp (by rw [hk]; rfl)
    refine hs.handler (fun i => ?_) (by simp [Intr.hasCons]) (fun m hm => ?_)
      (fun p hp => by cases hp) (fun _ _ _ h => h) fun i hd => ?_
    · have hi := hs.fits i
      exact ⟨by simp [hi.hasCons, hlock], hi.hasLock, hi.hasChan, hi.slept, hi.seesEmpty⟩
    · simp [hlock, hm.symm]
    · have := hs.doze_cases k hd
      rwa [hk] at this

omit [DecidableEq κ] in
theorem inv_start : Inv (start : State n κ) := by
  refine ⟨fun _ => ⟨?_, ?_, ?_, ?_, ?_⟩, fun _ => ?_, fun _ _ h => ?_, fun _ h => h.elim⟩
  · simp [start, Pc.hasCons]
  · simp [start, Pc.hasLock]
  · simp [start, Pc.hasChan]
  · simp [start]
  · simp [start]
  · simp [start, Intr.hasCons]
  · cases h

theorem inv_run (h : Relation.ReflTransGen Step start s) : Inv s := by
  induction h with
  | refl => exact inv_start
  | tail _ hstep ih => exact ih.step hstep

/-- **No input is missed.** When `cons.lock` is free and there is committed input, nobody sleeps on
`&cons`. -/
theorem no_missed_input (hrun : Relation.ReflTransGen Step start s) (hfree : s.lock = none)
    (hinput : s.cons.r ≠ s.cons.w) (i : Fin n) :
    ¬ ((s.thread i).state = .sleeping ∧ (s.thread i).sleepChan = .cons) := by
  rintro ⟨hstate, hchan⟩
  have hs := inv_run hrun
  have hslept := (hs.fits i).slept hstate hchan
  have hd : (s.thread i).Dozing := by
    unfold Thread.Dozing
    cases hpc : (s.thread i).pc <;> simp_all [Pc.slept]
  rcases hs.doze i hd with he | ⟨k, hk⟩
  · exact hinput he
  · have := (hs.hasCons k).mp (Intr.hasCons_of_ahead hk)
    rw [hfree] at this
    cases this

/-- A line is committed after the reader has given up `cons.lock`, before it sleeps. -/
theorem no_missed_input_sample : ∃ s : State 1 Unit, Relation.ReflTransGen Step start s ∧
    s.cons.r ≠ s.cons.w ∧ ¬ ((s.thread 0).state = .sleeping ∧ (s.thread 0).sleepChan = .cons) := by
  have hrun := (Relation.ReflTransGen.refl (r := Step) (a := (start : State 1 Unit)))
    |>.tail (.proc 0 (.call ⟨0, 1, 1⟩ rfl)) |>.tail (.proc 0 (.acquire rfl))
    |>.tail (.proc 0 (.sleep rfl (by decide) rfl)) |>.tail (.proc 0 (.lockSelf rfl rfl))
    |>.tail (.proc 0 (.release rfl)) |>.tail (.interrupt () LF rfl) |>.tail (.lockCons () rfl rfl)
    |>.tail (.input () rfl rfl) |>.tail (.proc 0 (.setChan rfl)) |>.tail (.proc 0 (.setState rfl))
    |>.tail (.proc 0 (.switch rfl)) |>.tail (.lockProc () rfl rfl) |>.tail (.test () rfl)
    |>.tail (.unlockProc () rfl) |>.tail (.unlockCons () rfl)
  exact ⟨_, hrun, by decide, no_missed_input hrun rfl (by decide) 0⟩

end UCore.Console.Sleep

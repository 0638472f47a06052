import UCore.Lib.Runs
import UCore.Proc.State
import Mathlib.Data.List.FinRange
import Mathlib.Logic.Function.Basic

/-! # The process table

`proc.c` and `sched.c` by their lock-protected sections. A slot of `pool` has the fields that other
processes look at, its lock, and the place where its kernel thread is; a CPU is in its scheduler or runs
a process. A step is the part of a function from one acquire or release to the next. Loops over `pool`
take one step for each slot. The address spaces and the console are left out: `exec` is what it does to
the state, and sleeping on `&cons` stands for all of `user_console_read`. -/

namespace UCore.Proc.Table

open UCore.Proc.State

/-! ### States -/

/-- The values of `sleep_chan`. -/
inductive Chan (n : ℕ)
  | null
  | cons
  | proc (p : Fin (n + 1))
  deriving DecidableEq

/-- Who holds a `p->lock`: a process, or the scheduler of a CPU. -/
inductive Owner (n : ℕ) (κ : Type)
  | proc (p : Fin (n + 1))
  | sched (k : κ)

/-- From where `sched` is called; `first` is `first_sched_ret`. -/
inductive Caller
  | first
  | yield
  /-- `sleep(&cons, &cons.lock)`. -/
  | read
  /-- `sleep(p, &wait_lock)` of `wait(pid)`. -/
  | wait (pid : ℤ)
  | exit

/-- Where a kernel thread is. -/
inductive Pc (n : ℕ)
  /-- The slot has none. -/
  | off
  /-- In user mode, or outside of the functions below. -/
  | user
  /-- In the loop of `allocproc`, called by `fork`, with `l` ahead. -/
  | forkScan (l : List (Fin (n + 1)))
  /-- In `fork`, before `acquire(&p->lock)`, with `np->lock`. -/
  | forkLock (np : Fin (n + 1))
  /-- Before `mm_copy`, with both locks. -/
  | forkCopy (np : Fin (n + 1))
  /-- Before `release(&np->lock)`. -/
  | forkDone (np : Fin (n + 1))
  /-- Before `release(&p->lock)`. -/
  | forkRet
  /-- In `exit`, before `acquire(&wait_lock)`. -/
  | exitEnter (code : ℤ)
  /-- In the loop of `wakeup(p->parent)`. -/
  | exitWake (code : ℤ) (chan : Chan n) (l : List (Fin (n + 1)))
  /-- In the loop that changes the parents, with `p->lock`. -/
  | reparent (code : ℤ) (l : List (Fin (n + 1)))
  /-- Before `release(&wait_lock)`. -/
  | exitDone
  /-- In `wait`, before `acquire(&wait_lock)`, its own or that of `sleep`. -/
  | waitEnter (pid : ℤ)
  /-- In the loop over the children. -/
  | waitScan (pid : ℤ) (havekids : Bool) (l : List (Fin (n + 1)))
  /-- In `sleep`, before `release(lk)`, with `p->lock`. -/
  | waitLocked (pid : ℤ)
  /-- Before `p->sleep_chan = chan`. -/
  | waitSet (pid : ℤ)
  /-- Before the last `release(&wait_lock)`. -/
  | waitRet (ret : ℤ)
  /-- In `sched`, before the switch, with `p->lock`. -/
  | sched (c : Caller)
  /-- Switched away. -/
  | parked (c : Caller)
  /-- `sched` has returned, with `p->lock`. -/
  | back (c : Caller)

structure Slot (n : ℕ) (κ : Type) where
  state : ProcState
  pid : ℤ
  exitCode : ℕ
  sleepChan : Chan n
  killed : Bool
  parent : Option (Fin (n + 1))
  lock : Option (Owner n κ)
  pc : Pc n

/-- Where a CPU is. -/
inductive Cpu (n : ℕ)
  /-- At the head of the loop of `scheduler`. -/
  | loop
  /-- Before `acquire(&p->lock)`. -/
  | popped (p : Fin (n + 1))
  /-- Before `assert(p->state == RUNNABLE)`. -/
  | locked (p : Fin (n + 1))
  /-- The thread of `p` runs. -/
  | run (p : Fin (n + 1))
  /-- The switch back to the scheduler is done. -/
  | back (p : Fin (n + 1))
  /-- Before `release(&p->lock)`. -/
  | unlock (p : Fin (n + 1))
  /-- The assertion has failed. -/
  | panicked

/-- `c->proc`. -/
def Cpu.proc {n : ℕ} : Cpu n → Option (Fin (n + 1))
  | .run p | .back p => some p
  | _ => none

structure State (n : ℕ) (κ : Type) where
  slot : Fin (n + 1) → Slot n κ
  cpu : κ → Cpu n
  queue : List (Fin (n + 1))
  waitLock : Option (Fin (n + 1))
  /-- `static int PID` of `allocpid`. -/
  nextPid : ℤ

def init_proc {n : ℕ} : Fin (n + 1) := 0

/-- What can be seen of a step. -/
inductive Event (n : ℕ)
  /-- The process `p`, of this pid, calls `exit(code)`. -/
  | exit (p : Fin (n + 1)) (pid code : ℤ)
  /-- In `wait`, `p` frees its child: the pid and the code it finds. -/
  | reap (p child : Fin (n + 1)) (pid code : ℤ)
  /-- `wait` returns. -/
  | ret (p : Fin (n + 1)) (ret : ℤ)
  | quiet

variable {n : ℕ} {κ : Type}

/-! ### The code -/

/-- `(uint64)code` and `(int)exit_code`. -/
def toExitCode (code : ℤ) : ℕ := (code % 2 ^ 64).toNat
def fromExitCode (exitCode : ℕ) : ℤ := Int.bmod exitCode (2 ^ 32)

/-- The test in `wakeup(chan)`, and whether it succeeds. -/
def Slot.wakeup (t : Slot n κ) (chan : Chan n) : Slot n κ × Bool :=
  if t.state = .sleeping ∧ t.sleepChan = chan then ({ t with state := .runnable }, true)
  else (t, false)

/-- `allocproc`, for the slot it has found. -/
def Slot.allocproc (t : Slot n κ) (pid : ℤ) (p : Fin (n + 1)) : Slot n κ :=
  { t with state := .used, pid := pid, parent := none, exitCode := 0, lock := some (.proc p) }

def Slot.freeproc (t : Slot n κ) : Slot n κ :=
  { t with
    state := .unused, pid := -1, exitCode := 0xdeadbeef, sleepChan := .null, killed := false
    parent := none, pc := .off }

/-- The condition on a child in `wait(pid)`. -/
def Slot.exited (t : Slot n κ) (pid : ℤ) : Prop := t.state = .zombie ∧ (pid ≤ 0 ∨ t.pid = pid)

/-- A step of the process `p` that touches only its own slot and `wait_lock`. -/
inductive Own (p : Fin (n + 1)) : Option (Fin (n + 1)) → Slot n κ → Event n →
    Option (Fin (n + 1)) → Slot n κ → Prop
  | fork {wl : Option (Fin (n + 1))} {t : Slot n κ} : t.pc = .user →
    Own p wl t .quiet wl { t with pc := .forkScan (List.finRange _) }
  | forkLock {wl : Option (Fin (n + 1))} {t : Slot n κ} {np : Fin (n + 1)} :
    t.pc = .forkLock np → t.lock = none →
    Own p wl t .quiet wl { t with pc := .forkCopy np, lock := some (.proc p) }
  | forkRet {wl : Option (Fin (n + 1))} {t : Slot n κ} : t.pc = .forkRet →
    Own p wl t .quiet wl { t with pc := .user, lock := none }
  /-- `load_user_elf` sets the state. -/
  | exec {wl : Option (Fin (n + 1))} {t : Slot n κ} : t.pc = .user → t.lock = none →
    Own p wl t .quiet wl { t with state := .runnable }
  | yield {wl : Option (Fin (n + 1))} {t : Slot n κ} : t.pc = .user → t.lock = none →
    Own p wl t .quiet wl
      { t with pc := .sched .yield, state := .runnable, lock := some (.proc p) }
  | read {wl : Option (Fin (n + 1))} {t : Slot n κ} : t.pc = .user → t.lock = none →
    Own p wl t .quiet wl
      { t with pc := .sched .read, state := .sleeping, sleepChan := .cons, lock := some (.proc p) }
  | exit {wl : Option (Fin (n + 1))} {t : Slot n κ} (code : ℤ) : t.pc = .user →
    -2 ^ 31 ≤ code → code < 2 ^ 31 →
    Own p wl t (.exit p t.pid code) wl { t with pc := .exitEnter code }
  | exitEnter {t : Slot n κ} {code : ℤ} : t.pc = .exitEnter code →
    Own p none t .quiet (some p) { t with
      pc := .exitWake code (t.parent.elim .null .proc) (List.finRange _) }
  | exitLock {wl : Option (Fin (n + 1))} {t : Slot n κ} {code : ℤ} {chan : Chan n} :
    t.pc = .exitWake code chan [] → t.lock = none →
    Own p wl t .quiet wl
      { t with pc := .reparent code (List.finRange _), lock := some (.proc p) }
  | reparentSkip {wl : Option (Fin (n + 1))} {t : Slot n κ} {code : ℤ} {l : List (Fin (n + 1))} :
    t.pc = .reparent code (p :: l) → Own p wl t .quiet wl { t with pc := .reparent code l }
  | zombie {wl : Option (Fin (n + 1))} {t : Slot n κ} {code : ℤ} : t.pc = .reparent code [] →
    Own p wl t .quiet wl
      { t with pc := .exitDone, exitCode := toExitCode code, state := .zombie }
  | exitDone {wl : Option (Fin (n + 1))} {t : Slot n κ} : t.pc = .exitDone →
    Own p wl t .quiet none { t with pc := .sched .exit }
  | wait {wl : Option (Fin (n + 1))} {t : Slot n κ} (pid : ℤ) : t.pc = .user →
    Own p wl t .quiet wl { t with pc := .waitEnter pid }
  | waitEnter {t : Slot n κ} {pid : ℤ} : t.pc = .waitEnter pid →
    Own p none t .quiet (some p) { t with pc := .waitScan pid false (List.finRange _) }
  | scanSkip {wl : Option (Fin (n + 1))} {t : Slot n κ} {pid : ℤ} {kids : Bool}
    {l : List (Fin (n + 1))} : t.pc = .waitScan pid kids (p :: l) →
    Own p wl t .quiet wl { t with pc := .waitScan pid kids l }
  | noKids {wl : Option (Fin (n + 1))} {t : Slot n κ} {pid : ℤ} {kids : Bool} :
    t.pc = .waitScan pid kids [] → kids = false ∨ t.killed = true →
    Own p wl t .quiet wl { t with pc := .waitRet (-1) }
  | waitLock {wl : Option (Fin (n + 1))} {t : Slot n κ} {pid : ℤ} :
    t.pc = .waitScan pid true [] → t.killed = false → t.lock = none →
    Own p wl t .quiet wl { t with pc := .waitLocked pid, lock := some (.proc p) }
  | waitRelease {wl : Option (Fin (n + 1))} {t : Slot n κ} {pid : ℤ} : t.pc = .waitLocked pid →
    Own p wl t .quiet none { t with pc := .waitSet pid }
  | waitSet {wl : Option (Fin (n + 1))} {t : Slot n κ} {pid : ℤ} : t.pc = .waitSet pid →
    Own p wl t .quiet wl
      { t with pc := .sched (.wait pid), sleepChan := .proc p, state := .sleeping }
  | waitRet {wl : Option (Fin (n + 1))} {t : Slot n κ} {ret : ℤ} : t.pc = .waitRet ret →
    Own p wl t (.ret p ret) none { t with pc := .user }
  | backFirst {wl : Option (Fin (n + 1))} {t : Slot n κ} : t.pc = .back .first →
    Own p wl t .quiet wl { t with pc := .user, lock := none }
  | backYield {wl : Option (Fin (n + 1))} {t : Slot n κ} : t.pc = .back .yield →
    Own p wl t .quiet wl { t with pc := .user, lock := none }
  | backRead {wl : Option (Fin (n + 1))} {t : Slot n κ} : t.pc = .back .read →
    Own p wl t .quiet wl { t with pc := .user, sleepChan := .null, lock := none }
  | backWait {wl : Option (Fin (n + 1))} {t : Slot n κ} {pid : ℤ} : t.pc = .back (.wait pid) →
    Own p wl t .quiet wl { t with pc := .waitEnter pid, sleepChan := .null, lock := none }

/-- What the process `p` does at a slot `q` whose lock it takes for this; the last argument is whether
it calls `add_task(q)`. -/
inductive Visit (p q : Fin (n + 1)) : Pc n → Slot n κ → Event n → Pc n → Slot n κ → Bool → Prop
  | forkScan {t : Slot n κ} {l : List (Fin (n + 1))} : t.state ≠ .unused →
    Visit p q (.forkScan (q :: l)) t .quiet (.forkScan l) t false
  | wakeup {t : Slot n κ} {code : ℤ} {chan : Chan n} {l : List (Fin (n + 1))} :
    Visit p q (.exitWake code chan (q :: l)) t .quiet (.exitWake code chan l)
      (t.wakeup chan).1 (t.wakeup chan).2
  | reparent {t : Slot n κ} {code : ℤ} {l : List (Fin (n + 1))} : q ≠ p →
    Visit p q (.reparent code (q :: l)) t .quiet (.reparent code l)
      (if t.parent = some p then { t with parent := some init_proc } else t) false
  | scan {t : Slot n κ} {pid : ℤ} {kids : Bool} {l : List (Fin (n + 1))} : q ≠ p →
    ¬ (t.parent = some p ∧ t.exited pid) →
    Visit p q (.waitScan pid kids (q :: l)) t .quiet
      (.waitScan pid (kids || decide (t.parent = some p)) l) t false
  | reap {t : Slot n κ} {pid : ℤ} {kids : Bool} {l : List (Fin (n + 1))} : q ≠ p →
    t.parent = some p → t.exited pid →
    Visit p q (.waitScan pid kids (q :: l)) t (.reap p q t.pid (fromExitCode t.exitCode))
      (.waitRet t.pid) t.freeproc false

/-! ### The system -/

section

variable [DecidableEq κ]

/-- The slot `p` changes. -/
def State.set (s : State n κ) (p : Fin (n + 1)) (t : Slot n κ) : State n κ :=
  { s with slot := Function.update s.slot p t }

/-- The thread of `p` moves on. -/
def State.goto (s : State n κ) (p : Fin (n + 1)) (pc : Pc n) : State n κ :=
  s.set p { s.slot p with pc := pc }

/-- `add_task(p)`. -/
def State.addTask (s : State n κ) (p : Fin (n + 1)) : State n κ := { s with queue := s.queue ++ [p] }

/-- The CPU `k` moves on. -/
def State.setCpu (s : State n κ) (k : κ) (c : Cpu n) : State n κ :=
  { s with cpu := Function.update s.cpu k c }

inductive Step : State n κ → Event n → State n κ → Prop
  | own {s : State n κ} {wl : Option (Fin (n + 1))} {t : Slot n κ} {event : Event n} (k : κ)
    (p : Fin (n + 1)) : s.cpu k = .run p → Own p s.waitLock (s.slot p) event wl t →
    Step s event { s.set p t with waitLock := wl }
  | visit {s : State n κ} {pc : Pc n} {t : Slot n κ} {add : Bool} {event : Event n} (k : κ)
    (p q : Fin (n + 1)) : s.cpu k = .run p → (s.slot q).lock = none →
    Visit p q (s.slot p).pc (s.slot q) event pc t add →
    Step s event (((if add then s.addTask q else s).set q t).goto p pc)
  /-- `allocproc` finds the slot `q`. -/
  | alloc {s : State n κ} {l : List (Fin (n + 1))} (k : κ) (p q : Fin (n + 1)) :
    s.cpu k = .run p → (s.slot p).pc = .forkScan (q :: l) → (s.slot q).lock = none →
    (s.slot q).state = .unused →
    Step s .quiet { (s.set q ((s.slot q).allocproc s.nextPid p)).goto p (.forkLock q) with
      nextPid := Int.bmod (s.nextPid + 1) (2 ^ 32) }
  /-- `fork` makes the child `RUNNABLE`. -/
  | fork {s : State n κ} (k : κ) (p q : Fin (n + 1)) : s.cpu k = .run p →
    (s.slot p).pc = .forkCopy q →
    Step s .quiet (((s.set q { s.slot q with
      parent := some p, state := .runnable, pc := .parked .first }).addTask q).goto p
        (.forkDone q))
  | forkDone {s : State n κ} (k : κ) (p q : Fin (n + 1)) : s.cpu k = .run p →
    (s.slot p).pc = .forkDone q →
    Step s .quiet ((s.set q { s.slot q with lock := none }).goto p .forkRet)
  /-- The switch to the scheduler. -/
  | switch {s : State n κ} {c : Caller} (k : κ) (p : Fin (n + 1)) : s.cpu k = .run p →
    (s.slot p).pc = .sched c →
    Step s .quiet ((s.set p { s.slot p with pc := .parked c, lock := some (.sched k) }).setCpu k
      (.back p))
  | back {s : State n κ} (k : κ) (p : Fin (n + 1)) : s.cpu k = .back p →
    Step s .quiet
      ((if (s.slot p).state = .runnable then s.addTask p else s).setCpu k (.unlock p))
  | unlock {s : State n κ} (k : κ) (p : Fin (n + 1)) : s.cpu k = .unlock p →
    Step s .quiet ((s.set p { s.slot p with lock := none }).setCpu k .loop)
  /-- `fetch_task`. -/
  | pop {s : State n κ} {l : List (Fin (n + 1))} (k : κ) (p : Fin (n + 1)) : s.cpu k = .loop →
    s.queue = p :: l → Step s .quiet ({ s with queue := l }.setCpu k (.popped p))
  | lock {s : State n κ} (k : κ) (p : Fin (n + 1)) : s.cpu k = .popped p →
    (s.slot p).lock = none →
    Step s .quiet ((s.set p { s.slot p with lock := some (.sched k) }).setCpu k (.locked p))
  /-- The switch to the process. -/
  | dispatch {s : State n κ} {c : Caller} (k : κ) (p : Fin (n + 1)) : s.cpu k = .locked p →
    (s.slot p).state = .runnable → (s.slot p).pc = .parked c →
    Step s .quiet ((s.set p { s.slot p with
      state := .running, pc := .back c, lock := some (.proc p) }).setCpu k (.run p))
  | panic {s : State n κ} (k : κ) (p : Fin (n + 1)) : s.cpu k = .locked p →
    (s.slot p).state ≠ .runnable → Step s .quiet (s.setCpu k .panicked)
  /-- `wakeup(&cons)` of a handler, at the slot `q`. -/
  | wakeup {s : State n κ} (q : Fin (n + 1)) : (s.slot q).lock = none →
    ((s.slot q).wakeup .cons).2 = true →
    Step s .quiet ((s.addTask q).set q ((s.slot q).wakeup .cons).1)

end

/-- After `load_init_app`. -/
def start : State n κ where
  slot p := ⟨if p = init_proc then .runnable else .unused, if p = init_proc then 1 else 0, 0, .null,
    false, none, none, if p = init_proc then .parked .first else .off⟩
  cpu _ := .loop
  queue := [init_proc]
  waitLock := none
  nextPid := 2

end UCore.Proc.Table

import UCore.Proc.State
import Mathlib.Data.List.FinRange

/-! # Kernel threads: the code

What a kernel thread does to locks, to the interrupt flags of its CPU, to `p->state` and to the run
queue, as a list of statements: its continuation, with the functions it is in. The data left out makes
branches nondeterministic (`either`, `loop`); a test on `p->state` is one (`ifState`). Prints are those
of the log level in `log.h`. `print_lock` of `printf` is not a `spinlock_t` and is left out; nothing is
taken under it. -/

namespace UCore.Thread.Code

open UCore.Proc.State

variable {n : ℕ}

/-! ### Statements -/

/-- The allocators in use after boot. -/
inductive Allocator
  | mm
  | vma
  deriving DecidableEq

inductive Lock (n : ℕ)
  /-- `wait_lock`. -/
  | wait
  /-- `pid_lock`. -/
  | pid
  /-- The lock of `pool[p]`. -/
  | proc (p : Fin (n + 1))
  /-- The lock of `pool[p]->mm`. -/
  | mm (p : Fin (n + 1))
  | cons
  | allocator (a : Allocator)
  /-- `kpagelock`. -/
  | page
  /-- The lock of `task_queue`. -/
  | queue
  deriving DecidableEq

/-- The checks on locks, interrupts and switches, by the function that has them and what they say. -/
inductive Panic
  /-- `acquire`: "already acquired". -/
  | acquire
  /-- `release`: "release". -/
  | release
  /-- `pop_off - interruptible`. -/
  | popOffInterruptible
  /-- `pop_off - unpair`. -/
  | popOffUnpair
  /-- `pop_off->intr_on happens in kernel trap`. -/
  | popOffTrap
  /-- `sched`: "not holding p->lock". -/
  | schedNotHolding
  /-- "holding another locks". -/
  | schedAnotherLock
  /-- "sched running process". -/
  | schedRunning
  /-- "sched should never be called in kernel trap context." -/
  | schedTrap
  /-- `assert(!intr_get())`. -/
  | schedIntr
  /-- "not holding p->lock after sched.swtch returns". -/
  | schedReturn
  /-- `scheduler`: `assert(p->state == RUNNABLE)`. -/
  | schedulerState
  /-- `assert(c->proc == p)`. -/
  | schedulerProc
  /-- `assert(!intr_get())`. -/
  | schedulerIntr
  /-- `assert(holding(&p->lock))`. -/
  | schedulerHolding
  /-- `allocproc`: `assert(holding(&p->lock))`. -/
  | allocproc
  /-- `freeproc`: `assert(holding(&p->lock))`. -/
  | freeproc
  /-- `kernel_trap`: `assert(!intr_get())`, at the start and at the end. -/
  | kernelTrap
  /-- "nested kerneltrap". -/
  | kernelTrapNested
  /-- `usertrap`: `assert(!intr_get())`, at the start and at the end. -/
  | usertrap
  /-- "usertrapret entered with intr on". -/
  | usertrapret
  /-- No check of the code: `sched` returns with interrupts off and `noff == 1`. -/
  | schedDone
  /-- No check of the code: a call that sleeps or yields returns with the interrupt flag of its start. -/
  | frame
  deriving DecidableEq

/-- Code that is called by name, as it does not end or calls itself. -/
inductive Fun (n : ℕ)
  /-- From the head of the loop in `scheduler`. -/
  | scheduler
  /-- In `fetch_task`, the queue is empty. -/
  | idle
  /-- In `fetch_task`, `p` has been taken from the queue. -/
  | dispatch (p : Fin (n + 1))
  /-- `usertrap`, after user code has run. -/
  | usertrap (p : Fin (n + 1))
  /-- From the head of the loop in `wait`, called by `p`. -/
  | waitLoop (p : Fin (n + 1))

inductive Stmt (n : ℕ)
  | pushOff
  /-- `push_off`, after `old = intr_get()`. -/
  | pushedOff (old : Bool)
  | popOff
  /-- The panic of `acquire`. -/
  | check (l : Lock n)
  /-- The loop of `acquire`, on `__sync_lock_test_and_set`. -/
  | spin (l : Lock n)
  /-- `release`, up to `pop_off`. -/
  | unlock (l : Lock n)
  | spinlockInit (l : Lock n)
  | intrOn
  | intrOff
  /-- `intr = intr_off(); a; if (intr) intr_on();`. -/
  | masked (a : List (Stmt n))
  /-- `if (intr) intr_on()`. -/
  | restore (intr : Bool)
  /-- `if (!holding(l)) panic`. -/
  | assertHolding (l : Lock n) (x : Panic)
  /-- `if (intr_get()) panic`. -/
  | assertIntrOff (x : Panic)
  /-- `p->state = state`. -/
  | setState (p : Fin (n + 1)) (state : ProcState)
  /-- `if (p->state == state)`. -/
  | ifState (p : Fin (n + 1)) (state : ProcState) (thn els : List (Stmt n))
  /-- `assert(p->state == state)`. -/
  | assertState (p : Fin (n + 1)) (state : ProcState)
  /-- `if` on data that is left out. -/
  | either (a b : List (Stmt n))
  /-- A loop, left after any number of rounds. -/
  | loop (a : List (Stmt n))
  | call (f : Fun n)
  /-- A call of a function that sleeps or yields. -/
  | frame (a : List (Stmt n))
  /-- The return of one; `intr` is the interrupt flag that its CPU had at the call. -/
  | ret (intr : Bool)
  /-- In `allocproc`: `p->context` returns to `first_sched_ret`. -/
  | initContext (p : Fin (n + 1))
  /-- `push_queue(&task_queue, p)`, under its lock. -/
  | pushQueue (p : Fin (n + 1))
  /-- `pop_queue(&task_queue)`, under its lock. -/
  | popQueue
  /-- `c->proc = p`. -/
  | setProc (p : Option (Fin (n + 1)))
  /-- `assert(c->proc == p)`. -/
  | assertProc (p : Fin (n + 1))
  /-- `swtch(&c->sched_context, &p->context)`. -/
  | swtch (p : Fin (n + 1))
  /-- `sched`, up to the switch. -/
  | sched (p : Fin (n + 1))
  /-- `sched`, after the switch. -/
  | schedRet (p : Fin (n + 1)) (interruptOn : Bool)
  /-- `sched` has returned. -/
  | schedDone
  /-- The start of `kernel_trap`, up to `inkernel_trap = 1`. -/
  | trapEnter
  /-- The end of `kernel_trap`. -/
  | trapLeave
  /-- The `sret` at the end of `kernel_trap_entry`. -/
  | sret
  /-- A loop that does nothing, after a panic on data that is left out. -/
  | halt
  /-- One of the checks has failed. -/
  | panic (x : Panic)

/-- `pool`. -/
def pool : List (Fin (n + 1)) := List.finRange (n + 1)

/-! ### Locks, printing and memory -/

def acquire (l : Lock n) : List (Stmt n) := [.pushOff, .check l, .spin l]
def release (l : Lock n) : List (Stmt n) := [.unlock l, .popOff]

def uartPutchar : List (Stmt n) := [.masked []]
def printf : List (Stmt n) := [.masked [.loop uartPutchar]]

def addTask (p : Fin (n + 1)) : List (Stmt n) := acquire .queue ++ [.pushQueue p] ++ release .queue

def kallocpage : List (Stmt n) := acquire .page ++ release .page
def kfreepage : List (Stmt n) := acquire .page ++ release .page

def kalloc (a : Allocator) : List (Stmt n) := acquire (.allocator a) ++ release (.allocator a)
def kfree (a : Allocator) : List (Stmt n) := acquire (.allocator a) ++ release (.allocator a)

/-- With `alloc`; else it takes no lock. -/
def walk : List (Stmt n) := [.loop kallocpage]
def walkaddr : List (Stmt n) := [.either [] printf]

def mmCreate (p : Fin (n + 1)) : List (Stmt n) :=
  kalloc .mm ++ [.spinlockInit (.mm p)] ++ kallocpage ++ [.either [] (kfree .mm)]

def mmCreateVma : List (Stmt n) := kalloc .vma

def freevma (freePhyPage : Bool) : List (Stmt n) :=
  [.loop [.either printf (if freePhyPage then kfreepage else [])]]

def mmFreePages : List (Stmt n) := [.loop (freevma true ++ kfree .vma)]
def mmFree : List (Stmt n) := mmFreePages ++ kfreepage ++ [.either [] (kfree .mm)]

/-- Rounds that map a page, and perhaps one that fails. -/
def mmMappages : List (Stmt n) :=
  [.loop (walk ++ kallocpage), .either [] (walk ++ [.either [] kallocpage] ++ printf)]

def mmMappagesat : List (Stmt n) := kalloc .vma ++ walk ++ [.either [] printf]

def mmCopy : List (Stmt n) :=
  [.loop (mmCreateVma ++ mmMappages ++ [.loop (walkaddr ++ walkaddr)]),
    .either [] (mmCreateVma ++ mmMappages ++ printf ++ mmFreePages)]

def copyToUser : List (Stmt n) := [.loop walkaddr]
def copyFromUser : List (Stmt n) := [.loop walkaddr]
def copystrFromUser : List (Stmt n) := [.loop walkaddr]

def loadUserElf (p : Fin (n + 1)) : List (Stmt n) :=
  [.loop (mmCreateVma ++ mmMappages ++ [.loop walkaddr, .loop walkaddr])] ++ mmCreateVma ++
    mmMappages ++ mmCreateVma ++ mmMappages ++ [.loop walkaddr, .setState p .runnable]

/-! ### Switching -/

def sched (p : Fin (n + 1)) : List (Stmt n) := [.sched p, .schedDone]

def yield (p : Fin (n + 1)) : List (Stmt n) :=
  [.frame (acquire (.proc p) ++ [.setState p .runnable] ++ sched p ++ release (.proc p))]

def sleep (p : Fin (n + 1)) (lk : Lock n) : List (Stmt n) :=
  acquire (.proc p) ++ release lk ++ [.setState p .sleeping] ++ sched p ++ release (.proc p) ++
    acquire lk

/-- From the slots `l` on. -/
def wakeup : List (Fin (n + 1)) → List (Stmt n)
  | [] => []
  | q :: l => acquire (.proc q) ++
      [.ifState q .sleeping [.either [] ([.setState q .runnable] ++ addTask q)] []] ++
      release (.proc q) ++ wakeup l

/-- With `sret`, what the process does in user mode, and its next trap. -/
def usertrapret (p : Fin (n + 1)) : List (Stmt n) := [.assertIntrOff .usertrapret, .call (.usertrap p)]

def firstSchedRet (p : Fin (n + 1)) : List (Stmt n) :=
  release (.proc p) ++ [.intrOff] ++ usertrapret p

/-! ### `proc.c` -/

def allocpid : List (Stmt n) := acquire .pid ++ release .pid

/-- `allocproc` from the label `found` on. -/
def found (p : Fin (n + 1)) : List (Stmt n) :=
  allocpid ++ [.setState p .used] ++ mmCreate p ++ mmMappagesat ++ kallocpage ++ mmMappagesat ++
    [.initContext p, .assertHolding (.proc p) .allocproc]

/-- From the slots `l` on; `k` is the caller's part for the process it returns. Each caller panics when
there is none. -/
def allocproc (k : Fin (n + 1) → List (Stmt n)) : List (Fin (n + 1)) → List (Stmt n)
  | [] => [.halt]
  | p :: l => acquire (.proc p) ++
      [.ifState p .unused (found p ++ k p) (release (.proc p) ++ allocproc k l)]

def freeproc (p : Fin (n + 1)) : List (Stmt n) :=
  [.assertHolding (.proc p) .freeproc, .setState p .unused] ++ freevma false ++ freevma true ++ mmFree

def fork (p : Fin (n + 1)) : List (Stmt n) :=
  allocproc (fun np => acquire (.proc p) ++ mmCopy ++ [.setState np .runnable] ++ addTask np ++
    release (.proc np) ++ release (.proc p)) pool

def exec (p : Fin (n + 1)) : List (Stmt n) :=
  acquire (.proc p) ++ mmFreePages ++ loadUserElf p ++ release (.proc p)

/-- The `for` loop of `wait` from the slots `l` on, and the rest of the round. -/
def waitScan (p : Fin (n + 1)) : List (Fin (n + 1)) → List (Stmt n)
  | [] => [.either (release .wait) (printf ++ sleep p .wait ++ [.call (.waitLoop p)])]
  | q :: l =>
    if q = p then waitScan p l
    else acquire (.proc q) ++ [.either
      [.ifState q .zombie (freeproc q ++ release (.proc q) ++ release .wait)
        (release (.proc q) ++ waitScan p l)]
      (release (.proc q) ++ waitScan p l)]

def wait (p : Fin (n + 1)) : List (Stmt n) := [.frame (acquire .wait ++ [.call (.waitLoop p)])]

/-- The second loop of `exit` from the slots `l` on. -/
def reparent (p : Fin (n + 1)) : List (Fin (n + 1)) → List (Stmt n)
  | [] => []
  | q :: l => (if q = p then [] else acquire (.proc q) ++ release (.proc q)) ++ reparent p l

def exit (p : Fin (n + 1)) : List (Stmt n) :=
  acquire .wait ++ wakeup pool ++ acquire (.proc p) ++ reparent p pool ++ [.setState p .zombie] ++
    release .wait ++ sched p ++ [.halt]

/-! ### `sched.c` -/

/-- The loop of `all_dead` from the slots `l` on. -/
def allDeadLoop : List (Fin (n + 1)) → List (Stmt n)
  | [] => []
  | q :: l => acquire (.proc q) ++
      [.ifState q .unused (release (.proc q) ++ allDeadLoop l) (release (.proc q))]

def allDead : List (Stmt n) := [.pushOff] ++ allDeadLoop pool ++ [.popOff]

/-- `scheduler`, up to the branch of `pop_queue`. -/
def scheduler : List (Stmt n) := acquire .queue ++ [.popQueue]

/-- With an empty queue. -/
def idle : List (Stmt n) := release .queue ++ allDead ++ [.intrOn, .intrOff, .call .scheduler]

/-- With `p` from the queue. -/
def dispatch (p : Fin (n + 1)) : List (Stmt n) :=
  release .queue ++ acquire (.proc p) ++ [.assertState p .runnable] ++ printf ++
    [.setState p .running, .setProc (some p), .swtch p, .assertProc p,
      .assertIntrOff .schedulerIntr, .assertHolding (.proc p) .schedulerHolding, .setProc none,
      .ifState p .runnable (addTask p) []] ++ release (.proc p) ++ [.call .scheduler]

/-! ### `console.c`, `syscall.c` and `trap.c` -/

def consintr : List (Stmt n) :=
  acquire .cons ++ [.loop uartPutchar, .either [] (wakeup pool)] ++ release .cons

def uartIntr : List (Stmt n) := [.loop consintr]
def plicHandle : List (Stmt n) := [.either [] uartIntr]

def userConsoleWrite (p : Fin (n + 1)) : List (Stmt n) :=
  acquire (.proc p) ++ acquire (.mm p) ++ release (.proc p) ++ copyFromUser ++ release (.mm p) ++
    [.loop uartPutchar]

def userConsoleRead (p : Fin (n + 1)) : List (Stmt n) :=
  [.frame (acquire .cons ++
    [.loop [.loop (sleep p .cons), .either [] (acquire (.proc p) ++ acquire (.mm p) ++
      release (.proc p) ++ copyToUser ++ release (.mm p))]] ++ release .cons)]

def sysExec (p : Fin (n + 1)) : List (Stmt n) := copystrFromUser ++ [.either [] (exec p)]

def sysWait (p : Fin (n + 1)) : List (Stmt n) :=
  acquire (.proc p) ++ acquire (.mm p) ++ walkaddr ++ release (.mm p) ++ release (.proc p) ++ wait p

/-- One of the branches of a `switch`. -/
def oneOf : List (List (Stmt n)) → List (Stmt n)
  | [] => [.halt]
  | a :: l => [.either a (oneOf l)]

/-- The calls without locks are the empty branch. -/
def syscall (p : Fin (n + 1)) : List (Stmt n) :=
  oneOf [userConsoleWrite p, userConsoleRead p, exit p, yield p, copyToUser, fork p, sysExec p,
    sysWait p, printf, []]

/-- A timer interrupt, a device interrupt, a system call, a page fault that is handled, or the end of
the process. -/
def usertrap (p : Fin (n + 1)) : List (Stmt n) :=
  [.assertIntrOff .usertrap] ++ oneOf [yield p, plicHandle, [.intrOn] ++ syscall p ++ [.intrOff], [],
    printf ++ exit p] ++ [.assertIntrOff .usertrap] ++ usertrapret p

/-- With the return from it, for a timer or a device interrupt. -/
def kernelTrap : List (Stmt n) := [.trapEnter, .either [] plicHandle, .trapLeave, .sret]

def body : Fun n → List (Stmt n)
  | .scheduler => scheduler
  | .idle => idle
  | .dispatch p => dispatch p
  | .usertrap p => usertrap p
  | .waitLoop p => waitScan p pool

end UCore.Thread.Code

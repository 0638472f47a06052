import UCore.Lib.Runs
import UCore.Thread.Code
import Mathlib.Logic.Function.Basic

/-! # Kernel threads: the machine

Any number of CPUs that run kernel threads, a statement at a time. `code` is what a CPU has in its
registers and on its stack; `swtch` exchanges it with a saved context. A lock is free or has the CPU
that `lk->cpu` names. An interrupt may come before every statement that runs with interrupts enabled;
a panic on data that is left out may come before every statement. -/

namespace UCore.Thread.Machine

open UCore.Proc.State UCore.Thread.Code

/-- A CPU: `sstatus.SIE`, the fields of `struct cpu`, what it is about to do, and what it was about to
do when it was interrupted. -/
structure Cpu (n : ℕ) where
  enabled : Bool
  noff : ℕ
  interruptOn : Bool
  inkernelTrap : Bool
  proc : Option (Fin (n + 1))
  schedContext : List (Stmt n)
  code : List (Stmt n)
  below : Option (List (Stmt n))

structure State (n : ℕ) (κ : Type) where
  cpu : κ → Cpu n
  lock : Lock n → Option κ
  /-- `p->state`. -/
  state : Fin (n + 1) → ProcState
  /-- `p->context`. -/
  context : Fin (n + 1) → List (Stmt n)
  /-- `task_queue`. -/
  queue : List (Fin (n + 1))

variable {n : ℕ} {κ : Type} [DecidableEq κ]

def State.setCpu (s : State n κ) (k : κ) (c : Cpu n) : State n κ :=
  { s with cpu := Function.update s.cpu k c }

/-- The CPU `k` is about to do `l`. -/
def State.goto (s : State n κ) (k : κ) (l : List (Stmt n)) : State n κ :=
  s.setCpu k { s.cpu k with code := l }

def State.setLock (s : State n κ) (l : Lock n) (o : Option κ) : State n κ :=
  { s with lock := Function.update s.lock l o }

/-- The end of `pop_off`. -/
def popOff (c : Cpu n) (l : List (Stmt n)) : Cpu n :=
  if c.enabled then { c with code := [.panic .popOffInterruptible] }
  else if c.noff < 1 then { c with code := [.panic .popOffUnpair] }
  else if c.noff - 1 = 0 ∧ c.interruptOn = true then
    if c.inkernelTrap then { c with noff := c.noff - 1, code := [.panic .popOffTrap] }
    else { c with noff := c.noff - 1, enabled := true, code := l }
  else { c with noff := c.noff - 1, code := l }

/-- What `sched` checks, and the panic of the first check that fails. -/
def schedFails (s : State n κ) (k : κ) (p : Fin (n + 1)) : Option Panic :=
  if s.lock (.proc p) ≠ some k then some .schedNotHolding
  else if (s.cpu k).noff ≠ 1 then some .schedAnotherLock
  else if s.state p = .running then some .schedRunning
  else if (s.cpu k).inkernelTrap then some .schedTrap
  else if (s.cpu k).enabled then some .schedIntr
  else none

/-- The statement `x` on the CPU `k`, with `l` behind it. An `either` takes its first branch and a
`loop` ends; `Step` has the other choices. -/
def exec (s : State n κ) (k : κ) (l : List (Stmt n)) (x : Stmt n) : State n κ :=
  let c := s.cpu k
  match x with
  | .pushOff => s.goto k (.pushedOff c.enabled :: l)
  | .pushedOff old => s.setCpu k { c with
      enabled := false, noff := c.noff + 1, code := l
      interruptOn := if c.noff = 0 then old else c.interruptOn }
  | .popOff => s.setCpu k (popOff c l)
  | .check m => s.goto k (if s.lock m = some k then [.panic .acquire] else l)
  | .spin m => if s.lock m = none then (s.setLock m (some k)).goto k l else s
  | .unlock m =>
    if s.lock m = some k then (s.setLock m none).goto k l else s.goto k [.panic .release]
  | .spinlockInit m => (s.setLock m none).goto k l
  | .intrOn => s.setCpu k { c with enabled := true, code := l }
  | .intrOff => s.setCpu k { c with enabled := false, code := l }
  | .masked a => s.setCpu k { c with enabled := false, code := a ++ .restore c.enabled :: l }
  | .restore intr => s.setCpu k { c with enabled := intr || c.enabled, code := l }
  | .assertHolding m x => s.goto k (if s.lock m = some k then l else [.panic x])
  | .assertIntrOff x => s.goto k (if c.enabled then [.panic x] else l)
  | .setState p state => { s with state := Function.update s.state p state }.goto k l
  | .ifState p state thn els => s.goto k ((if s.state p = state then thn else els) ++ l)
  | .assertState p state =>
    s.goto k (if s.state p = state then l else [.panic .schedulerState])
  | .either a _ => s.goto k (a ++ l)
  | .loop _ => s.goto k l
  | .call f => s.goto k (body f ++ l)
  | .frame a => s.goto k (a ++ .ret c.enabled :: l)
  | .ret intr => s.goto k (if c.enabled = intr then l else [.panic .frame])
  | .initContext p =>
    { s with context := Function.update s.context p (firstSchedRet p) }.goto k l
  | .pushQueue p => { s with queue := s.queue ++ [p] }.goto k l
  | .popQueue =>
    match s.queue with
    | [] => s.goto k (.call .idle :: l)
    | p :: queue => { s with queue }.goto k (.call (.dispatch p) :: l)
  | .setProc p => s.setCpu k { c with proc := p, code := l }
  | .assertProc p => s.goto k (if c.proc = some p then l else [.panic .schedulerProc])
  | .swtch p => s.setCpu k { c with schedContext := l, code := s.context p }
  | .sched p =>
    match schedFails s k p with
    | some x => s.goto k [.panic x]
    | none => { s with context := Function.update s.context p (.schedRet p c.interruptOn :: l) }.goto
        k c.schedContext
  | .schedRet p interruptOn => s.setCpu k { c with
      interruptOn := interruptOn
      code := if s.lock (.proc p) = some k then l else [.panic .schedReturn] }
  | .schedDone => s.goto k (if c.noff = 1 ∧ c.enabled = false then l else [.panic .schedDone])
  | .trapEnter =>
    if c.enabled then s.goto k [.panic .kernelTrap]
    else if c.inkernelTrap then s.goto k [.panic .kernelTrapNested]
    else s.setCpu k { c with inkernelTrap := true, code := l }
  | .trapLeave =>
    if c.enabled then s.goto k [.panic .kernelTrap]
    else s.setCpu k { c with inkernelTrap := false, code := l }
  | .sret =>
    match c.below with
    | none => s
    | some a => s.setCpu k { c with enabled := true, code := a, below := none }
  | .halt => s
  | .panic _ => s

/-- An interrupt: the hardware turns interrupts off, and `kernel_trap` starts. -/
def interrupt (c : Cpu n) : Cpu n :=
  match c.below with
  | none => { c with enabled := false, code := kernelTrap, below := some c.code }
  | some _ => { c with enabled := false, code := [.panic .kernelTrapNested] }

/-- One step of the CPU `k`. -/
inductive Step : State n κ → κ → State n κ → Prop
  | exec {s : State n κ} {x : Stmt n} {l : List (Stmt n)} (k : κ) : (s.cpu k).code = x :: l →
    Step s k (exec s k l x)
  | right {s : State n κ} {a b l : List (Stmt n)} (k : κ) : (s.cpu k).code = .either a b :: l →
    Step s k (s.goto k (b ++ l))
  | again {s : State n κ} {a l : List (Stmt n)} (k : κ) : (s.cpu k).code = .loop a :: l →
    Step s k (s.goto k (a ++ .loop a :: l))
  | interrupt {s : State n κ} (k : κ) : (s.cpu k).enabled = true →
    Step s k (s.setCpu k (interrupt (s.cpu k)))
  /-- A panic on data that is left out. -/
  | halt {s : State n κ} (k : κ) : Step s k (s.goto k [.halt])

/-- After `load_init_app`, with every CPU at `scheduler`. -/
def start : State n κ where
  cpu _ := ⟨false, 0, false, false, none, [], [.call .scheduler], none⟩
  lock _ := none
  state p := if p.val = 0 then .runnable else .unused
  context p := if p.val = 0 then firstSchedRet p else []
  queue := pool.take 1

end UCore.Thread.Machine

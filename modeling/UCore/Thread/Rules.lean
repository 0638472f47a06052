import UCore.Thread.Machine

/-! # Kernel threads: the rules

What a thread of control has, `Ctx`: its locks, the state of a process that it has looked up, a process
that it may push on the run queue. Each statement changes it, and is allowed in some contexts only;
`safe x Γ K` says that `x` is allowed in `Γ`, and leads to a context with `K` wherever it comes to its
end. Processes are handed on with their locks: who finds a process asleep may wake it and then has to
push it, and who has a process that is no longer `RUNNABLE` may let it go. -/

namespace UCore.Thread.Rules

open UCore.Proc.State UCore.Thread.Code

variable {n : ℕ}

/-! ### Contexts -/

/-- What runs on a CPU. -/
structure Ctx (n : ℕ) where
  /-- The process of the kernel thread; in the scheduler there is none. -/
  thread : Option (Fin (n + 1))
  /-- In the handler of an interrupt. -/
  trapped : Bool
  held : List (Lock n)
  /-- The calls of `push_off` without a lock. -/
  extra : ℕ
  /-- The interrupt flag at depth 0. -/
  intr : Bool
  /-- The state of a process whose lock it has. -/
  know : Option (Fin (n + 1) × ProcState)
  /-- The context of the process that it makes is set up. -/
  made : Bool
  /-- A process that it has woken or made, and has to push. -/
  tok : Option (Fin (n + 1))
  /-- The process that the scheduler has, from `pop_queue` to the switch and from the switch back on. -/
  popped : Option (Fin (n + 1))
  /-- `c->proc`. -/
  proc : Option (Fin (n + 1))
  /-- `c->inkernel_trap`. -/
  inTrap : Bool

namespace Ctx

variable (Γ : Ctx n)

/-- The value of `noff`. -/
def depth : ℕ := Γ.extra + Γ.held.length

/-- The interrupt flag. -/
def cur : Bool := if Γ.depth = 0 then Γ.intr else false

/-- After `intr_off`. -/
def off : Ctx n := if Γ.depth = 0 then { Γ with intr := false } else Γ

/-- After `if (intr) intr_on()`. -/
def restored (intr : Bool) : Ctx n := if intr then { Γ with intr := true } else Γ

/-- The thread is the one of `q`. -/
def Self (q : Fin (n + 1)) : Prop := Γ.trapped = false ∧ Γ.thread = some q

/-- The thread is the one of `q`, or the scheduler that has `q`. -/
def Mine (q : Fin (n + 1)) : Prop := Γ.trapped = false ∧ (Γ.thread = some q ∨ Γ.popped = some q)

instance (q : Fin (n + 1)) : Decidable (Γ.Self q) := by unfold Self; infer_instance
instance (q : Fin (n + 1)) : Decidable (Γ.Mine q) := by unfold Mine; infer_instance

/-- Without the lock `l`. -/
def unlocked : Lock n → Ctx n
  | .proc q => { Γ with
      held := Γ.held.erase (.proc q)
      know := Γ.know.filter fun x => x.1 ≠ q
      popped := if Γ.trapped then Γ.popped else Γ.popped.filter fun x => x ≠ q }
  | l => { Γ with held := Γ.held.erase l }

theorem unlocked_proc (q : Fin (n + 1)) : Γ.unlocked (.proc q) = { Γ with
    held := Γ.held.erase (.proc q)
    know := Γ.know.filter fun x => x.1 ≠ q
    popped := if Γ.trapped then Γ.popped else Γ.popped.filter fun x => x ≠ q } := rfl

/-- After a test that has found `q` in the state `st`. -/
def learnt (q : Fin (n + 1)) (st : ProcState) : Ctx n :=
  if Γ.know = none ∧ ¬ Γ.Mine q then { Γ with know := some (q, st) } else Γ

end Ctx

/-- The states of a process that runs or is about to. -/
def Active (st : ProcState) : Prop := st = .running ∨ st = .runnable

/-- The states that a thread has at the switch. -/
def Left (st : ProcState) : Prop := st = .runnable ∨ st = .sleeping ∨ st = .zombie

/-- The locks under which none is taken. -/
def Leaf : Lock n → Prop
  | .wait | .cons | .proc _ => False
  | _ => True

/-- The order of the locks: `wait_lock` and `cons.lock` first, with nothing taken; then the locks of
processes, one at a time. There are two exceptions: `fork` takes that of its own process after that of
the child, and `exit` takes all others after its own, under `wait_lock`. -/
def MayWait (Γ : Ctx n) (l : Lock n) : Prop :=
  l ∉ Γ.held ∧ (∀ x ∈ Γ.held, ¬ Leaf x) ∧ match l with
    | .wait | .cons => Γ.held = []
    | .proc q => (∀ x ∈ Γ.held, x = .wait ∨ x = .cons) ∨
      (∃ c, Γ.Self q ∧ ¬ Γ.Mine c ∧ Γ.held = [.proc c] ∧ Γ.know = some (c, .used)) ∨
      ∃ p, Γ.Self p ∧ Γ.held = [.proc p, .wait]
    | .mm q => Γ.Self q
    | _ => True

/-- A lock of a process is given back when the process runs, or has been let go. -/
def MayUnlock (Γ : Ctx n) (l : Lock n) : Prop :=
  l ∈ Γ.held ∧ ∀ q, l = .proc q → Γ.tok ≠ some q ∧ (Γ.know = some (q, .used) → Γ.made = false) ∧
    (Γ.Self q → ∀ st, Γ.know = some (q, st) → Active st) ∧
    (Γ.trapped = false → Γ.popped = some q →
      Γ.proc = none ∧ (Γ.know = some (q, .sleeping) ∨ Γ.know = some (q, .zombie)))

/-- `q->state = st`. -/
inductive Sets (Γ : Ctx n) (q : Fin (n + 1)) : ProcState → Ctx n → Prop
  | own {st : ProcState} : Γ.Self q → Left st → Γ.tok = none → Γ.made = false →
    (Γ.know = none ∨ ∃ st', Γ.know = some (q, st')) → Sets Γ q st { Γ with know := some (q, st) }
  /-- `allocproc` takes the slot. -/
  | claim : Γ.know = some (q, .unused) → ¬ Γ.Mine q → Γ.tok = none →
    Sets Γ q .used { Γ with know := some (q, .used), made := false }
  /-- `fork` is done with the child. -/
  | publish : Γ.know = some (q, .used) → Γ.made = true → ¬ Γ.Mine q → Γ.tok = none →
    Sets Γ q .runnable { Γ with know := some (q, .runnable), made := false, tok := some q }
  | wake : Γ.know = some (q, .sleeping) → ¬ Γ.Mine q → Γ.tok = none →
    Sets Γ q .runnable { Γ with know := some (q, .runnable), tok := some q }
  | free : Γ.know = some (q, .zombie) → ¬ Γ.Mine q → Γ.tok = none →
    Sets Γ q .unused { Γ with know := some (q, .unused) }
  | dispatch : Γ.trapped = false → Γ.popped = some q → Γ.know = none → Γ.tok = none →
    Sets Γ q .running { Γ with know := some (q, .running) }

/-- A thread in the code of its process, with nothing taken. -/
@[simps]
def ofProc (p : Fin (n + 1)) (intr : Bool) : Ctx n :=
  ⟨some p, false, [], 0, intr, none, false, none, none, some p, false⟩

/-- The scheduler, with nothing taken. -/
@[simps]
def ofSched (intr : Bool) : Ctx n :=
  ⟨none, false, [], 0, intr, none, false, none, none, none, false⟩

/-- A handler at its start. -/
@[simps]
def ofTrap (thread popped proc : Option (Fin (n + 1))) : Ctx n :=
  ⟨thread, true, [], 0, false, none, false, none, popped, proc, false⟩

/-- `sched` has returned to the thread of `p`. -/
def resumed (p : Fin (n + 1)) (intr : Bool) : Ctx n := { ofProc p intr with held := [.proc p] }

/-- `swtch` has returned to the scheduler, from `p`. -/
def returned (p : Fin (n + 1)) (intr : Bool) (st : ProcState) : Ctx n :=
  { ofSched intr with
    held := [.proc p], know := some (p, st), popped := some p, proc := some p }

/-- Where code that is called by name starts. -/
def Pre : Fun n → Ctx n → Prop
  | .scheduler, Γ => ∃ b, Γ = ofSched b
  | .idle, Γ => ∃ b, Γ = { ofSched b with held := [.queue] }
  | .dispatch p, Γ => ∃ b, Γ = { ofSched b with held := [.queue], popped := some p }
  | .usertrap p, Γ => Γ = ofProc p false
  | .waitLoop p, Γ => ∃ b, Γ = { ofProc p b with held := [.wait] }

/-- Where it ends. -/
def Post : Fun n → Ctx n → Ctx n → Prop
  | .waitLoop _, Γ, Γ' => Γ' = { Γ with held := [] }
  | _, _, _ => False

/-! ### Statements -/

mutual

/-- **The rules.** The statement is allowed in `Γ`, and leads to a context with `K`. -/
def safe : Stmt n → Ctx n → (Ctx n → Prop) → Prop
  | .pushOff, Γ, K => K { Γ with extra := Γ.extra + 1 }
  | .pushedOff old, Γ, K => (Γ.depth = 0 → old = Γ.intr) ∧ K { Γ with extra := Γ.extra + 1 }
  | .popOff, Γ, K =>
    0 < Γ.extra ∧ (Γ.trapped = true → Γ.intr = false) ∧ K { Γ with extra := Γ.extra - 1 }
  | .check l, Γ, K => l ∉ Γ.held ∧ K Γ
  | .spin l, Γ, K =>
    MayWait Γ l ∧ 0 < Γ.extra ∧ K { Γ with held := l :: Γ.held, extra := Γ.extra - 1 }
  | .unlock l, Γ, K => MayUnlock Γ l ∧ K { Γ.unlocked l with extra := Γ.extra + 1 }
  | .spinlockInit l, Γ, K => (∃ q, l = .mm q ∧ Γ.know = some (q, .used) ∧ ¬ Γ.Mine q) ∧ K Γ
  | .intrOn, Γ, K => Γ.depth = 0 ∧ Γ.trapped = false ∧ K { Γ with intr := true }
  | .intrOff, Γ, K => K Γ.off
  | .masked a, Γ, K => safeAll a Γ.off fun Γ' =>
      (Γ.cur = true → Γ'.depth = 0 ∧ Γ'.trapped = false) ∧ K (Γ'.restored Γ.cur)
  | .restore intr, Γ, K =>
    (intr = true → Γ.depth = 0 ∧ Γ.trapped = false) ∧ K (Γ.restored intr)
  | .assertHolding l _, Γ, K => l ∈ Γ.held ∧ K Γ
  | .assertIntrOff _, Γ, K => Γ.cur = false ∧ K Γ
  | .setState q st, Γ, K => Lock.proc q ∈ Γ.held ∧ ∃ Γ', Sets Γ q st Γ' ∧ K Γ'
  | .ifState q st thn els, Γ, K => Lock.proc q ∈ Γ.held ∧
      ((∀ st', Γ.know = some (q, st') → st' = st) → (Γ.Mine q → Γ.know = none → Active st) →
        safeAll thn (Γ.learnt q st) K) ∧
      (Γ.know ≠ some (q, st) → safeAll els Γ K)
  | .assertState q st, Γ, K => Lock.proc q ∈ Γ.held ∧
      Γ.trapped = false ∧ Γ.popped = some q ∧ Γ.know = none ∧ st = .runnable ∧ K Γ
  | .either a b, Γ, K => safeAll a Γ K ∧ safeAll b Γ K
  | .loop a, Γ, K => safeAll a Γ (fun Γ' => Γ' = Γ) ∧ K Γ
  | .call f, Γ, K => Pre f Γ ∧ ∀ Γ', Post f Γ Γ' → K Γ'
  | .frame a, Γ, K => safeAll a Γ fun Γ' => Γ'.cur = Γ.cur ∧ K Γ'
  | .ret intr, Γ, K => Γ.cur = intr ∧ K Γ
  | .initContext q, Γ, K => Γ.know = some (q, .used) ∧ ¬ Γ.Mine q ∧ K { Γ with made := true }
  | .pushQueue q, Γ, K => Γ.know = some (q, .runnable) ∧
      (Γ.tok = some q ∧ K { Γ with tok := none } ∨
        Γ.tok = none ∧ Γ.trapped = false ∧ Γ.popped = some q ∧ Γ.proc = none ∧
          K { Γ with popped := none })
  | .popQueue, Γ, _ => Pre .idle Γ
  | .setProc p, Γ, K => Γ.trapped = false ∧ Γ.thread = none ∧ (∀ q, p = some q → Γ.popped = some q) ∧
      K { Γ with proc := p }
  | .assertProc p, Γ, K => Γ.proc = some p ∧ K Γ
  | .swtch p, Γ, K => (∃ b, Γ = returned p b .running) ∧ ∀ b st, Left st → K (returned p b st)
  | .sched p, Γ, K =>
    (∃ b st, Left st ∧ Γ = { resumed p b with know := some (p, st) }) ∧ K (resumed p Γ.intr)
  | .schedRet p b, Γ, K => (∃ b', Γ = resumed p b') ∧ K (resumed p b)
  | .schedDone, Γ, K => Γ.depth = 1 ∧ K Γ
  | .trapEnter, Γ, K =>
    Γ.trapped = true ∧ Γ.inTrap = false ∧ Γ.cur = false ∧ K { Γ with inTrap := true }
  | .trapLeave, Γ, K =>
    Γ.trapped = true ∧ Γ.inTrap = true ∧ Γ.cur = false ∧ K { Γ with inTrap := false }
  | .sret, Γ, _ => ∃ thread popped proc, Γ = ofTrap thread popped proc
  | .halt, _, _ => True
  | .panic _, _, _ => False

def safeAll : List (Stmt n) → Ctx n → (Ctx n → Prop) → Prop
  | [], Γ, K => K Γ
  | x :: l, Γ, K => safe x Γ fun Γ' => safeAll l Γ' K

end

/-! ### Lists of statements -/

variable {Γ : Ctx n} {K K' : Ctx n → Prop}

mutual

theorem safe_mono {K K' : Ctx n → Prop} (hK : ∀ Γ, K Γ → K' Γ) : ∀ (x : Stmt n) (Γ : Ctx n),
    safe x Γ K → safe x Γ K'
  | .pushOff, _, h => hK _ h
  | .pushedOff _, _, ⟨h1, h⟩ => ⟨h1, hK _ h⟩
  | .popOff, _, ⟨h1, h2, h⟩ => ⟨h1, h2, hK _ h⟩
  | .check _, _, ⟨h1, h⟩ => ⟨h1, hK _ h⟩
  | .spin _, _, ⟨h1, h2, h⟩ => ⟨h1, h2, hK _ h⟩
  | .unlock _, _, ⟨h1, h⟩ => ⟨h1, hK _ h⟩
  | .spinlockInit _, _, ⟨h1, h⟩ => ⟨h1, hK _ h⟩
  | .intrOn, _, ⟨h1, h2, h⟩ => ⟨h1, h2, hK _ h⟩
  | .intrOff, _, h => hK _ h
  | .masked a, _, h => safeAll_mono (fun _ h' => ⟨h'.1, hK _ h'.2⟩) a _ h
  | .restore _, _, ⟨h1, h⟩ => ⟨h1, hK _ h⟩
  | .assertHolding _ _, _, ⟨h1, h⟩ => ⟨h1, hK _ h⟩
  | .assertIntrOff _, _, ⟨h1, h⟩ => ⟨h1, hK _ h⟩
  | .setState _ _, _, ⟨h1, Γ', h2, h⟩ => ⟨h1, Γ', h2, hK _ h⟩
  | .ifState _ _ a b, _, ⟨h1, h2, h3⟩ =>
    ⟨h1, fun h h' => safeAll_mono hK a _ (h2 h h'), fun h => safeAll_mono hK b _ (h3 h)⟩
  | .assertState _ _, _, ⟨h1, h2, h3, h4, h5, h⟩ => ⟨h1, h2, h3, h4, h5, hK _ h⟩
  | .either a b, _, ⟨h1, h2⟩ => ⟨safeAll_mono hK a _ h1, safeAll_mono hK b _ h2⟩
  | .loop _, _, ⟨h1, h⟩ => ⟨h1, hK _ h⟩
  | .call _, _, ⟨h1, h⟩ => ⟨h1, fun Γ' h' => hK _ (h Γ' h')⟩
  | .frame a, _, h => safeAll_mono (fun _ h' => ⟨h'.1, hK _ h'.2⟩) a _ h
  | .ret _, _, ⟨h1, h⟩ => ⟨h1, hK _ h⟩
  | .initContext _, _, ⟨h1, h2, h⟩ => ⟨h1, h2, hK _ h⟩
  | .pushQueue _, _, ⟨h1, h⟩ =>
    ⟨h1, h.imp (fun h => ⟨h.1, hK _ h.2⟩) fun ⟨h1, h2, h3, h4, h⟩ => ⟨h1, h2, h3, h4, hK _ h⟩⟩
  | .popQueue, _, h => h
  | .setProc _, _, ⟨h1, h2, h3, h⟩ => ⟨h1, h2, h3, hK _ h⟩
  | .assertProc _, _, ⟨h1, h⟩ => ⟨h1, hK _ h⟩
  | .swtch _, _, ⟨h1, h⟩ => ⟨h1, fun b st hst => hK _ (h b st hst)⟩
  | .sched _, _, ⟨h1, h⟩ => ⟨h1, hK _ h⟩
  | .schedRet _ _, _, ⟨h1, h⟩ => ⟨h1, hK _ h⟩
  | .schedDone, _, ⟨h1, h⟩ => ⟨h1, hK _ h⟩
  | .trapEnter, _, ⟨h1, h2, h3, h⟩ => ⟨h1, h2, h3, hK _ h⟩
  | .trapLeave, _, ⟨h1, h2, h3, h⟩ => ⟨h1, h2, h3, hK _ h⟩
  | .sret, _, h => h
  | .halt, _, h => h
  | .panic _, _, h => h

theorem safeAll_mono {K K' : Ctx n → Prop} (hK : ∀ Γ', K Γ' → K' Γ') :
    ∀ (l : List (Stmt n)) (Γ : Ctx n), safeAll l Γ K → safeAll l Γ K'
  | [], _, h => hK _ h
  | x :: l, Γ, h => safe_mono (fun Γ' h' => safeAll_mono hK l Γ' h') x Γ h

end

/-- One list after the other. -/
theorem safeAll_append : ∀ (a b : List (Stmt n)) (Γ : Ctx n) (K : Ctx n → Prop),
    safeAll (a ++ b) Γ K ↔ safeAll a Γ fun Γ' => safeAll b Γ' K
  | [], _, _, _ => Iff.rfl
  | x :: a, b, Γ, K =>
    ⟨safe_mono (fun Γ' => (safeAll_append a b Γ' K).mp) x Γ,
      safe_mono (fun Γ' => (safeAll_append a b Γ' K).mpr) x Γ⟩

theorem safeAll.append {a b : List (Stmt n)} (ha : safeAll a Γ K) (hb : ∀ Γ', K Γ' → safeAll b Γ' K') :
    safeAll (a ++ b) Γ K' := (safeAll_append a b Γ K').mpr (safeAll_mono hb a Γ ha)

end UCore.Thread.Rules

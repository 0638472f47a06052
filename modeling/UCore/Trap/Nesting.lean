import Mathlib.Algebra.Order.Ring.Int
import Mathlib.Data.List.Perm.Basic
import Mathlib.Logic.Function.Basic
import UCore.Lib.Runs

/-! # Nested critical sections and interrupts

`push_off`, `pop_off`, `acquire` and `release`, a statement at a time, on any number of cpus that share
any number of locks. An interrupt may come before every statement that runs with interrupts enabled; its
handler makes calls of its own. The depth of a thread of control is the number of its calls of `push_off`
and `acquire` that have returned, less those of `pop_off` and `release`.

Between two calls `noff` is the depth, interrupts are off while it is positive, and at depth 0 they are
what they were before (`nesting_restored`), up to the depth that an `int` can count (`noff_overflows`).
A handler may change `interrupt_on` between `intr_get` and `intr_off`; it runs at depth 0 only, where
`interrupt_on` says nothing. -/

namespace UCore.Trap.Nesting

open UCore.Lib.Runs

/-! ### The code -/

/-- `struct spinlock`; `cpu` is who has named itself as the holder. -/
structure Lock (ι : Type) where
  locked : Bool
  cpu : Option ι

/-- The next statement of a thread of control; `next` is the lock that `push_off` is called for. -/
inductive Place (κ : Type)
  /-- Between two calls. -/
  | idle
  /-- `int old = intr_get();` -/
  | pushRead (next : Option κ)
  /-- `intr_off();` -/
  | pushOff (old : Bool) (next : Option κ)
  /-- `if (mycpu()->noff == 0) mycpu()->interrupt_on = old;` -/
  | pushSave (old : Bool) (next : Option κ)
  /-- `mycpu()->noff += 1;` -/
  | pushCount (next : Option κ)
  /-- `if (holding(lk)) panic(..);` -/
  | acquireCheck (l : κ)
  /-- `while (__sync_lock_test_and_set(&lk->locked, 1) != 0);` -/
  | acquireSwap (l : κ)
  /-- `lk->cpu = mycpu();` -/
  | acquireOwn (l : κ)
  /-- `if (!holding(lk)) panic("release");` -/
  | releaseCheck (l : κ)
  /-- `lk->cpu = 0;` -/
  | releaseDisown (l : κ)
  /-- `__sync_lock_release(&lk->locked);` -/
  | releaseUnlock (l : κ)
  /-- `if (intr_get()) panic(..); if (c->noff < 1) panic(..);` -/
  | popCheck
  /-- `c->noff -= 1;` -/
  | popCount
  /-- `if (c->noff == 0 && c->interrupt_on) { .. intr_on(); }` -/
  | popRestore
  | panicked
  deriving DecidableEq

/-- A thread of control: its depth, and the locks that it has. -/
structure Frame (κ : Type) where
  place : Place κ
  depth : ℕ
  held : List κ

/-- A cpu: `sstatus.SIE`, the fields of `struct cpu`, the thread that runs and those that are
interrupted. -/
structure Cpu (κ : Type) where
  enabled : Bool
  noff : ℤ
  interruptOn : Bool
  inkernelTrap : Bool
  frame : Frame κ
  below : List (Frame κ)

variable {ι κ : Type}

def Cpu.goto (c : Cpu κ) (p : Place κ) : Cpu κ := { c with frame := { c.frame with place := p } }

/-- `push_off` returns. -/
def Cpu.took (c : Cpu κ) : Cpu κ :=
  { c with frame := ⟨.idle, c.frame.depth + 1, c.frame.held⟩ }

/-- `acquire(l)` returns. -/
def Cpu.tookLock (c : Cpu κ) (l : κ) : Cpu κ :=
  { c with frame := ⟨.idle, c.frame.depth + 1, l :: c.frame.held⟩ }

/-- `noff += 1` on an `int`. -/
def inc (n : ℤ) : ℤ := Int.bmod (n + 1) (2 ^ 32)

variable [DecidableEq ι] [DecidableEq κ]

/-- `holding(lk)` -/
def holding (i : ι) (lk : Lock ι) : Prop := lk.locked = true ∧ lk.cpu = some i

instance (i : ι) (lk : Lock ι) : Decidable (holding i lk) := by unfold holding; infer_instance

/-- The next statement of the thread that runs on the cpu `i`. -/
def exec (i : ι) (c : Cpu κ) (lock : κ → Lock ι) : Cpu κ × (κ → Lock ι) :=
  match c.frame.place with
  | .idle => (c, lock)
  | .pushRead next => (c.goto (.pushOff c.enabled next), lock)
  | .pushOff old next => ({ c with enabled := false }.goto (.pushSave old next), lock)
  | .pushSave old next =>
    ((if c.noff = 0 then { c with interruptOn := old } else c).goto (.pushCount next), lock)
  | .pushCount none => ({ c with noff := inc c.noff }.took, lock)
  | .pushCount (some l) => ({ c with noff := inc c.noff }.goto (.acquireCheck l), lock)
  | .acquireCheck l =>
    (c.goto (if holding i (lock l) then .panicked else .acquireSwap l), lock)
  | .acquireSwap l =>
    if (lock l).locked then (c, lock)
    else (c.goto (.acquireOwn l), Function.update lock l { lock l with locked := true })
  | .acquireOwn l => (c.tookLock l, Function.update lock l { lock l with cpu := some i })
  | .releaseCheck l =>
    (c.goto (if holding i (lock l) then .releaseDisown l else .panicked), lock)
  | .releaseDisown l =>
    (c.goto (.releaseUnlock l), Function.update lock l { lock l with cpu := none })
  | .releaseUnlock l =>
    (c.goto .popCheck, Function.update lock l { lock l with locked := false })
  | .popCheck => (c.goto (if c.enabled = true ∨ c.noff < 1 then .panicked else .popCount), lock)
  | .popCount => ({ c with noff := c.noff - 1 }.goto .popRestore, lock)
  | .popRestore =>
    if c.noff = 0 ∧ c.interruptOn = true then
      if c.inkernelTrap then (c.goto .panicked, lock)
      else ({ c with enabled := true }.goto .idle, lock)
    else (c.goto .idle, lock)
  | .panicked => (c, lock)

/-- An interrupt: the hardware turns interrupts off, and `kernel_trap` starts a handler. -/
def interrupt (c : Cpu κ) : Cpu κ :=
  if c.inkernelTrap then { c with enabled := false }.goto .panicked
  else ⟨false, c.noff, c.interruptOn, true, ⟨.idle, 0, []⟩, c.frame :: c.below⟩

/-- The end of `kernel_trap`, and `sret`: it goes on with `g`, and interrupts are on again. -/
def sret (c : Cpu κ) (g : Frame κ) (below : List (Frame κ)) : Cpu κ :=
  ⟨true, c.noff, c.interruptOn, false, g, below⟩

/-! ### The system -/

/-- The lock that a thread has taken, and not yet in `held` or no more. -/
def Place.lock : Place κ → List κ
  | .acquireOwn l => [l]
  | .releaseCheck l => [l]
  | .releaseDisown l => [l]
  | .releaseUnlock l => [l]
  | _ => []

def Frame.owned (f : Frame κ) : List κ := f.place.lock ++ f.held

/-- The locks that a cpu has. -/
def Cpu.owned (c : Cpu κ) : List κ := (c.frame :: c.below).flatMap Frame.owned

/-- The nesting depth of a cpu. -/
def Cpu.depth (c : Cpu κ) : ℕ := ((c.frame :: c.below).map Frame.depth).sum

structure Sys (ι κ : Type) where
  cpu : ι → Cpu κ
  lock : κ → Lock ι

def Sys.set (s : Sys ι κ) (i : ι) (c : Cpu κ) (lock : κ → Lock ι) : Sys ι κ :=
  ⟨Function.update s.cpu i c, lock⟩

/-- One step of a cpu. No thread releases more than it took, a lock is taken by a cpu that does not have
it, and a handler ends with nothing taken. -/
inductive Step : Sys ι κ → ι → Sys ι κ → Prop
  | push {s : Sys ι κ} (i : ι) : (s.cpu i).frame.place = .idle →
    Step s i (s.set i ((s.cpu i).goto (.pushRead none)) s.lock)
  | acquire {s : Sys ι κ} (i : ι) (l : κ) : (s.cpu i).frame.place = .idle → l ∉ (s.cpu i).owned →
    Step s i (s.set i ((s.cpu i).goto (.pushRead (some l))) s.lock)
  | pop {s : Sys ι κ} {d : ℕ} (i : ι) : (s.cpu i).frame.place = .idle → (s.cpu i).frame.depth = d + 1 →
    Step s i (s.set i { s.cpu i with frame := ⟨.popCheck, d, (s.cpu i).frame.held⟩ } s.lock)
  | release {s : Sys ι κ} {d : ℕ} (i : ι) (l : κ) : (s.cpu i).frame.place = .idle →
    (s.cpu i).frame.depth = d + 1 → l ∈ (s.cpu i).frame.held →
    Step s i (s.set i { s.cpu i with frame := ⟨.releaseCheck l, d, (s.cpu i).frame.held.erase l⟩ } s.lock)
  | exec {s : Sys ι κ} (i : ι) :
    Step s i (s.set i (exec i (s.cpu i) s.lock).1 (exec i (s.cpu i) s.lock).2)
  | interrupt {s : Sys ι κ} (i : ι) : (s.cpu i).enabled = true → (s.cpu i).frame.place ≠ .panicked →
    Step s i (s.set i (interrupt (s.cpu i)) s.lock)
  | sret {s : Sys ι κ} {g : Frame κ} {below : List (Frame κ)} (i : ι) : (s.cpu i).frame.place = .idle →
    (s.cpu i).frame.depth = 0 → (s.cpu i).frame.held = [] → (s.cpu i).below = g :: below →
    Step s i (s.set i (sret (s.cpu i) g below) s.lock)

variable {b b₀ k₀ : Bool} {c : Cpu κ} {s s' : Sys ι κ} {i : ι} {lock : κ → Lock ι} {g : Frame κ}
  {below : List (Frame κ)}

/-! ### One thread -/

/-- Between two calls of a thread that has found interrupts at `b`. -/
structure Rest (b : Bool) (c : Cpu κ) : Prop where
  noff : c.noff = c.frame.depth
  out : c.frame.depth = 0 → c.enabled = b
  within : 0 < c.frame.depth → c.enabled = false ∧ c.interruptOn = b

/-- In a call with interrupts off, with `n` in `noff`. -/
structure Off (b : Bool) (c : Cpu κ) (n : ℤ) : Prop where
  enabled : c.enabled = false
  noff : c.noff = n
  saved : c.interruptOn = b

/-- **The calls of a thread** that has found interrupts at `b`. -/
def Calls (b : Bool) (c : Cpu κ) : Prop :=
  match c.frame.place with
  | .idle => Rest b c
  | .pushRead _ => Rest b c
  | .pushOff old _ => Rest b c ∧ old = c.enabled
  | .pushSave old _ => c.enabled = false ∧ c.noff = c.frame.depth ∧
    (c.frame.depth = 0 → old = b) ∧ (0 < c.frame.depth → c.interruptOn = b)
  | .pushCount _ => Off b c c.frame.depth
  | .acquireCheck _ => Off b c (inc c.frame.depth)
  | .acquireSwap _ => Off b c (inc c.frame.depth)
  | .acquireOwn _ => Off b c (inc c.frame.depth)
  | .releaseCheck _ => Off b c (c.frame.depth + 1)
  | .releaseDisown _ => Off b c (c.frame.depth + 1)
  | .releaseUnlock _ => Off b c (c.frame.depth + 1)
  | .popCheck => Off b c (c.frame.depth + 1)
  | .popCount => Off b c (c.frame.depth + 1)
  | .popRestore => Off b c c.frame.depth
  | .panicked => c.enabled = false

theorem inc_eq {n : ℕ} (h : n + 1 < 2 ^ 31) : inc n = (n + 1 : ℕ) := by
  unfold inc
  rw [Int.bmod_def]
  omega

/-- **A statement** keeps the calls in order, up to the depth that an `int` can count. -/
theorem Calls.exec (h : Calls b c) (hd : (exec i c lock).1.frame.depth < 2 ^ 31) :
    Calls b (exec i c lock).1 := by
  rcases c with ⟨enabled, noff, interruptOn, inkernelTrap, ⟨place, depth, held⟩, below⟩
  cases place with
  | idle => exact h
  | pushRead next => exact ⟨⟨h.noff, h.out, h.within⟩, rfl⟩
  | pushOff old next =>
    obtain ⟨hrest, hold⟩ := h
    refine ⟨rfl, hrest.noff, fun h0 => hold.trans (hrest.out h0), fun hpos => (hrest.within hpos).2⟩
  | pushSave old next =>
    obtain ⟨hoff, hnoff, hout, hwithin⟩ := h
    change noff = depth at hnoff
    change Calls b (Cpu.goto (if noff = 0 then _ else _) _)
    by_cases h0 : noff = 0
    · rw [if_pos h0]
      exact ⟨hoff, hnoff, hout (by change depth = 0; omega)⟩
    · rw [if_neg h0]
      exact ⟨hoff, hnoff, hwithin (by change 0 < depth; omega)⟩
  | pushCount next =>
    cases next with
    | none =>
      have hinc : inc noff = (depth + 1 : ℕ) := (congrArg inc h.noff).trans (inc_eq hd)
      exact ⟨hinc, nofun, fun _ => ⟨h.enabled, h.saved⟩⟩
    | some l => exact ⟨h.enabled, congrArg inc h.noff, h.saved⟩
  | acquireCheck l =>
    change Calls b (Cpu.goto _ (if holding i (lock l) then _ else _))
    split_ifs
    · exact h.enabled
    · exact ⟨h.enabled, h.noff, h.saved⟩
  | acquireSwap l =>
    unfold exec
    dsimp only
    split_ifs
    · exact h
    · exact ⟨h.enabled, h.noff, h.saved⟩
  | acquireOwn l =>
    have hinc : noff = (depth + 1 : ℕ) := h.noff.trans (inc_eq hd)
    exact ⟨hinc, nofun, fun _ => ⟨h.enabled, h.saved⟩⟩
  | releaseCheck l =>
    change Calls b (Cpu.goto _ (if holding i (lock l) then _ else _))
    split_ifs
    · exact ⟨h.enabled, h.noff, h.saved⟩
    · exact h.enabled
  | releaseDisown l => exact ⟨h.enabled, h.noff, h.saved⟩
  | releaseUnlock l => exact ⟨h.enabled, h.noff, h.saved⟩
  | popCheck =>
    change Calls b (Cpu.goto _ (if enabled = true ∨ noff < 1 then _ else _))
    split_ifs
    · exact h.enabled
    · exact ⟨h.enabled, h.noff, h.saved⟩
  | popCount =>
    refine ⟨h.enabled, ?_, h.saved⟩
    change noff - 1 = depth
    have hnoff : noff = depth + 1 := h.noff
    omega
  | popRestore =>
    have hnoff : noff = depth := h.noff
    have hsaved : interruptOn = b := h.saved
    unfold exec
    dsimp only
    by_cases hlast : noff = 0 ∧ interruptOn = true
    · rw [if_pos hlast]
      split_ifs
      · exact h.enabled
      · exact ⟨hnoff, fun _ => hlast.2.symm.trans hsaved, fun hpos => absurd hpos (by
          change ¬ 0 < depth
          omega)⟩
    · rw [if_neg hlast]
      refine ⟨hnoff, fun h0 => ?_, fun _ => ⟨h.enabled, hsaved⟩⟩
      change depth = 0 at h0
      change enabled = b
      rw [← hsaved, show enabled = false from h.enabled]
      refine (Bool.eq_false_iff.mpr fun hon => hlast ⟨by omega, hon⟩).symm
  | panicked => exact h

/-- A thread that may be interrupted: it has nothing taken, and has not turned interrupts off. -/
structure Resting (g : Frame κ) : Prop where
  depth : g.depth = 0
  place : g.place = .idle ∨ (∃ next, g.place = .pushRead next) ∨ ∃ next, g.place = .pushOff true next

omit [DecidableEq κ] in
/-- **Interrupts are enabled at rest only.** -/
theorem Calls.resting (h : Calls b c) (hon : c.enabled = true) :
    b = true ∧ c.noff = 0 ∧ Resting c.frame := by
  have rest : Rest b c → b = true ∧ c.noff = 0 ∧ c.frame.depth = 0 := fun hr => by
    have h0 : c.frame.depth = 0 := by
      by_contra hne
      rw [(hr.within (Nat.pos_of_ne_zero hne)).1] at hon
      exact absurd hon nofun
    exact ⟨(hr.out h0).symm.trans hon, by rw [hr.noff, h0]; rfl, h0⟩
  have off : c.enabled = false → b = true ∧ c.noff = 0 ∧ Resting c.frame := fun hoff => by
    rw [hoff] at hon
    exact absurd hon nofun
  rcases c with ⟨enabled, noff, interruptOn, inkernelTrap, ⟨place, depth, held⟩, below⟩
  cases place with
  | idle =>
    obtain ⟨hb, hn, hd⟩ := rest h
    exact ⟨hb, hn, hd, Or.inl rfl⟩
  | pushRead next =>
    obtain ⟨hb, hn, hd⟩ := rest h
    exact ⟨hb, hn, hd, Or.inr (Or.inl ⟨next, rfl⟩)⟩
  | pushOff old next =>
    obtain ⟨hb, hn, hd⟩ := rest h.1
    obtain rfl : old = true := h.2.trans hon
    exact ⟨hb, hn, hd, Or.inr (Or.inr ⟨next, rfl⟩)⟩
  | pushSave old next => exact off h.1
  | panicked => exact off h
  | _ => exact off h.enabled

omit [DecidableEq κ] in
/-- A thread at rest goes on with interrupts enabled, whatever became of `interrupt_on`. -/
theorem Resting.calls (h : Resting c.frame) (hnoff : c.noff = 0) (hon : c.enabled = true) :
    Calls true c := by
  have hrest : Rest true c :=
    ⟨by rw [hnoff, h.depth]; rfl, fun _ => hon, fun hpos => absurd h.depth (by omega)⟩
  unfold Calls
  obtain hp | ⟨next, hp⟩ | ⟨next, hp⟩ := h.place
  · rw [hp]
    exact hrest
  · rw [hp]
    exact hrest
  · rw [hp]
    exact ⟨hrest, hon.symm⟩

/-! ### One cpu -/

/-- **The invariant of a cpu** that has started with interrupts at `b₀` and `inkernel_trap` at `k₀`. Below
a handler there is one thread, at rest; the handler has found interrupts off. -/
inductive Good (b₀ k₀ : Bool) (c : Cpu κ) : Prop
  | main : c.below = [] → c.inkernelTrap = k₀ → Calls b₀ c → Good b₀ k₀ c
  | handler {g : Frame κ} : c.below = [g] → Resting g → b₀ = true → k₀ = false → c.inkernelTrap = true →
    Calls false c → Good b₀ k₀ c

omit [DecidableEq ι] [DecidableEq κ] in
theorem Good.calls (h : Good b₀ k₀ c) : ∃ b, Calls b c := by
  rcases h with ⟨-, -, h3⟩ | ⟨-, -, -, -, -, h3⟩
  · exact ⟨b₀, h3⟩
  · exact ⟨false, h3⟩

omit [DecidableEq ι] [DecidableEq κ] in
/-- An interrupted thread has nothing taken. -/
theorem Good.depth_eq (h : Good b₀ k₀ c) : c.depth = c.frame.depth := by
  unfold Cpu.depth
  rcases h with ⟨h1, -, -⟩ | ⟨h1, hg, -, -, -, -⟩
  · rw [h1]
    rfl
  · rw [h1]
    change c.frame.depth + (_ + 0) = _
    rw [hg.depth]
    rfl

omit [DecidableEq κ] in
/-- What does not touch the handlers. -/
theorem Good.mono {c' : Cpu κ} (h : Good b₀ k₀ c) (hbelow : c'.below = c.below)
    (htrap : c'.inkernelTrap = c.inkernelTrap) (hcalls : ∀ b, Calls b c → Calls b c') :
    Good b₀ k₀ c' := by
  rcases h with ⟨h1, h2, h3⟩ | ⟨h1, hg, hb, hk, h2, h3⟩
  · exact .main (hbelow.trans h1) (htrap.trans h2) (hcalls _ h3)
  · exact .handler (hbelow.trans h1) hg hb hk (htrap.trans h2) (hcalls _ h3)

theorem exec_frames (i : ι) (c : Cpu κ) (lock : κ → Lock ι) :
    (exec i c lock).1.below = c.below ∧ (exec i c lock).1.inkernelTrap = c.inkernelTrap := by
  rcases c with ⟨enabled, noff, interruptOn, inkernelTrap, ⟨place, depth, held⟩, below⟩
  cases place with
  | pushSave old next =>
    change (Cpu.goto (if noff = 0 then _ else _) _).below = _ ∧ (Cpu.goto (if noff = 0 then _ else _) _).inkernelTrap = _
    split_ifs
    · exact ⟨rfl, rfl⟩
    · exact ⟨rfl, rfl⟩
  | pushCount next =>
    cases next with
    | none => exact ⟨rfl, rfl⟩
    | some l => exact ⟨rfl, rfl⟩
  | acquireSwap l =>
    unfold exec
    dsimp only
    split_ifs
    all_goals exact ⟨rfl, rfl⟩
  | popRestore =>
    unfold exec
    dsimp only
    split_ifs
    all_goals exact ⟨rfl, rfl⟩
  | _ => exact ⟨rfl, rfl⟩

omit [DecidableEq κ] in
/-- **An interrupt** finds the thread at rest, and no other handler. -/
theorem Good.interrupted (h : Good b₀ k₀ c) (hon : c.enabled = true) : Good b₀ k₀ (interrupt c) := by
  rcases h with ⟨h1, h2, h3⟩ | ⟨h1, hg, hb, hk, h2, h3⟩
  · obtain ⟨hb, hn, hrest⟩ := h3.resting hon
    unfold interrupt
    cases hk : c.inkernelTrap with
    | true => exact .main h1 (hk.symm.trans h2) rfl
    | false =>
      refine .handler (congrArg (c.frame :: ·) h1) hrest hb (h2.symm.trans hk) rfl ?_
      exact ⟨hn, fun _ => rfl, nofun⟩
  · exact absurd (h3.resting hon).1 nofun

omit [DecidableEq κ] in
/-- **The end of a handler**: the thread goes on. -/
theorem Good.returned (h : Good b₀ k₀ c) (hp : c.frame.place = .idle) (hd : c.frame.depth = 0)
    (hbelow : c.below = g :: below) : Good b₀ k₀ (sret c g below) := by
  rcases h with ⟨h1, h2, h3⟩ | ⟨h1, hg, rfl, rfl, h2, h3⟩
  · rw [h1] at hbelow
    exact absurd hbelow nofun
  · rw [h1] at hbelow
    obtain ⟨rfl, rfl⟩ := List.cons.inj hbelow
    have hnoff : c.noff = 0 := by
      unfold Calls at h3
      rw [hp] at h3
      rw [h3.noff, hd]
      rfl
    exact .main rfl rfl (Resting.calls hg hnoff rfl)

omit [DecidableEq κ] in
theorem Calls.rest (h : Calls b c) (hp : c.frame.place = .idle) : Rest b c := by
  unfold Calls at h
  rw [hp] at h
  exact h

omit [DecidableEq κ] in
/-- `push_off` or `acquire` is called. -/
theorem Calls.push (h : Calls b c) (hp : c.frame.place = .idle) (next : Option κ) :
    Calls b (c.goto (.pushRead next)) :=
  ⟨(h.rest hp).noff, (h.rest hp).out, (h.rest hp).within⟩

omit [DecidableEq κ] in
/-- `pop_off` or `release` is called. -/
theorem Calls.pop {d : ℕ} {held : List κ} (h : Calls b c) (hp : c.frame.place = .idle)
    (hd : c.frame.depth = d + 1) {p : Place κ} (hpop : p = .popCheck ∨ ∃ l, p = .releaseCheck l) :
    Calls b { c with frame := ⟨p, d, held⟩ } := by
  have hrest := h.rest hp
  obtain ⟨hoff, hsaved⟩ := hrest.within (by omega)
  have hnoff : c.noff = d + 1 := by
    rw [hrest.noff, hd]
    rfl
  rcases hpop with rfl | ⟨l, rfl⟩
  · exact ⟨hoff, hnoff, hsaved⟩
  · exact ⟨hoff, hnoff, hsaved⟩

/-! ### The locks -/

/-- The lock that a thread is about to take. -/
def Place.wants : Place κ → Option κ
  | .pushRead next => next
  | .pushOff _ next => next
  | .pushSave _ next => next
  | .pushCount next => next
  | .acquireCheck l => some l
  | .acquireSwap l => some l
  | _ => none

/-- The lock that a thread has taken without its name in it. -/
def Place.unnamed : Place κ → Option κ
  | .acquireOwn l => some l
  | .releaseUnlock l => some l
  | _ => none

/-- The locks are right for the cpu `i`. -/
structure LocksOf (i : ι) (c : Cpu κ) (lock : κ → Lock ι) : Prop where
  nodup : c.owned.Nodup
  locked : ∀ l ∈ c.owned, (lock l).locked = true
  named : ∀ l ∈ c.owned, (lock l).cpu = some i ∨ c.frame.place.unnamed = some l
  cpu : ∀ l, (lock l).cpu = some i → l ∈ c.owned ∧ c.frame.place.unnamed ≠ some l
  wants : ∀ l, c.frame.place.wants = some l → l ∉ c.owned
  below : ∀ g ∈ c.below, ∀ l, g.place.wants = some l → l ∉ c.below.flatMap Frame.owned

/-- A step of the cpu `i` that leaves the locks `others` of other cpus alone. -/
structure Moves (i : ι) (others : κ → Prop) (lock : κ → Lock ι) (c' : Cpu κ) (lock' : κ → Lock ι) :
    Prop where
  of : LocksOf i c' lock'
  others : ∀ l, others l → lock' l = lock l ∧ l ∉ c'.owned
  name : ∀ l, ∀ j ≠ i, (lock' l).cpu = some j → (lock l).cpu = some j

/-- The locks that some other cpu has. -/
structure Apart (c : Cpu κ) (lock : κ → Lock ι) (others : κ → Prop) : Prop where
  locked : ∀ l, others l → (lock l).locked = true
  owned : ∀ l, others l → l ∉ c.owned

omit [DecidableEq ι] [DecidableEq κ] in
/-- A step that leaves the locks alone, and the cpu with those that it had. -/
theorem LocksOf.keep {c' : Cpu κ} {others : κ → Prop} (h : LocksOf i c lock)
    (ho : Apart c lock others) (howned : c'.owned.Perm c.owned) (hu : c.frame.place.unnamed = none)
    (hu' : c'.frame.place.unnamed = none)
    (hwants : ∀ l, c'.frame.place.wants = some l → l ∉ c'.owned)
    (hbelow : ∀ g ∈ c'.below, ∀ l, g.place.wants = some l → l ∉ c'.below.flatMap Frame.owned) :
    Moves i others lock c' lock := by
  refine ⟨⟨howned.nodup_iff.mpr h.nodup, fun l hl => h.locked l (howned.mem_iff.mp hl), fun l hl => ?_,
    fun l hl => ⟨howned.mem_iff.mpr (h.cpu l hl).1, ?_⟩, hwants, hbelow⟩, fun l hl => ⟨rfl, ?_⟩,
    fun _ _ _ hj => hj⟩
  · refine (h.named l (howned.mem_iff.mp hl)).imp_right fun hl' => ?_
    rw [hu] at hl'
    exact absurd hl' nofun
  · rw [hu']
    exact nofun
  · exact fun hmem => ho.owned l hl (howned.mem_iff.mp hmem)

omit [DecidableEq κ] in
theorem owned_goto (c : Cpu κ) (p : Place κ) : (c.goto p).owned =
    p.lock ++ (c.frame.held ++ c.below.flatMap Frame.owned) := List.append_assoc ..

omit [DecidableEq κ] in
theorem owned_eq {p : Place κ} (hp : c.frame.place = p) : c.owned =
    p.lock ++ (c.frame.held ++ c.below.flatMap Frame.owned) := by
  rw [← hp]
  exact List.append_assoc ..

omit [DecidableEq ι] in
/-- `__sync_lock_test_and_set` takes a lock that is free. -/
theorem LocksOf.swap {others : κ → Prop} {l : κ} (h : LocksOf i c lock) (ho : Apart c lock others)
    (hp : c.frame.place = .acquireSwap l) (hfree : (lock l).locked = false) :
    Moves i others lock (c.goto (.acquireOwn l))
      (Function.update lock l { lock l with locked := true }) := by
  have hnot : l ∉ c.owned := h.wants l (by rw [hp]; rfl)
  have howned : (c.goto (.acquireOwn l)).owned = l :: c.owned := by rw [owned_goto, owned_eq hp]; rfl
  have hcpu : ∀ k, (Function.update lock l { lock l with locked := true } k).cpu = (lock k).cpu := by
    intro k
    rcases eq_or_ne k l with rfl | hk
    · rw [Function.update_self]
    · rw [Function.update_of_ne hk]
  refine ⟨⟨?_, fun k hk => ?_, fun k hk => ?_, fun k hk => ?_, nofun, h.below⟩, fun k hk => ?_,
    fun k j _ hj => (hcpu k).symm.trans hj⟩
  · rw [howned]
    exact List.nodup_cons.mpr ⟨hnot, h.nodup⟩
  · rcases eq_or_ne k l with rfl | hne
    · rw [Function.update_self]
    · rw [Function.update_of_ne hne]
      exact h.locked k (List.mem_of_ne_of_mem hne (howned ▸ hk))
  · rcases eq_or_ne k l with rfl | hne
    · exact Or.inr rfl
    · refine Or.inl ((hcpu k).trans ?_)
      refine (h.named k (List.mem_of_ne_of_mem hne (howned ▸ hk))).resolve_right ?_
      rw [hp]
      exact nofun
  · have hmem := (h.cpu k ((hcpu k).symm.trans hk)).1
    refine ⟨howned ▸ List.mem_cons_of_mem _ hmem, fun heq => hnot ?_⟩
    obtain rfl : l = k := Option.some.inj heq
    exact hmem
  · have hne : k ≠ l := fun heq => by
      have hlocked := ho.locked k hk
      rw [heq, hfree] at hlocked
      exact absurd hlocked nofun
    refine ⟨Function.update_of_ne hne .., fun hmem => ?_⟩
    exact ho.owned k hk (List.mem_of_ne_of_mem hne (howned ▸ hmem))

omit [DecidableEq ι] in
/-- The holder of a lock writes its name in it, or takes it out. -/
theorem LocksOf.rename {others : κ → Prop} {l : κ} {c' : Cpu κ} {owner : Option ι} (h : LocksOf i c lock)
    (ho : Apart c lock others) (howned : c'.owned = c.owned) (hmem : l ∈ c.owned)
    (hu : ∀ k, c.frame.place.unnamed = some k → k = l)
    (howner : owner = some i ∧ c'.frame.place.unnamed = none ∨
      owner = none ∧ c'.frame.place.unnamed = some l)
    (hwants : c'.frame.place.wants = none) (hbelow : c'.below = c.below) :
    Moves i others lock c' (Function.update lock l { lock l with cpu := owner }) := by
  have hlocked : ∀ k, (Function.update lock l { lock l with cpu := owner } k).locked = (lock k).locked := by
    intro k
    rcases eq_or_ne k l with rfl | hk
    · rw [Function.update_self]
    · rw [Function.update_of_ne hk]
  refine ⟨⟨howned ▸ h.nodup, fun k hk => (hlocked k).trans (h.locked k (howned ▸ hk)), fun k hk => ?_,
    fun k hk => ?_, fun k hk => ?_, hbelow ▸ h.below⟩, fun k hk => ?_, fun k j hj hk => ?_⟩
  · rcases eq_or_ne k l with rfl | hne
    · rw [Function.update_self]
      exact howner.imp And.left And.right
    · rw [Function.update_of_ne hne]
      exact Or.inl ((h.named k (howned ▸ hk)).resolve_right fun he => hne (hu k he))
  · rcases eq_or_ne k l with rfl | hne
    · rw [Function.update_self] at hk
      rcases howner with ⟨-, hnone⟩ | ⟨rfl, -⟩
      · exact ⟨howned ▸ hmem, by rw [hnone]; exact nofun⟩
      · exact absurd hk nofun
    · rw [Function.update_of_ne hne] at hk
      refine ⟨howned ▸ (h.cpu k hk).1, fun he => ?_⟩
      rcases howner with ⟨-, hnone⟩ | ⟨-, hl⟩
      · rw [hnone] at he
        exact absurd he nofun
      · rw [hl] at he
        exact hne (Option.some.inj he).symm
  · rw [hwants] at hk
    exact absurd hk nofun
  · have hne : k ≠ l := fun heq => ho.owned k hk (heq ▸ hmem)
    exact ⟨Function.update_of_ne hne .., howned ▸ ho.owned k hk⟩
  · rcases eq_or_ne k l with rfl | hne
    · rw [Function.update_self] at hk
      rcases howner with ⟨rfl, -⟩ | ⟨rfl, -⟩
      · exact absurd (Option.some.inj hk).symm hj
      · exact absurd hk nofun
    · rwa [Function.update_of_ne hne] at hk

omit [DecidableEq ι] in
/-- `lk->cpu = mycpu()` -/
theorem LocksOf.own {others : κ → Prop} {l : κ} (h : LocksOf i c lock) (ho : Apart c lock others)
    (hp : c.frame.place = .acquireOwn l) :
    Moves i others lock (c.tookLock l) (Function.update lock l { lock l with cpu := some i }) := by
  refine h.rename ho ?_ ?_ (fun k hk => ?_) (Or.inl ⟨rfl, rfl⟩) rfl rfl
  · rw [owned_eq hp]
    rfl
  · rw [owned_eq hp]
    exact List.mem_cons_self ..
  · rw [hp] at hk
    exact (Option.some.inj hk).symm

omit [DecidableEq ι] in
/-- `lk->cpu = 0` -/
theorem LocksOf.disown {others : κ → Prop} {l : κ} (h : LocksOf i c lock) (ho : Apart c lock others)
    (hp : c.frame.place = .releaseDisown l) :
    Moves i others lock (c.goto (.releaseUnlock l)) (Function.update lock l { lock l with cpu := none }) := by
  refine h.rename ho ?_ ?_ (fun k hk => ?_) (Or.inr ⟨rfl, rfl⟩) rfl rfl
  · rw [owned_eq hp]
    rfl
  · rw [owned_eq hp]
    exact List.mem_cons_self ..
  · rw [hp] at hk
    exact absurd hk nofun

omit [DecidableEq ι] in
/-- `__sync_lock_release` frees the lock. -/
theorem LocksOf.unlock {others : κ → Prop} {l : κ} (h : LocksOf i c lock) (ho : Apart c lock others)
    (hp : c.frame.place = .releaseUnlock l) :
    Moves i others lock (c.goto .popCheck) (Function.update lock l { lock l with locked := false }) := by
  have howned : c.owned = l :: (c.goto .popCheck).owned := by rw [owned_goto, owned_eq hp]; rfl
  have hnodup := h.nodup
  rw [howned, List.nodup_cons] at hnodup
  have hcpu : ∀ k, (Function.update lock l { lock l with locked := false } k).cpu = (lock k).cpu := by
    intro k
    rcases eq_or_ne k l with rfl | hk
    · rw [Function.update_self]
    · rw [Function.update_of_ne hk]
  have hold : ∀ k ∈ (c.goto .popCheck).owned, k ≠ l ∧ k ∈ c.owned := fun k hk =>
    ⟨fun heq => hnodup.1 (heq ▸ hk), howned ▸ List.mem_cons_of_mem _ hk⟩
  refine ⟨⟨hnodup.2, fun k hk => ?_, fun k hk => ?_, fun k hk => ?_, nofun, h.below⟩, fun k hk => ?_,
    fun k j _ hj => (hcpu k).symm.trans hj⟩
  · rw [Function.update_of_ne (hold k hk).1]
    exact h.locked k (hold k hk).2
  · refine Or.inl ((hcpu k).trans ((h.named k (hold k hk).2).resolve_right fun he => ?_))
    rw [hp] at he
    exact (hold k hk).1 (Option.some.inj he).symm
  · obtain ⟨hmem, hne⟩ := h.cpu k ((hcpu k).symm.trans hk)
    rw [howned, List.mem_cons] at hmem
    refine ⟨hmem.resolve_left fun heq => hne ?_, nofun⟩
    rw [hp, heq]
    rfl
  · have hnot := ho.owned k hk
    rw [howned, List.mem_cons, not_or] at hnot
    exact ⟨Function.update_of_ne hnot.1 .., hnot.2⟩

/-- **A statement** keeps the locks right. -/
theorem LocksOf.exec {others : κ → Prop} (h : LocksOf i c lock) (ho : Apart c lock others) :
    Moves i others lock (exec i c lock).1 (exec i c lock).2 := by
  rcases c with ⟨enabled, noff, interruptOn, inkernelTrap, ⟨place, depth, held⟩, below⟩
  have stay : Moves i others lock
      ⟨enabled, noff, interruptOn, inkernelTrap, ⟨place, depth, held⟩, below⟩ lock :=
    ⟨h, fun l hl => ⟨rfl, ho.owned l hl⟩, fun _ _ _ hj => hj⟩
  cases place with
  | idle => exact stay
  | pushRead next => exact h.keep ho (List.Perm.refl _) rfl rfl h.wants h.below
  | pushOff old next => exact h.keep ho (List.Perm.refl _) rfl rfl h.wants h.below
  | pushSave old next =>
    change Moves i others lock (Cpu.goto (if noff = 0 then _ else _) _) lock
    split_ifs
    · exact h.keep ho (List.Perm.refl _) rfl rfl h.wants h.below
    · exact h.keep ho (List.Perm.refl _) rfl rfl h.wants h.below
  | pushCount next =>
    cases next with
    | none => exact h.keep ho (List.Perm.refl _) rfl rfl nofun h.below
    | some l => exact h.keep ho (List.Perm.refl _) rfl rfl h.wants h.below
  | acquireCheck l =>
    have hno : ¬ holding i (lock l) := fun hold => h.wants l rfl (h.cpu l hold.2).1
    change Moves i others lock (Cpu.goto _ (if holding i (lock l) then _ else _)) lock
    rw [if_neg hno]
    exact h.keep ho (List.Perm.refl _) rfl rfl h.wants h.below
  | acquireSwap l =>
    unfold exec
    dsimp only
    split_ifs with hlocked
    · exact stay
    · exact h.swap ho rfl (Bool.eq_false_iff.mpr hlocked)
  | acquireOwn l => exact h.own ho rfl
  | releaseCheck l =>
    have hmem : l ∈ (⟨enabled, noff, interruptOn, inkernelTrap, ⟨.releaseCheck l, depth, held⟩, below⟩ :
        Cpu κ).owned := List.mem_cons_self ..
    have hold : holding i (lock l) := ⟨h.locked l hmem, (h.named l hmem).resolve_right nofun⟩
    change Moves i others lock (Cpu.goto _ (if holding i (lock l) then _ else _)) lock
    rw [if_pos hold]
    exact h.keep ho (List.Perm.refl _) rfl rfl nofun h.below
  | releaseDisown l => exact h.disown ho rfl
  | releaseUnlock l => exact h.unlock ho rfl
  | popCheck =>
    change Moves i others lock (Cpu.goto _ (if enabled = true ∨ noff < 1 then _ else _)) lock
    split_ifs
    · exact h.keep ho (List.Perm.refl _) rfl rfl nofun h.below
    · exact h.keep ho (List.Perm.refl _) rfl rfl nofun h.below
  | popCount => exact h.keep ho (List.Perm.refl _) rfl rfl nofun h.below
  | popRestore =>
    unfold exec
    dsimp only
    split_ifs
    · exact h.keep ho (List.Perm.refl _) rfl rfl nofun h.below
    · exact h.keep ho (List.Perm.refl _) rfl rfl nofun h.below
    · exact h.keep ho (List.Perm.refl _) rfl rfl nofun h.below
  | panicked => exact stay

/-- **The invariant of the locks**: each is one cpu's. -/
structure Locks (s : Sys ι κ) : Prop where
  of : ∀ i, LocksOf i (s.cpu i) s.lock
  excl : ∀ i j l, l ∈ (s.cpu i).owned → l ∈ (s.cpu j).owned → i = j

omit [DecidableEq κ] in
theorem set_self (i : ι) (c : Cpu κ) : (s.set i c lock).cpu i = c := Function.update_self ..

omit [DecidableEq κ] in
theorem set_of_ne {j : ι} (hj : j ≠ i) (c : Cpu κ) : (s.set i c lock).cpu j = s.cpu j :=
  Function.update_of_ne hj ..

omit [DecidableEq κ] in
/-- A step of one cpu keeps the locks of all right. -/
theorem Locks.move {c' : Cpu κ} (h : Locks s) (hm : ∀ others, Apart (s.cpu i) s.lock others →
    Moves i others s.lock c' lock) : Locks (s.set i c' lock) := by
  have hapart : Apart (s.cpu i) s.lock fun l => ∃ j ≠ i, l ∈ (s.cpu j).owned :=
    ⟨fun l ⟨j, _, hl⟩ => (h.of j).locked l hl, fun l ⟨j, hj, hl⟩ hi => hj (h.excl j i l hl hi)⟩
  obtain ⟨hof, hothers, hname⟩ := hm _ hapart
  constructor
  · intro j
    rcases eq_or_ne j i with rfl | hj
    · rw [set_self]
      exact hof
    · rw [set_of_ne hj]
      have hlock : ∀ l ∈ (s.cpu j).owned, lock l = s.lock l := fun l hl => (hothers l ⟨j, hj, hl⟩).1
      refine ⟨(h.of j).nodup, fun l hl => ?_, fun l hl => ?_, fun l hl => ?_, (h.of j).wants,
        (h.of j).below⟩
      · change (lock l).locked = true
        rw [hlock l hl]
        exact (h.of j).locked l hl
      · change (lock l).cpu = some j ∨ _
        rw [hlock l hl]
        exact (h.of j).named l hl
      · exact (h.of j).cpu l (hname l j hj hl)
  · intro j k l hlj hlk
    rcases eq_or_ne j i with rfl | hj
    · rcases eq_or_ne k j with rfl | hk
      · rfl
      · rw [set_self] at hlj
        rw [set_of_ne hk] at hlk
        exact absurd hlj (hothers l ⟨k, hk, hlk⟩).2
    · rw [set_of_ne hj] at hlj
      rcases eq_or_ne k i with rfl | hk
      · rw [set_self] at hlk
        exact absurd hlk (hothers l ⟨j, hj, hlj⟩).2
      · rw [set_of_ne hk] at hlk
        exact h.excl j k l hlj hlk

/-! ### Panics -/

/-- **No statement panics**, unless interrupts were enabled with `inkernel_trap` set. -/
theorem exec_calm (h : Good b₀ k₀ c) (hl : LocksOf i c lock) (hcalm : ¬ (b₀ = true ∧ k₀ = true))
    (hp : c.frame.place ≠ .panicked) : (exec i c lock).1.frame.place ≠ .panicked := by
  obtain ⟨b, hb, hcalls⟩ : ∃ b, (b = true → c.inkernelTrap = false) ∧ Calls b c := by
    rcases h with ⟨-, h2, h3⟩ | ⟨-, -, -, -, -, h3⟩
    · refine ⟨b₀, fun hb => ?_, h3⟩
      rw [h2]
      exact Bool.eq_false_iff.mpr fun hk => hcalm ⟨hb, hk⟩
    · exact ⟨false, nofun, h3⟩
  rcases c with ⟨enabled, noff, interruptOn, inkernelTrap, ⟨place, depth, held⟩, below⟩
  cases place with
  | pushCount next =>
    cases next with
    | none => exact nofun
    | some l => exact nofun
  | acquireCheck l =>
    have hno : ¬ holding i (lock l) := fun hold => hl.wants l rfl (hl.cpu l hold.2).1
    change (if holding i (lock l) then _ else _) ≠ _
    rw [if_neg hno]
    exact nofun
  | acquireSwap l =>
    unfold exec
    dsimp only
    split_ifs
    all_goals exact nofun
  | releaseCheck l =>
    have hmem : l ∈ (⟨enabled, noff, interruptOn, inkernelTrap, ⟨.releaseCheck l, depth, held⟩, below⟩ :
        Cpu κ).owned := List.mem_cons_self ..
    have hold : holding i (lock l) := ⟨hl.locked l hmem, (hl.named l hmem).resolve_right nofun⟩
    change (if holding i (lock l) then _ else _) ≠ _
    rw [if_pos hold]
    exact nofun
  | popCheck =>
    have hoff : enabled = false := hcalls.enabled
    have hnoff : noff = depth + 1 := hcalls.noff
    change (if enabled = true ∨ noff < 1 then _ else _) ≠ _
    rw [if_neg (by rw [hoff]; rintro (hon | hlt); exacts [absurd hon nofun, by omega])]
    exact nofun
  | popRestore =>
    have hsaved : interruptOn = b := hcalls.saved
    unfold exec
    dsimp only
    split_ifs with hlast htrap
    · have hfalse : inkernelTrap = false := hb (hsaved ▸ hlast.2)
      rw [hfalse] at htrap
      exact absurd htrap nofun
    · exact nofun
    · exact nofun
  | panicked => exact absurd rfl hp
  | _ => exact nofun

omit [DecidableEq ι] [DecidableEq κ] in
theorem interrupt_calm (h : Good b₀ k₀ c) (hon : c.enabled = true) (hcalm : ¬ (b₀ = true ∧ k₀ = true)) :
    (interrupt c).frame.place ≠ .panicked := by
  have htrap : c.inkernelTrap = false := by
    rcases h with ⟨-, h2, h3⟩ | ⟨-, -, -, -, -, h3⟩
    · rw [h2]
      exact Bool.eq_false_iff.mpr fun hk => hcalm ⟨(h3.resting hon).1, hk⟩
    · exact absurd (h3.resting hon).1 nofun
  unfold interrupt
  rw [htrap]
  exact nofun

/-! ### The system -/

/-- Interrupts before the first `push_off`. -/
def flag (c : Cpu κ) : Bool := if c.noff = 0 then c.enabled else c.interruptOn

/-- Each cpu is between two calls, in any state that such a cpu may be in, and the locks are free. -/
structure Starts (s : Sys ι κ) : Prop where
  frame : ∀ i, (s.cpu i).frame.place = .idle ∧ (s.cpu i).frame.held = [] ∧ (s.cpu i).below = []
  noff : ∀ i, (s.cpu i).noff = (s.cpu i).frame.depth
  off : ∀ i, 0 < (s.cpu i).frame.depth → (s.cpu i).enabled = false
  free : ∀ l, s.lock l = ⟨false, none⟩

/-- The start has interrupts off, or no `inkernel_trap`. -/
def Calm (c : Cpu κ) : Prop := ¬ (flag c = true ∧ c.inkernelTrap = true)

/-- **The invariant.** -/
structure Inv (s₀ s : Sys ι κ) : Prop where
  good : ∀ i, Good (flag (s₀.cpu i)) (s₀.cpu i).inkernelTrap (s.cpu i)
  locks : Locks s
  calm : ∀ i, Calm (s₀.cpu i) → (s.cpu i).frame.place ≠ .panicked

variable {s₀ : Sys ι κ}

omit [DecidableEq ι] [DecidableEq κ] in
theorem Starts.inv (h : Starts s) : Inv s s := by
  have howned : ∀ i, (s.cpu i).owned = [] := fun i => by
    obtain ⟨hp, hheld, hbelow⟩ := h.frame i
    rw [owned_eq hp, hheld, hbelow]
    rfl
  refine ⟨fun i => .main (h.frame i).2.2 rfl ?_, ⟨fun i => ?_, fun i j l hl => ?_⟩, fun i _ => ?_⟩
  · have hrest : Rest (flag (s.cpu i)) (s.cpu i) := by
      have hnoff := h.noff i
      refine ⟨hnoff, fun h0 => ?_, fun hpos => ⟨h.off i hpos, ?_⟩⟩
      · exact (if_pos (by omega)).symm
      · exact (if_neg (by omega)).symm
    unfold Calls
    rw [(h.frame i).1]
    exact hrest
  · refine ⟨by rw [howned]; exact List.nodup_nil, fun l hl => ?_, fun l hl => ?_, fun l hl => ?_,
      fun l hl => ?_, fun g hg => ?_⟩
    · rw [howned] at hl
      exact absurd hl List.not_mem_nil
    · rw [howned] at hl
      exact absurd hl List.not_mem_nil
    · rw [h.free] at hl
      exact absurd hl nofun
    · rw [(h.frame i).1] at hl
      exact absurd hl nofun
    · rw [(h.frame i).2.2] at hg
      exact absurd hg List.not_mem_nil
  · rw [howned] at hl
    exact absurd hl List.not_mem_nil
  · rw [(h.frame i).1]
    exact nofun

omit [DecidableEq κ] in
/-- A step of one cpu. -/
theorem Inv.move {c' : Cpu κ} (h : Inv s₀ s)
    (hgood : Good (flag (s₀.cpu i)) (s₀.cpu i).inkernelTrap c')
    (hlocks : ∀ others, Apart (s.cpu i) s.lock others → Moves i others s.lock c' lock)
    (hcalm : Calm (s₀.cpu i) → c'.frame.place ≠ .panicked) : Inv s₀ (s.set i c' lock) := by
  refine ⟨fun j => ?_, h.locks.move hlocks, fun j hj => ?_⟩
  · rcases eq_or_ne j i with rfl | hne
    · rw [set_self]
      exact hgood
    · rw [set_of_ne hne]
      exact h.good j
  · rcases eq_or_ne j i with rfl | hne
    · rw [set_self]
      exact hcalm hj
    · rw [set_of_ne hne]
      exact h.calm j hj

omit [DecidableEq κ] in
theorem depth_le (c : Cpu κ) : c.frame.depth ≤ c.depth := Nat.le_add_right ..

omit [DecidableEq ι] [DecidableEq κ] in
theorem Resting.places (h : Resting g) :
    g.place.lock = [] ∧ g.place.unnamed = none ∧ g.place ≠ .panicked := by
  obtain hp | ⟨next, hp⟩ | ⟨next, hp⟩ := h.place
  · rw [hp]
    exact ⟨rfl, rfl, nofun⟩
  · rw [hp]
    exact ⟨rfl, rfl, nofun⟩
  · rw [hp]
    exact ⟨rfl, rfl, nofun⟩

omit [DecidableEq ι] [DecidableEq κ] in
/-- An interrupt leaves the locks to the thread that it finds. -/
theorem LocksOf.interrupt {others : κ → Prop} (h : LocksOf i c lock) (ho : Apart c lock others)
    (hgood : Good b₀ k₀ c) (hon : c.enabled = true) : Moves i others lock (interrupt c) lock := by
  obtain ⟨hbelow, hrest⟩ : c.below = [] ∧ Resting c.frame := by
    rcases hgood with ⟨h1, -, h3⟩ | ⟨-, -, -, -, -, h3⟩
    · exact ⟨h1, (h3.resting hon).2.2⟩
    · exact absurd (h3.resting hon).1 nofun
  obtain ⟨hlock, hu, -⟩ := hrest.places
  unfold Nesting.interrupt
  split_ifs
  · refine h.keep ho ?_ hu rfl nofun h.below
    rw [owned_goto, owned_eq rfl, hlock]
    exact .refl _
  · refine h.keep ho (.refl _) hu rfl nofun fun g hg l hl => ?_
    rw [hbelow, List.mem_singleton] at hg
    rw [hg] at hl
    exact h.wants l hl

omit [DecidableEq ι] [DecidableEq κ] in
/-- A handler ends without a lock. -/
theorem LocksOf.sret {others : κ → Prop} (h : LocksOf i c lock) (ho : Apart c lock others)
    (hgood : Good b₀ k₀ c) (hp : c.frame.place = .idle) (hheld : c.frame.held = [])
    (hbelow : c.below = g :: below) : Moves i others lock (sret c g below) lock := by
  obtain ⟨hnil, hrest⟩ : below = [] ∧ Resting g := by
    rcases hgood with ⟨h1, -, -⟩ | ⟨h1, hg, -, -, -, -⟩
    · rw [h1] at hbelow
      exact absurd hbelow nofun
    · rw [h1] at hbelow
      obtain ⟨rfl, rfl⟩ := List.cons.inj hbelow
      exact ⟨rfl, hg⟩
  have howned : c.owned = (g :: below).flatMap Frame.owned := by
    rw [owned_eq hp, hheld, hbelow]
    rfl
  have hbelow' := h.below g (hbelow ▸ List.mem_cons_self ..)
  rw [hbelow] at hbelow'
  refine h.keep ho (howned ▸ .refl _) (by rw [hp]; rfl) hrest.places.2.1 hbelow' fun g' hg' => ?_
  change g' ∈ below at hg'
  rw [hnil] at hg'
  exact absurd hg' List.not_mem_nil

/-- **One step** keeps the invariant, up to the depth that an `int` can count. -/
theorem Inv.step (h : Inv s₀ s) (hstep : Step s i s') (hd : (s'.cpu i).depth < 2 ^ 31) : Inv s₀ s' := by
  have hof := h.locks.of i
  have hgood := h.good i
  have idle : (s.cpu i).frame.place = .idle → (s.cpu i).frame.place.unnamed = none := fun hp => by
    rw [hp]
    rfl
  cases hstep with
  | push _ hp =>
    refine h.move (hgood.mono rfl rfl fun b hc => hc.push hp none) (fun others ho => ?_) fun _ => nofun
    exact hof.keep ho (by rw [owned_eq hp]; exact .refl _) (idle hp) rfl nofun hof.below
  | acquire _ l hp hl =>
    refine h.move (hgood.mono rfl rfl fun b hc => hc.push hp _) (fun others ho => ?_) fun _ => nofun
    have howned : ((s.cpu i).goto (.pushRead (some l))).owned = (s.cpu i).owned := by
      rw [owned_eq hp]
      rfl
    refine hof.keep ho (howned ▸ .refl _) (idle hp) rfl (fun k hk => ?_) hof.below
    obtain rfl : l = k := Option.some.inj hk
    rw [howned]
    exact hl
  | pop _ hp hdepth =>
    refine h.move (hgood.mono rfl rfl fun b hc => hc.pop hp hdepth (Or.inl rfl)) (fun others ho => ?_)
      fun _ => nofun
    exact hof.keep ho (by rw [owned_eq hp]; exact .refl _) (idle hp) rfl nofun hof.below
  | release _ l hp hdepth hl =>
    refine h.move (hgood.mono rfl rfl fun b hc => hc.pop hp hdepth (Or.inr ⟨l, rfl⟩))
      (fun others ho => ?_) fun _ => nofun
    refine hof.keep ho ?_ (idle hp) rfl nofun hof.below
    rw [owned_eq hp]
    exact (List.perm_cons_erase hl).symm.append_right _
  | exec _ =>
    obtain ⟨hbelow, htrap⟩ := exec_frames i (s.cpu i) s.lock
    rw [set_self] at hd
    have hframe := lt_of_le_of_lt (depth_le _) hd
    refine h.move (hgood.mono hbelow htrap fun b hc => hc.exec hframe) (fun others ho => hof.exec ho)
      fun hcalm => ?_
    exact exec_calm hgood hof hcalm (h.calm i hcalm)
  | interrupt _ hon hp =>
    exact h.move (hgood.interrupted hon) (fun others ho => hof.interrupt ho hgood hon)
      fun hcalm => interrupt_calm hgood hon hcalm
  | @sret g below _ hp hdepth hheld hbelow =>
    refine h.move (hgood.returned hp hdepth hbelow) (fun others ho => hof.sret ho hgood hp hheld hbelow)
      fun _ => ?_
    rcases hgood with ⟨h1, -, -⟩ | ⟨h1, hg, -, -, -, -⟩
    · rw [h1] at hbelow
      exact absurd hbelow nofun
    · rw [h1] at hbelow
      obtain ⟨rfl, rfl⟩ := List.cons.inj hbelow
      exact hg.places.2.2

/-- A step after which no nesting depth is more than an `int` can count. -/
def Counted (s : Sys ι κ) (i : ι) (s' : Sys ι κ) : Prop :=
  Step s i s' ∧ ∀ j, (s'.cpu j).depth < 2 ^ 31

/-- **Every run** keeps the invariant. -/
theorem inv_run {l : List ι} (h : Starts s₀) (hrun : Run Counted s₀ l s) : Inv s₀ s :=
  hrun.invariant h.inv fun _ i _ hi hstep => hi.step hstep.1 (hstep.2 i)

/-! ### Nesting -/

/-- **Interrupts are off while the depth is positive, `noff` is the depth, and at depth 0 interrupts are
what they were before**; for a handler they were off. No call panics, unless the cpu started with
interrupts enabled in the middle of a trap. -/
theorem nesting_restored {l : List ι} (h : Starts s₀) (hrun : Run Counted s₀ l s) (i : ι) :
    (0 < (s.cpu i).depth → (s.cpu i).enabled = false) ∧
    ((s.cpu i).frame.place = .idle → (s.cpu i).noff = (s.cpu i).depth ∧
      ((s.cpu i).depth = 0 → (s.cpu i).enabled =
        if (s.cpu i).below = [] then flag (s₀.cpu i) else false)) ∧
    (Calm (s₀.cpu i) → (s.cpu i).frame.place ≠ .panicked) := by
  have hinv := inv_run h hrun
  have hgood := hinv.good i
  refine ⟨fun hpos => Bool.eq_false_iff.mpr fun hon => ?_, fun hp => ⟨?_, fun h0 => ?_⟩, hinv.calm i⟩
  · obtain ⟨b, hcalls⟩ := hgood.calls
    have hrest := hcalls.resting hon
    rw [hgood.depth_eq, hrest.2.2.depth] at hpos
    exact absurd hpos nofun
  · obtain ⟨b, hcalls⟩ := hgood.calls
    rw [hgood.depth_eq]
    exact (hcalls.rest hp).noff
  · rw [hgood.depth_eq] at h0
    rcases hgood with ⟨h1, -, h3⟩ | ⟨h1, -, -, -, -, h3⟩
    · rw [if_pos h1]
      exact (h3.rest hp).out h0
    · rw [if_neg (by rw [h1]; exact nofun)]
      exact (h3.rest hp).out h0

/-- A cpu with interrupts enabled, between two calls. -/
def quietCpu : Cpu Unit := ⟨true, 0, false, false, ⟨.idle, 0, []⟩, []⟩

def quietSys : Sys Unit Unit := ⟨fun _ => quietCpu, fun _ => ⟨false, none⟩⟩

theorem quiet_starts : Starts quietSys :=
  ⟨fun _ => ⟨rfl, rfl, rfl⟩, fun _ => rfl, fun _ => nofun, fun _ => rfl⟩

/-- A handler comes between the two halves of `push_off`. -/
theorem nesting_restored_sample : ∃ l s, Run Counted quietSys l s ∧ (s.cpu ()).below ≠ [] ∧
    (s.cpu ()).enabled = false := by
  have hrun : Run Counted quietSys _ _ := ((Run.single ⟨Step.push () rfl, fun () => by decide⟩).tail
    ⟨Step.exec (), fun () => by decide⟩).tail ⟨Step.interrupt () rfl nofun, fun () => by decide⟩
  refine ⟨_, _, hrun, nofun, ?_⟩
  exact ((nesting_restored quiet_starts hrun ()).2.1 rfl).2 rfl

/-! ### The depth that an `int` can count -/

theorem exec_set (i : ι) (c : Cpu κ) (lock : κ → Lock ι) :
    Step (s.set i c lock) i (s.set i (exec i c lock).1 (exec i c lock).2) := by
  have hstep := Step.exec (s := s.set i c lock) i
  rw [set_self] at hstep
  unfold Sys.set at *
  rw [Function.update_idem] at hstep
  exact hstep

/-- `push_off` is called, and returns. -/
theorem push_returns (hp : (s.cpu i).frame.place = .idle) : ∃ l s', Run Step s l s' ∧
    (s'.cpu i).noff = inc (s.cpu i).noff ∧ (s'.cpu i).below = (s.cpu i).below ∧
    (s'.cpu i).frame = ⟨.idle, (s.cpu i).frame.depth + 1, (s.cpu i).frame.held⟩ := by
  have hcall : Run Step s _ _ := Run.single (Step.push i hp)
  have hread := hcall.tail (exec_set i _ _)
  have hoff := hread.tail (exec_set i _ _)
  have hsave := hoff.tail (exec_set i _ _)
  have hcount := hsave.tail (exec_set i _ _)
  refine ⟨_, _, hcount, ?_⟩
  rw [set_self]
  by_cases h0 : (s.cpu i).noff = 0
  · refine ⟨?_, ?_, ?_⟩
    all_goals simp [exec, Cpu.goto, Cpu.took, h0]
  · refine ⟨?_, ?_, ?_⟩
    all_goals simp [exec, Cpu.goto, Cpu.took, h0]

/-- **`noff` overflows**: after 2 ^ 31 calls of `push_off` it is negative. -/
theorem noff_overflows : ∃ l s, Run Step quietSys l s ∧ (s.cpu ()).frame.place = .idle ∧
    (s.cpu ()).depth = 2 ^ 31 ∧ (s.cpu ()).noff = -2 ^ 31 := by
  have hruns : ∀ n : ℕ, ∃ l s, Run Step quietSys l s ∧ (s.cpu ()).noff = Int.bmod n (2 ^ 32) ∧
      (s.cpu ()).below = [] ∧ (s.cpu ()).frame = ⟨.idle, n, []⟩ := by
    intro n
    induction n with
    | zero => exact ⟨_, _, Run.refl, rfl, rfl, rfl⟩
    | succ n ih =>
      obtain ⟨l, s, hrun, hnoff, hbelow, hframe⟩ := ih
      obtain ⟨l', s', hrun', hnoff', hbelow', hframe'⟩ := @push_returns _ _ _ _ s () (by rw [hframe])
      refine ⟨_, s', hrun.trans hrun', ?_, hbelow'.trans hbelow, by rw [hframe', hframe]⟩
      rw [hnoff', hnoff]
      unfold inc
      rw [Int.bmod_add_bmod]
      rfl
  obtain ⟨l, s, hrun, hnoff, hbelow, hframe⟩ := hruns (2 ^ 31)
  refine ⟨l, s, hrun, by rw [hframe], ?_, hnoff.trans (by decide)⟩
  unfold Cpu.depth
  rw [hbelow, hframe]
  rfl

end UCore.Trap.Nesting

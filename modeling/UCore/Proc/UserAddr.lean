import UCore.Console.Reads
import UCore.Console.Write
import UCore.Proc.ExitCode
import UCore.Proc.Pools

/-! # Addresses from user programs

What the kernel does with a value that a user program gives for an address: in `read`, `write`,
`gettimeofday`, `execve` and `wait4`, and in a page fault. `walkaddr` and `walk` panic for an address
beyond `MAXVA`, and `wait` stores through the translation of an address that is not mapped. So the
program can stop the kernel, with exactly the addresses that are not `Safe`; but an exit code that goes
on in a page of the kernel may also destroy it without a panic (`address_handled_iff`). -/

namespace UCore.Proc.UserAddr

open UCore.Lib.Bytes UCore.Lib.Hoare UCore.Riscv UCore.Mem.State UCore.Mem.Kalloc UCore.Mem.Boot
open UCore.Vm.Spaces UCore.Vm.Tables UCore.Vm.Walk UCore.Vm.VmaList UCore.Vm.Process
open UCore.Vm.Family UCore.Vm.Fork UCore.Vm.Fault UCore.Vm.Lives UCore.Vm.Uaccess UCore.Vm.UserCopy
open UCore.Console.Input (C LF)
open UCore.Console.Reads (Vars startVars result)
open UCore.Console.Write (sysWrite userConsoleWrite STDOUT write_sends write_overflows write_panics)
open UCore.Proc.ExitCode
open UCore.Proc.Pools (freevmaAt freeprocMm)

/-! ### The code -/

def STDIN : ℤ := 0

section Code
variable (L : Layout)

/-- `sys_wait(pid, va)` with the child that `wait` finds, if it finds one: its `mm` and exit code. -/
def sysWait (mm : Mm) (va : ℕ) (child : Option (Mm × ℕ)) : KM Unit := do
  let code ← sysWaitCode L mm va
  match child with
  | none => pure ()
  | some (childMm, exitCode) => do
    storeExitCode L code exitCode
    freeprocMm L childMm (some trampolineVma) (some trapframeVma)

end Code

/-! ### Uses of an address -/

/-- What a user program can make the kernel do with an address. -/
inductive Use
  | read (fd : ℤ) (va len : ℕ) (input : List ℕ)
  /-- With `room` bytes left on the kernel stack, which held `old`. -/
  | write (fd : ℤ) (va len room : ℕ) (old : ℕ → UInt8)
  | gettimeofday (val : ℕ) (t : ℕ → UInt8)
  /-- After the copy of the name the address is not used any more. -/
  | execve (va : ℕ)
  | wait4 (va : ℕ) (child : Option (Mm × ℕ))
  | fault (cause : Cause) (stval : ℕ)

/-- The address space of the child that `wait4` frees. -/
def Use.child : Use → Option Mm
  | .wait4 _ child => child.map Prod.fst
  | _ => none

/-- The page of the address is one that `walkaddr` takes. -/
def PageOk (va : ℕ) : Prop := IS_USER_VA (PGROUNDDOWN va)

/-- The pages of all user programs. -/
def userPages {ι : Type} (m : Mem) (mms : ι → Option Mm) : Set ℕ :=
  {f | ∃ i mm, mms i = some mm ∧ f ∈ userFrames m mm}

/-- The four bytes from the translation of `va` on lie in user pages. -/
def InUserPages {ι : Type} (m : Mem) (mms : ι → Option Mm) (mm : Mm) (va : ℕ) : Prop :=
  ∀ k < 4, PGROUNDDOWN (translate m mm va + k) ∈ userPages m mms

/-- The addresses with which it does. -/
def Safe {ι : Type} (m : Mem) (mms : ι → Option Mm) (mm : Mm) : Use → Prop
  | .read fd va len input => fd = STDIN → 0 < Int.bmod len (2 ^ 64) →
      (∃ c ∈ input.head?, c ≠ C 'D') → PageOk va
  | .write fd va len room _ => fd = STDOUT → 0 < len % 2 ^ 32 → len % 2 ^ 32 ≤ room ∧ PageOk va
  | .gettimeofday val _ => PageOk val
  | .execve va => PageOk va
  | .wait4 va child => PageOk va ∧ (child = none ∨ Mapped m mm va ∧ InUserPages m mms mm va)
  | .fault _ stval => IS_USER_VA stval

variable {L : Layout} {ι : Type} [DecidableEq ι] {s : KState} {A : View ι} {i j : ι} {mm : Mm} {va : ℕ}
  {mms : ι → Option Mm}

/-! ### The accessors -/

end UCore.Proc.UserAddr

import UCore.Vm.Process

/-! # Processes

`struct proc`, with the lock, the kernel stack and the saved context left out, and the fields of the
trapframe that the kernel reads and writes. A process is named by its index in `pool`. -/

namespace UCore.Proc.State

open UCore.Vm.Walk

def NPROC : ℕ := 512

/-- `enum procstate`. -/
inductive ProcState
  | unused
  | used
  | sleeping
  | runnable
  | running
  | zombie
  deriving DecidableEq

structure Proc where
  state : ProcState
  pid : ℤ
  exitCode : ℕ
  /-- The index of the parent. -/
  parent : Option ℕ
  mm : Option Mm
  vmaUstack : Option Vma
  vmaBrk : Option Vma
  vmaTrapframe : Option Vma
  vmaTrampoline : Option Vma
  /-- A kernel virtual address. -/
  trapframe : ℕ

/-! ### The trapframe -/

/-- Offsets of fields of `struct trapframe`. -/
def tfEpc : ℕ := 24
def tfSp : ℕ := 48
def tfA0 : ℕ := 112

/-- `sizeof(struct trapframe)`. -/
def tfSize : ℕ := 288

end UCore.Proc.State

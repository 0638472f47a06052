import Mathlib.Logic.Function.Basic
import Mathlib.Logic.Relation
import Mathlib.Tactic.Common

/-! # Starting the cpus

`main.c` from `bootcpu_entry` to `scheduler`, on all harts of the machine. The boot hart makes the page
tables, starts the other harts one after the other by calls of the firmware, which accepts or refuses,
and waits for each to come online before it starts the next; then it initializes the platform while the
others wait. A step is a statement that other harts can see, of any hart; `booted_count++` is a read and a
write.

The harts share one boot stack, the relocation page table, and `booted_count`, without any lock. -/

namespace UCore.Smp.Start

/-! ### The code -/

/-- The functions of the initialization. -/
inductive Init
  | trapInit | consoleInit | plicinit | kpgmgrinit | uvmInit | procInit | loaderInit | loadInitApp
  | timerInit | plicinithart
  deriving DecidableEq

/-- The calls of `bootcpu_init` before `halt_specific_init = 1`. -/
def platformInits : List Init :=
  [.trapInit, .consoleInit, .plicinit, .kpgmgrinit, .uvmInit, .procInit, .loaderInit, .loadInitApp,
    .timerInit, .plicinithart]

/-- The calls of `secondarycpu_init` before `scheduler`. -/
def haltInits : List Init := [.trapInit, .timerInit, .plicinithart]

/-- What a hart does next; the local variables of its function. -/
inductive Place
  | stopped
  /-- `bootcpu_entry`: clear the `.bss`, `w_tp(0)`, and the fields of `mycpu()`. -/
  | bootcpuEntry
  /-- `bootcpu_start_relocation`: make the page table, `w_satp`, and jump. -/
  | bootcpuStartRelocation
  /-- `kvm_init()` in `bootcpu_relocating`. -/
  | kvmInit
  /-- `mv sp, mycpu()->sched_kstack_top`, and the jump to `bootcpu_init`. -/
  | bootcpuJump
  /-- `for (..; hartid < NCPU; ..) if (hartid == mycpu()->mhart_id) continue;` -/
  | startLoop (hartid cpuid : ℕ)
  /-- `int ret = sbi_hsm_hart_start(hartid, .., cpuid);` -/
  | hartStart (hartid cpuid savedBootedCnt : ℕ)
  /-- `while (booted_count == saved_booted_cnt);` -/
  | waitBooted (hartid cpuid savedBootedCnt : ℕ)
  /-- `memset(relocate_pagetable, 0xde, PGSIZE);` and the other three. -/
  | scrub
  /-- The calls up to `halt_specific_init = 1`. -/
  | platformInit (todo : List Init)
  /-- `secondarycpu_entry(hartid, cpuid)`: `w_tp(cpuid)`. -/
  | secondarycpuEntry (cpuid : ℕ)
  /-- The fields of `getcpu(cpuid)`. -/
  | nameCpu (cpuid : ℕ)
  /-- `w_satp(MAKE_SATP(relocate_pagetable));` and the jump. -/
  | useRelocate
  /-- `w_satp(MAKE_SATP(KVA_TO_PA(kernel_pagetable)));` -/
  | useKernel
  /-- `mv sp, mycpu()->sched_kstack_top`, and the jump to `secondarycpu_init`. -/
  | secondarycpuJump
  /-- `booted_count++`, the read. -/
  | countRead
  /-- `booted_count++`, the write. -/
  | countWrite (v : ℕ)
  /-- `while (!halt_specific_init);` -/
  | waitInit
  | haltInit (todo : List Init)
  | scheduler
  | panicked

inductive Satp
  | bare | relocate | kernel
  deriving DecidableEq

/-- The stack that `sp` was set to: `boot_stack`, or the one below the given top. -/
inductive Stack
  | boot
  | sched (top : ℕ)

/-- A hart: its registers, and the initializations that it has made. -/
structure Hart where
  place : Place
  tp : ℕ
  satp : Satp
  sp : Option Stack
  inits : List Init

/-- The fields of `struct cpu` that the start uses. -/
structure Cpu where
  mhartId : ℕ
  cpuid : ℕ
  schedKstackTop : ℕ

/-- The machine; `mapped` says that `relocate_pagetable` holds its mappings. -/
structure Sys where
  hart : ℕ → Hart
  cpu : ℕ → Cpu
  bootedCount : ℕ
  haltSpecificInit : Bool
  mapped : Bool

def KERNEL_STACK_SCHED : ℕ := 0xffffffffff000000
def KERNEL_STACK_SIZE : ℕ := 2 * 4096

/-- `sched_kstack_top` of cpu `i`, as `kvmmake` sets it. -/
def schedTop (i : ℕ) : ℕ := KERNEL_STACK_SCHED + i * (2 * KERNEL_STACK_SIZE) + KERNEL_STACK_SIZE

def Sys.put (s : Sys) (h : ℕ) (t : Hart) : Sys := { s with hart := Function.update s.hart h t }

/-- `mycpu()`, or `getcpu(i)`: goes on with `struct cpu` of `i`, or panics. -/
def Sys.getcpu (n : ℕ) (s : Sys) (h i : ℕ) (f : Cpu → Sys) : Sys :=
  if i < n then f (s.cpu i) else s.put h { s.hart h with place := .panicked }

/-- The next statement of hart `h`, on `n` = `NCPU` cpus. -/
def exec (n h : ℕ) (s : Sys) : Sys :=
  let t := s.hart h
  match t.place with
  | .bootcpuEntry =>
    let s := { s with cpu := fun _ => ⟨0, 0, 0⟩, bootedCount := 0, haltSpecificInit := false }
    s.getcpu n h 0 fun c =>
      { s with cpu := Function.update s.cpu 0 { c with cpuid := 0, mhartId := h } }.put h
        { t with tp := 0, place := .bootcpuStartRelocation }
  | .bootcpuStartRelocation =>
    { s with mapped := true }.put h { t with satp := .relocate, place := .kvmInit }
  | .kvmInit =>
    { s with cpu := fun i => if i < n then { s.cpu i with schedKstackTop := schedTop i } else s.cpu i
             }.put h { t with satp := .kernel, place := .bootcpuJump }
  | .bootcpuJump => s.getcpu n h t.tp fun c =>
    s.put h { t with sp := some (.sched c.schedKstackTop), place := .startLoop 0 1 }
  | .startLoop hartid cpuid =>
    if hartid < n then
      s.getcpu n h t.tp fun c =>
        if hartid = c.mhartId then s.put h { t with place := .startLoop (hartid + 1) cpuid }
        else s.put h { t with place := .hartStart hartid cpuid s.bootedCount }
    else s.put h { t with place := .scrub }
  | .waitBooted hartid cpuid savedBootedCnt =>
    if s.bootedCount = savedBootedCnt then s
    else s.put h { t with place := .startLoop (hartid + 1) (cpuid + 1) }
  | .scrub => { s with mapped := false }.put h { t with place := .platformInit platformInits }
  | .platformInit (i :: todo) =>
    s.put h { t with inits := t.inits ++ [i], place := .platformInit todo }
  | .platformInit [] => { s with haltSpecificInit := true }.put h { t with place := .scheduler }
  | .secondarycpuEntry cpuid => s.put h { t with tp := cpuid, place := .nameCpu cpuid }
  | .nameCpu cpuid => s.getcpu n h cpuid fun c =>
    { s with cpu := Function.update s.cpu cpuid { c with mhartId := h, cpuid := cpuid } }.put h
      { t with place := .useRelocate }
  | .useRelocate => s.put h { t with satp := .relocate, place := .useKernel }
  | .useKernel => s.put h { t with satp := .kernel, place := .secondarycpuJump }
  | .secondarycpuJump => s.getcpu n h t.tp fun c =>
    s.put h { t with sp := some (.sched c.schedKstackTop), place := .countRead }
  | .countRead => s.put h { t with place := .countWrite s.bootedCount }
  | .countWrite v => { s with bootedCount := v + 1 }.put h { t with place := .waitInit }
  | .waitInit => if s.haltSpecificInit then s.put h { t with place := .haltInit haltInits } else s
  | .haltInit (i :: todo) => s.put h { t with inits := t.inits ++ [i], place := .haltInit todo }
  | .haltInit [] => s.put h { t with place := .scheduler }
  | .stopped | .hartStart _ _ _ | .scheduler | .panicked => s

/-- One step: a statement of a hart, or the answer of the firmware to `sbi_hsm_hart_start`. It starts
a stopped hart, with `sp` at the boot stack and `tp` at any value, or it refuses. -/
inductive Step (n : ℕ) : Sys → Sys → Prop
  | exec {s : Sys} (h : ℕ) : Step n s (exec n h s)
  | accept {s : Sys} (h hartid cpuid saved tp : ℕ) : (s.hart h).place = .hartStart hartid cpuid saved →
    (s.hart hartid).place = .stopped →
    Step n s ((s.put hartid ⟨.secondarycpuEntry cpuid, tp, .bare, some .boot, []⟩).put h
      { s.hart h with place := .waitBooted hartid cpuid saved })
  | refuse {s : Sys} (h hartid cpuid saved : ℕ) : (s.hart h).place = .hartStart hartid cpuid saved →
    Step n s (s.put h { s.hart h with place := .startLoop (hartid + 1) cpuid })

/-- The machine when the firmware enters the kernel, on hart `b`. -/
structure Entered (b : ℕ) (s : Sys) : Prop where
  boot : (s.hart b).place = .bootcpuEntry ∧ (s.hart b).satp = .bare ∧ (s.hart b).sp = some .boot ∧
    (s.hart b).inits = []
  others : ∀ h, h ≠ b → (s.hart h).place = .stopped ∧ (s.hart h).satp = .bare ∧ (s.hart h).sp = none

def Reached (n b : ℕ) (s : Sys) : Prop := ∃ s₀, Entered b s₀ ∧ Relation.ReflTransGen (Step n) s₀ s

variable {n b h h' i : ℕ} {s s' : Sys} {t : Hart}

@[simp] theorem put_hart_self : (s.put h t).hart h = t := Function.update_self ..
theorem put_hart_of_ne (hne : h' ≠ h) : (s.put h t).hart h' = s.hart h' := Function.update_of_ne hne ..
@[simp] theorem put_cpu : (s.put h t).cpu = s.cpu := rfl
@[simp] theorem put_bootedCount : (s.put h t).bootedCount = s.bootedCount := rfl
@[simp] theorem put_haltSpecificInit : (s.put h t).haltSpecificInit = s.haltSpecificInit := rfl
@[simp] theorem put_mapped : (s.put h t).mapped = s.mapped := rfl

theorem getcpu_of_lt {f : Cpu → Sys} (hi : i < n) : s.getcpu n h i f = f (s.cpu i) := if_pos hi

/-! ### Places and stacks -/

/-- A hart that was started and has not counted itself yet. -/
def Place.inFlight : Place → Bool
  | .secondarycpuEntry _ | .nameCpu _ | .useRelocate | .useKernel | .secondarycpuJump | .countRead
  | .countWrite _ => true
  | _ => false

/-- A hart that has counted itself. -/
def Place.online : Place → Bool
  | .waitInit | .haltInit _ | .scheduler => true
  | _ => false

/-- The harts from here on are not started yet. -/
def Place.limit (n : ℕ) : Place → ℕ
  | .startLoop hartid _ | .hartStart hartid _ _ => hartid
  | .waitBooted hartid _ _ => hartid + 1
  | .scrub | .platformInit _ | .scheduler => n
  | _ => 0

/-- A secondary hart that has passed `while (!halt_specific_init);`. -/
def Place.released : Place → Bool
  | .haltInit _ | .scheduler => true
  | _ => false

/-- The statements that are left for a hart, at most; the boot hart counts those of the harts that it
may start. -/
def Place.rank (n : ℕ) : Place → ℕ
  | .bootcpuEntry => 15 * n + 17
  | .bootcpuStartRelocation => 15 * n + 16
  | .kvmInit => 15 * n + 15
  | .bootcpuJump => 15 * n + 14
  | .startLoop k _ => 15 * (n - k) + 13
  | .hartStart k _ _ => 15 * (n - (k + 1)) + 27
  | .waitBooted k _ _ => 15 * (n - (k + 1)) + 14
  | .scrub => 12
  | .platformInit todo => todo.length + 1
  | .secondarycpuEntry _ => 12
  | .nameCpu _ => 11
  | .useRelocate => 10
  | .useKernel => 9
  | .secondarycpuJump => 8
  | .countRead => 7
  | .countWrite _ => 6
  | .waitInit => 5
  | .haltInit todo => todo.length + 1
  | .stopped | .scheduler | .panicked => 0

/-- Two stacks that do not touch: between those of two cpus there is room for another. -/
def Stack.Apart : Stack → Stack → Prop
  | .boot, .boot => False
  | .sched a, .sched a' => a + KERNEL_STACK_SIZE ≤ a' - KERNEL_STACK_SIZE ∨
      a' + KERNEL_STACK_SIZE ≤ a - KERNEL_STACK_SIZE
  | _, _ => True

end UCore.Smp.Start

import UCore.Proc.ExitCode
import UCore.Proc.LoadImage

/-! # Processes as tasks

All that processes do to memory, on both levels. On the lower one are the page tables and frames that
they share: `load_init_app`, `fork`, `execve`, `freeproc`, the page-fault handler, the stores of the
kernel for them and their own. On the upper one a process is a `Task`, a flat memory and registers,
and an `Event` makes one of them from one of them (`Event.act`). `Step` says which events the code has,
without page shortage and with exit codes that lie in one page, and each of its calls does to the
process what the event does to the task, and leaves the pages of all others alone (`Changed`). -/

namespace UCore.Proc.Tasks

open UCore.Lib.Bytes UCore.Lib.Hoare UCore.Riscv UCore.Mem.State UCore.Mem.Kalloc
open UCore.Vm.Spaces UCore.Vm.Tables UCore.Vm.Growth UCore.Vm.Walk UCore.Vm.Map UCore.Vm.Refine
open UCore.Vm.VmaList UCore.Vm.Count UCore.Vm.Copy UCore.Vm.History UCore.Vm.Keeps
open UCore.Vm.Process UCore.Vm.Family UCore.Vm.Lives UCore.Vm.Uaccess UCore.Vm.UserCopy UCore.Vm.Flat
open UCore.Proc.State UCore.Proc.Loader UCore.Proc.Exec UCore.Proc.ExitCode UCore.Proc.Pools
open UCore.Proc.LoadImage

/-! ### The code -/

section Code
variable (L : Layout)

/-- `allocproc()` from the label `found` on, with the new process. -/
def allocproc (pid : ℤ) : KM Proc := do
  let o ← allocMm L
  memset L (PA_TO_KVA o.tf) 0 PGSIZE
  return {
    state := .used
    pid
    exitCode := 0
    parent := none
    mm := some o.mm
    vmaUstack := none
    vmaBrk := none
    vmaTrapframe := o.vmaTrapframe
    vmaTrampoline := o.vmaTrampoline
    trapframe := PA_TO_KVA o.tf }

/-- `fork()` of the process `p`, whose index is `parent`, with the child. -/
def fork (p : Proc) (parent : ℕ) (pid : ℤ) : KM Proc := do
  let np ← allocproc L pid
  match p.mm, np.mm with
  | some mm, some npMm =>
    let (r, npMm) ← mmCopy L mm npMm
    if r ≠ 0 then
      throw .mmCopy
    else
      memmove L np.trapframe p.trapframe tfSize
      kwrite64 L (np.trapframe + tfA0) 0
      return { np with mm := some npMm, parent := some parent, state := .runnable }
  | _, _ => throw .trapFromKernel

/-- `freeproc(p)`. -/
def freeproc (p : Proc) : KM Unit :=
  match p.mm with
  | none => throw .trapFromKernel
  | some mm => freeprocMm L mm p.vmaTrampoline p.vmaTrapframe

/-- `load_init_app()`, for the app that was found. -/
def loadInitApp (elf : Image) (pid : ℤ) : KM Proc := do
  let p ← allocproc L pid
  let (_, p) ← loadUserElf L elf p
  return p

end Code

/-! ### Two machines -/

/-- What happens to the memory or the registers of a process. -/
inductive Event (ι : Type)
  | loadInit (i : ι) (elf : Image)
  | fork (i j : ι)
  | exec (i : ι) (elf : Image)
  | freeproc (i : ι)
  | fault (i : ι)
  /-- `copy_to_user`, for `read` and `gettimeofday`. -/
  | copyToUser (i : ι) (va : ℕ) (src : ℕ → UInt8) (len : ℕ)
  /-- `wait` stores the exit code of a child. -/
  | exitCode (i : ι) (va code : ℕ)
  /-- The process stores a byte. -/
  | store (i : ι) (va : ℕ) (b : UInt8)
  /-- The registers are saved in the trapframe. -/
  | save (i : ι) (regs : Mem)
  /-- `syscall` stores the return value. -/
  | ret (i : ι) (a0 : ℕ)

/-- The memory and the slots of `pool` that are in use. -/
abbrev Machine (ι : Type) := KState × (ι → Option Proc)

variable {ι : Type} [DecidableEq ι]

namespace Event

/-- The slot whose task changes. -/
def target : Event ι → ι
  | .loadInit i _ | .fork _ i | .exec i _ | .freeproc i | .fault i | .copyToUser i _ _ _
  | .exitCode i _ _ | .store i _ _ | .save i _ | .ret i _ => i

/-- The slot of the task that it is made from: that of the parent in `fork`. -/
def source : Event ι → ι
  | .loadInit i _ | .fork i _ | .exec i _ | .freeproc i | .fault i | .copyToUser i _ _ _
  | .exitCode i _ _ | .store i _ _ | .save i _ | .ret i _ => i

/-- What becomes of the task. -/
def apply : Event ι → Option Task → Option Task
  | .loadInit _ elf, _ => some ⟨image elf, loadRegs elf fun _ => 0⟩
  | .fork _ _, t => t.map fun t => { t with regs := Lib.Bytes.store t.regs tfA0 8 0 }
  | .exec _ elf, t => t.map fun t => ⟨image elf, loadRegs elf t.regs⟩
  | .freeproc _, _ => none
  | .fault _, t => t
  | .copyToUser _ va src len, t =>
    t.map fun t => { t with mem := t.mem.write va (t.mem.reach va len) src }
  | .exitCode _ va code, t => t.map fun t => { t with mem := t.mem.write va 4 (intBytes code) }
  | .store _ va b, t => t.map fun t => { t with mem := t.mem.write va 1 fun _ => b }
  | .save _ regs, t => t.map fun t => { t with regs := blit t.regs 0 tfSize regs }
  | .ret _ a0, t => t.map fun t => { t with regs := Lib.Bytes.store t.regs tfA0 8 a0 }

/-- What an event does to the tasks. -/
def act (e : Event ι) (ts : ι → Option Task) : ι → Option Task :=
  Function.update ts e.target (e.apply (ts e.source))

end Event

/-- The tasks after the events, from the start on. -/
def replay (es : List (Event ι)) : ι → Option Task := es.foldl (fun ts e => e.act ts) fun _ => none

/-- One step of the kernel or of a process, without shortage. -/
inductive Step (L : Layout) (userApps : List UserApp) : Event ι → Machine ι → Machine ι → Prop
  | loadInit {s s' : KState} {procs : ι → Option Proc} {p : Proc} {name : List UInt8} {app : UserApp}
    {pid : ℤ} (i : ι) : procs i = none → Apps.getElf userApps name = some app →
    loadInitApp L app.elf pid s = .ok p s' → PageEvent.empty ∉ s'.log →
    Step L userApps (.loadInit i app.elf) (s, procs) (s', Function.update procs i (some p))
  | fork {s s' : KState} {procs : ι → Option Proc} {p np : Proc} {parent : ℕ} {pid : ℤ} (i j : ι) :
    procs i = some p → procs j = none → Tasks.fork L p parent pid s = .ok np s' →
    PageEvent.empty ∉ s'.log →
    Step L userApps (.fork i j) (s, procs) (s', Function.update procs j (some np))
  | exec {s s' : KState} {procs : ι → Option Proc} {p p' : Proc} {name : List UInt8} {app : UserApp}
    {r : ℤ} (i : ι) : procs i = some p → Apps.getElf userApps name = some app →
    Exec.exec L userApps name p s = .ok (r, p') s' → PageEvent.empty ∉ s'.log →
    Step L userApps (.exec i app.elf) (s, procs) (s', Function.update procs i (some p'))
  | freeproc {s s' : KState} {procs : ι → Option Proc} {p : Proc} (i : ι) : procs i = some p →
    Tasks.freeproc L p s = .ok () s' →
    Step L userApps (.freeproc i) (s, procs) (s', Function.update procs i none)
  | fault {s s' : KState} {procs : ι → Option Proc} {p : Proc} {mm : Mm} {addr : ℕ}
    {store found : Bool} (i : ι) : procs i = some p → p.mm = some mm →
    pageFault L mm addr store s = .ok found s' →
    Step L userApps (.fault i) (s, procs) (s', procs)
  | copyToUser {s s' : KState} {procs : ι → Option Proc} {p : Proc} {mm : Mm} {r : ℤ} (i : ι) (va : ℕ)
    (src : ℕ → UInt8) (len : ℕ) : procs i = some p → p.mm = some mm →
    copyToUser L mm va src len s = .ok r s' →
    Step L userApps (.copyToUser i va src len) (s, procs) (s', procs)
  /-- The four bytes are in one page. -/
  | exitCode {s s' : KState} {procs : ι → Option Proc} {p : Proc} {mm : Mm} {ptr : ℕ} (i : ι)
    (va code : ℕ) : procs i = some p → p.mm = some mm → va % 4096 ≤ 4092 →
    sysWaitCode L mm va s = .ok ptr s → storeExitCode L ptr code s = .ok () s' →
    Step L userApps (.exitCode i va code) (s, procs) (s', procs)
  | store {s : KState} {procs : ι → Option Proc} {p : Proc} {mm : Mm} (i : ι) (va : ℕ) (b : UInt8) :
    procs i = some p → p.mm = some mm → va / 4096 < NVPN → Mapped s.mem mm va →
    Has (pteAt s.mem mm (va / 4096)) PTE_W →
    Step L userApps (.store i va b) (s, procs)
      ({ s with mem := blit s.mem (UCore.Vm.UserCopy.translate s.mem mm va) 1 fun _ => b }, procs)
  | save {s s' : KState} {procs : ι → Option Proc} {p : Proc} (i : ι) (regs : Mem) :
    procs i = some p → kblit L p.trapframe tfSize regs s = .ok () s' →
    Step L userApps (.save i regs) (s, procs) (s', procs)
  | ret {s s' : KState} {procs : ι → Option Proc} {p : Proc} (i : ι) (a0 : ℕ) :
    procs i = some p → kwrite64 L (p.trapframe + tfA0) a0 s = .ok () s' →
    Step L userApps (.ret i a0) (s, procs) (s', procs)

/-- A run with its events. -/
inductive Run (L : Layout) (userApps : List UserApp) : List (Event ι) → Machine ι → Machine ι → Prop
  | nil (c : Machine ι) : Run L userApps [] c c
  | snoc {es : List (Event ι)} {e : Event ι} {c c' c'' : Machine ι} : Run L userApps es c c' →
    Step L userApps e c' c'' → Run L userApps (es ++ [e]) c c''

/-! ### The invariant -/

variable {L : Layout} {s s₁ s' : KState} {A B : View ι} {i j : ι} {mm : Mm} {tf : ℕ} {t : Task}
  {p : Proc}

/-- The process `p` has the `mm`, its trapframe is the frame `tf`, and it is the task `t`. -/
structure Runs (L : Layout) (s : KState) (A : View ι) (i : ι) (p : Proc) (mm : Mm) (tf : ℕ)
    (t : Task) : Prop where
  hasMm : p.mm = some mm
  trapframe : p.trapframe = PA_TO_KVA tf
  vmaTrampoline : p.vmaTrampoline = some trampolineVma
  vmaTrapframe : p.vmaTrapframe = some trapframeVma
  inUse : p.state ≠ .unused
  holds : Holds L s A i mm tf t

/-- A slot of `pool` and its task. -/
inductive Slot (L : Layout) (s : KState) (A : View ι) (i : ι) : Option Proc → Option Task → Prop
  | off : A.tbl i [] = none → Slot L s A i none none
  | on {p : Proc} {mm : Mm} {tf : ℕ} {t : Task} : Runs L s A i p mm tf t →
    Slot L s A i (some p) (some t)

/-- The machine shows the tasks, and the kernel holds the frames `held`. -/
def Inv (L : Layout) (held : Set ℕ) (c : Machine ι) (ts : ι → Option Task) : Prop :=
  ∃ A : View ι, Reps L c.1 A ∧ A.held = held ∧ ∀ i, Slot L c.1 A i (c.2 i) (ts i)

/-- From `m` with the view `A` to `s'` the slot `i` came to have the process and the task, and the
others stay. -/
def Changed (L : Layout) (i : ι) (m : Mem) (A : View ι) (s' : KState) (p : Option Proc)
    (t : Option Task) : Prop :=
  ∃ B : View ι, Reps L s' B ∧ Slot L s' B i p t ∧ Stays L (fun j _ => j ≠ i) m A s'.mem B

omit [DecidableEq ι] in
theorem Slot.runs {x : Option Task} (h : Slot L s A i (some p) x) :
    ∃ mm tf t, x = some t ∧ Runs L s A i p mm tf t := by
  cases h with
  | on h => exact ⟨_, _, _, rfl, h⟩

omit [DecidableEq ι] in
/-- A process whose pages stay is the same task. -/
theorem holds_of_stays {P : ι → ℕ → Prop} (h : Stays L P s.mem A s'.mem B) (hB : Reps L s' B)
    (hj : ∀ v, P j v) (hh : Holds L s A j mm tf t) : Holds L s' B j mm tf t := by
  refine ⟨⟨hB, h.userMm hj hh.space.user, h.sees hj hh.space.sees⟩, hh.frame,
    (h.pte j _ (hj _)).trans hh.maps, fun o ho => ?_⟩
  rw [h.byte (.leaf j trapframeVpn) tf (hj _) hh.owns o (by unfold tfSize at ho; omega), hh.regs o ho]

omit [DecidableEq ι] in
theorem Slot.stays {x : Option Proc} {y : Option Task} {P : ι → ℕ → Prop}
    (h : Stays L P s.mem A s'.mem B) (hB : Reps L s' B) (hj : ∀ v, P j v) (hs : Slot L s A j x y) :
    Slot L s' B j x y := by
  cases hs with
  | off hr => exact .off ((h.root j hj).trans hr)
  | on hp => exact .on { hp with holds := holds_of_stays h hB hj hp.holds }

/-- **A change of one slot.** -/
theorem Changed.inv {procs : ι → Option Proc} {ts : ι → Option Task} {x : Option Proc}
    {y : Option Task} (hc : Changed L i s.mem A s' x y)
    (h : ∀ j, Slot L s A j (procs j) (ts j)) :
    Inv L A.held (s', Function.update procs i x) (Function.update ts i y) := by
  obtain ⟨B, hB, hi, hs⟩ := hc
  refine ⟨B, hB, hs.held, fun j => ?_⟩
  change Slot L s' B j (Function.update procs i x j) (Function.update ts i y j)
  by_cases hji : j = i
  · subst hji
    rw [Function.update_self, Function.update_self]
    exact hi
  · rw [Function.update_of_ne hji, Function.update_of_ne hji]
    exact (h j).stays hs hB fun _ => hji

omit [DecidableEq ι] in
/-- The same process, with another task. -/
theorem Runs.changed {t' : Task} {mm' : Mm} {p' : Proc} (h : Runs L s A i p mm tf t)
    (hb : Became L i s.mem A s' mm' tf t') (hmm : p'.mm = some mm')
    (htf : p'.trapframe = p.trapframe) (hvt : p'.vmaTrampoline = p.vmaTrampoline)
    (hvf : p'.vmaTrapframe = p.vmaTrapframe) (hstate : p'.state ≠ .unused) :
    Changed L i s.mem A s' (some p') (some t') := by
  obtain ⟨B, hB, hs⟩ := hb
  exact ⟨B, hB.space.reps, .on ⟨hmm, htf.trans h.trapframe, hvt.trans h.vmaTrampoline,
    hvf.trans h.vmaTrapframe, hstate, hB⟩, hs⟩

/-! ### A new process -/

omit [DecidableEq ι] in
/-- Only the registers in the trapframe matter. -/
theorem Holds.congr {regs : Mem} (h : Holds L s A i mm tf t) (hr : ∀ o < tfSize, t.regs o = regs o) :
    Holds L s A i mm tf { t with regs } :=
  ⟨h.space, h.frame, h.maps, fun o ho => (h.regs o ho).trans (hr o ho)⟩

/-- The address space that `allocproc` makes. -/
structure Made (L : Layout) (m : Mem) (A : View ι) (i : ι) (o : NewMm) (s' : KState) (B : View ι) :
    Prop where
  holds : Holds L s' B i o.mm o.tf ⟨.empty, fun k => s'.mem (o.tf + k)⟩
  fresh : FreshMm L B i o.mm
  vmaTrampoline : o.vmaTrampoline = some trampolineVma
  vmaTrapframe : o.vmaTrapframe = some trapframeVma
  stays : Stays L (fun j _ => j ≠ i) m A s'.mem B

theorem wet_allocMm_made (h : Reps L s A) (i : ι) :
    wet (allocMm L) s fun o s' => ∃ B, Made L s.mem A i o s' B := by
  refine (wet_allocMm h i).imp ?_
  rintro o s' ⟨B, f, -, hB, hG, hfresh, hvt, hvf, hF, hpte, hm⟩
  exact ⟨B, ⟨⟨⟨hB, hfresh.userMm, sees_empty hfresh.userMm hfresh.list⟩, hF,
    hpte ▸ SameAD.refl _, fun _ _ => rfl⟩, hfresh, hvt, hvf, stays_of_newRoot h hB hG hm⟩⟩

/-- **`allocproc` makes an empty task.** -/
theorem wet_allocproc (h : Reps L s A) (i : ι) (pid : ℤ) : wet (allocproc L pid) s fun p s' =>
    ∃ B mm tf, Runs L s' B i p mm tf ⟨.empty, fun _ => 0⟩ ∧ FreshMm L B i mm ∧
      Stays L (fun j _ => j ≠ i) s.mem A s'.mem B := by
  unfold allocproc
  refine (wet_allocMm_made h i).seq (fun o => ?_) ?_
  · exact logGrows_iff.mpr ((keeps_memset _ _ _).bind fun _ => keeps_pure _)
  rintro o s₁ - ⟨B, hmade⟩
  obtain ⟨hC, hs⟩ := hmade.holds.trapframe_blit (fun _ => 0) (show 0 + 4096 ≤ 4096 by omega)
  refine wet_of_wp (E := fun _ _ => True) (wp_bind.mpr (wp_memset hmade.holds.frame
    (Nat.add_zero _).symm (by rw [PGSIZE_eq]) ?_))
  rw [PGSIZE_eq]
  have hzero : ∀ k < tfSize, blit (fun k => s₁.mem (o.tf + k)) 0 4096 (fun _ => 0) k = 0 :=
    fun k hk => blit_of_mem (Nat.zero_le _) (by unfold tfSize at hk; omega)
  exact ⟨B, o.mm, o.tf, ⟨rfl, rfl, hmade.vmaTrampoline, hmade.vmaTrapframe, by simp,
    Holds.congr hC hzero⟩, hmade.fresh, hmade.stays.trans hs⟩

/-- What follows `allocproc` in `fork`. -/
theorem keeps_forkRest {R : KState → KState → Prop} [ObjectStep R] (p np : Proc) (parent : ℕ) :
    Keeps R (match p.mm, np.mm with
      | some mm, some npMm => (do
        let (r, npMm) ← mmCopy L mm npMm
        if r ≠ 0 then
          throw .mmCopy
        else
          memmove L np.trapframe p.trapframe tfSize
          kwrite64 L (np.trapframe + tfA0) 0
          return { np with mm := some npMm, parent := some parent, state := .runnable } : KM Proc)
      | _, _ => throw .trapFromKernel) := by
  cases p.mm with
  | none => exact keeps_throw _
  | some mm =>
    cases np.mm with
    | none => exact keeps_throw _
    | some npMm =>
      exact (keeps_mmCopyLoop _ _ _).bind fun o => Keeps.ite (keeps_throw _)
        ((keeps_memmove _ _ _).bind fun _ => (keeps_kwrite64 _ _).bind fun _ => keeps_pure _)

/-- **The copy of the memory** of a process, in a new one. -/
theorem wet_mmCopy {child : Mm} {tf' : ℕ} {t' : Task} (hij : i ≠ j) (hp : Holds L s A i mm tf t)
    (hc : Holds L s A j child tf' t') (hfresh : FreshMm L A j child) :
    wet (mmCopy L mm child) s fun o s' => o.1 = 0 →
      Became L j s.mem A s' o.2 tf' { t' with mem := t.mem } := by
  have hA := hp.space.reps
  refine (wet_mmCopyLoop hij hA hp.space.user.listed (fun _ => id) hfresh.userMm.listed).imp ?_
  rintro o s' hpost h0
  obtain ⟨B, hcopy, hl, he⟩ := hpost h0
  rw [he] at hl ⊢
  exact hc.turned ⟨B, ⟨hcopy.reps, hfresh.userMm.copied hcopy hl,
    hp.space.sees.copied hp.space.user hfresh.userMm hfresh.list hA hcopy⟩,
    stays_of_grew hA hcopy.reps hcopy.grew hfresh.userMm.trapframe.1.1 hcopy.mem⟩

omit [DecidableEq ι] in
/-- The copy of the registers, and the `0` for the child; then the rest. -/
theorem wp_copyRegs {β : Type} {f : KM β} {Q : β → KState → Prop} {E : Panic → KState → Prop}
    {p np : Proc} {child : Mm} {tf' : ℕ} {u : UserMem} {regs : Mem}
    (hp : Holds L s A i mm tf t) (htf : p.trapframe = PA_TO_KVA tf)
    (hnp : np.trapframe = PA_TO_KVA tf') (hc : Holds L s A j child tf' ⟨u, regs⟩)
    (hQ : ∀ s', Became L j s.mem A s' child tf' ⟨u, Lib.Bytes.store t.regs tfA0 8 0⟩ → wp f s' Q E) :
    wp (do
      memmove L np.trapframe p.trapframe tfSize
      kwrite64 L (np.trapframe + tfA0) 0
      f) s Q E := by
  have hsize : 0 + tfSize ≤ 4096 := by decide
  refine wp_bind.mpr (wp_memmove hc.frame hp.frame (hnp.trans (Nat.add_zero _).symm)
    (htf.trans (Nat.add_zero _).symm) hsize hsize ?_)
  obtain ⟨hcopy, hs⟩ := hc.trapframe_blit (fun k => s.mem (tf + 0 + k)) hsize
  have hregs : ∀ k < tfSize, blit regs 0 tfSize (fun k => s.mem (tf + 0 + k)) k = t.regs k :=
    fun k hk => by
      rw [blit_of_mem (Nat.zero_le _) (by omega), Nat.sub_zero, Nat.add_zero, hp.regs k hk]
  obtain ⟨hzero, hs'⟩ := (Holds.congr hcopy hregs).trapframe_blit
    (fun k => UInt8.ofNat (0 / 256 ^ k)) (show tfA0 + 8 ≤ 4096 by decide)
  exact wp_bind.mpr (wp_kwrite64 hc.frame (by rw [hnp]) (by decide)
    (hQ _ ⟨A, hzero, hs.trans hs'⟩))

/-- **`fork` makes a copy of the task** that gets `0` from it. -/
theorem wet_fork (h : Reps L s A) (hij : i ≠ j) (hp : Runs L s A i p mm tf t) (parent : ℕ)
    (pid : ℤ) : wet (Tasks.fork L p parent pid) s fun np s' =>
      Changed L j s.mem A s' (some np) (some ⟨t.mem, Lib.Bytes.store t.regs tfA0 8 0⟩) := by
  unfold Tasks.fork
  refine (wet_allocproc h j pid).seq (fun np => logGrows_iff.mpr (keeps_forkRest p np parent)) ?_
  rintro np s₁ - ⟨B, npMm, npTf, hnp, hfresh, hs⟩
  have hpB := holds_of_stays hs hnp.holds.space.reps (fun _ => hij) hp.holds
  rw [hp.hasMm, hnp.hasMm]
  refine (wet_mmCopy hij hpB hnp.holds hfresh).seq (fun o => ?_) ?_
  · exact logGrows_iff.mpr (Keeps.ite (keeps_throw _)
      ((keeps_memmove _ _ _).bind fun _ => (keeps_kwrite64 _ _).bind fun _ => keeps_pure _))
  rintro ⟨r, npMm'⟩ s₂ - hcopy
  show wet (if r ≠ 0 then _ else _) s₂ _
  by_cases h0 : r = 0
  swap
  · rw [if_pos h0]
    exact wp_throw.mpr trivial
  rw [if_neg (not_not.mpr h0)]
  obtain ⟨C, hC, hs₁⟩ := hcopy h0
  have hpC := holds_of_stays hs₁ hC.space.reps (fun _ => hij) hpB
  refine wet_of_wp (E := fun _ _ => True) (wp_copyRegs hpC hp.trapframe hnp.trapframe hC ?_)
  rintro s₃ ⟨D, hD, hs₂⟩
  exact ⟨D, hD.space.reps, .on ⟨rfl, hnp.trapframe, hnp.vmaTrampoline, hnp.vmaTrapframe,
    by simp, hD⟩,
    (hs.trans hs₁).trans hs₂⟩

/-! ### execve -/

/-- **The end of the memory** of a process. -/
theorem wp_mmFreePages_holds (h : Holds L s A i mm tf t) :
    wpOk (mmFreePages L mm) s fun mm' s' =>
      Became L i s.mem A s' mm' tf { t with mem := .empty } := by
  have hmm := h.space.user
  refine (wp_mmFreePages h.space.reps hmm.listed).imp ?_
  rintro mm' s' ⟨rfl, hB, hm, -⟩
  have huser := hmm.freed h.space.reps
  exact h.turned ⟨_, ⟨hB, huser, sees_empty huser rfl⟩,
    stays_of_freed h.space.reps hB (hmm.not_listed hmm.trapframe.1) hm⟩

/-- **`load_user_elf` in a process without memory.** -/
theorem wet_loadTask {elf : Image} (hp : Runs L s A i p mm tf t) (hmem : t.mem = .empty)
    (hclear : StackClear elf) : wet (loadUserElf L elf p) s fun o s' =>
      Changed L i s.mem A s' (some o.2) (some ⟨image elf, loadRegs elf t.regs⟩) := by
  refine (wet_loadUserElf hp.hasMm hp.trapframe hp.holds (fun v _ => by rw [hmem]; rfl) hclear).imp ?_
  rintro ⟨r, p'⟩ s' ⟨-, mm', vmaBrk, rfl, hb⟩
  rw [hmem] at hb
  exact hp.changed hb rfl rfl rfl rfl (by simp)

omit [DecidableEq ι] in
theorem Changed.trans {p' : Option Proc} {x : Option Task} (h : Changed L i s₁.mem B s' p' x)
    (hs : Stays L (fun j _ => j ≠ i) s.mem A s₁.mem B) : Changed L i s.mem A s' p' x := by
  obtain ⟨C, hC, hslot, hs'⟩ := h
  exact ⟨C, hC, hslot, hs.trans hs'⟩

/-- **The first load.** -/
theorem wet_loadInitApp {elf : Image} (h : Reps L s A) (i : ι) (pid : ℤ) (hclear : StackClear elf) :
    wet (loadInitApp L elf pid) s fun p s' =>
      Changed L i s.mem A s' (some p) (some ⟨image elf, loadRegs elf fun _ => 0⟩) := by
  unfold loadInitApp
  refine (wet_allocproc h i pid).seq (fun p => ?_) ?_
  · exact logGrows_iff.mpr ((keeps_loadUserElf elf p).bind fun _ => keeps_pure _)
  rintro p s₁ - ⟨B, mm, tf, hp, -, hs⟩
  refine (wet_loadTask hp rfl hclear).seq (fun _ => logGrows_iff.mpr (keeps_pure _)) ?_
  rintro ⟨r, p'⟩ s₂ - hc
  exact fun _ => hc.trans hs

/-- **`execve` of an app.** -/
theorem wet_exec {userApps : List UserApp} {name : List UInt8} {app : UserApp}
    (hp : Runs L s A i p mm tf t) (happ : Apps.getElf userApps name = some app)
    (hclear : StackClear app.elf) : wet (Exec.exec L userApps name p) s fun o s' =>
      Changed L i s.mem A s' (some o.2) (some ⟨image app.elf, loadRegs app.elf t.regs⟩) := by
  unfold Exec.exec
  rw [happ, hp.hasMm]
  refine (wet_of_wp (wp_mmFreePages_holds hp.holds)).seq (fun mm' => ?_) ?_
  · exact logGrows_iff.mpr ((keeps_loadUserElf app.elf _).bind fun _ => keeps_pure _)
  rintro mm' s₁ - ⟨B, hB, hs⟩
  have hp' : Runs L s₁ B i { p with mm := some mm' } mm' tf { t with mem := .empty } :=
    ⟨rfl, hp.trapframe, hp.vmaTrampoline, hp.vmaTrapframe, hp.inUse, hB⟩
  refine (wet_loadTask hp' rfl hclear).seq (fun _ => logGrows_iff.mpr (keeps_pure _)) ?_
  rintro ⟨r, p'⟩ s₂ - hc
  exact fun _ => hc.trans hs

/-! ### freeproc -/

/-- The kernel's own pages while the address space ends are its own before or after. -/
theorem kernel_freed {X : View ι} {r : ℕ} (hX : X.tbl = A.tbl) :
    Kernel (unmapPages i true (listVpns mm.vma) X) ⊆ Kernel A ∪ Kernel (freedView X i mm r) := by
  rintro f (hf | ⟨j, p, hp, hf⟩)
  · exact Or.inr (Or.inl (List.mem_cons_of_mem r hf))
  · rw [unmapPages_tbl, hX] at hf
    exact Or.inl (Or.inr ⟨j, p, hp, hf⟩)

/-- **`freeproc` ends the task.** -/
theorem wp_freeproc (hp : Runs L s A i p mm tf t) :
    wp (freeproc L p) s (fun _ s' => Changed L i s.mem A s' none none) fun _ _ => True := by
  have hA := hp.holds.space.reps
  have hi := hp.holds.space.user
  obtain ⟨r, hr, hpgt⟩ := hi.listed.root
  obtain ⟨hvt, hvf⟩ := UserMm.apart hi
  unfold freeproc
  rw [hp.hasMm, hp.vmaTrampoline, hp.vmaTrapframe]
  refine wp_seq (wp_freevma (E := fun _ _ => True) hA hr hpgt (by decide) (by decide) le_rfl
    fun _ _ _ _ _ _ => trivial) ?_
  rintro _ s₁ ⟨-, hs₁, -⟩
  have hr₁ : (unmapPages i false (vpns trampolineVma) A).tbl i [] = some r := by
    rw [unmapPages_tbl, hr]
  refine wp_seq (wp_freevma (E := fun _ _ => True) hs₁.reps hr₁ hpgt (by decide) (by decide)
    TRAMPOLINE_le fun _ _ _ _ _ _ => trivial) ?_
  rintro _ s₂ ⟨-, hs₂, -⟩
  have hr₂ := hr₁
  rw [← unmapPages_tbl (i := i) true (vpns trapframeVma)] at hr₂
  refine wp_mono (wp_mmFree hs₂.reps (unmap_listed (unmap_listed hi.listed hvt) hvf) hr₂ hpgt) ?_
    fun _ _ h => h.elim
  rintro _ s' ⟨hs', hd⟩
  have htbl : (unmapPages i true (vpns trapframeVma)
      (unmapPages i false (vpns trampolineVma) A)).tbl = A.tbl := by
    rw [unmapPages_tbl, unmapPages_tbl]
  have hk : ∀ k, k ≠ i → Untouched A (freedView (unmapPages i true (vpns trapframeVma)
      (unmapPages i false (vpns trampolineVma) A)) i mm r) k := fun k hki =>
    Untouched.trans (Untouched.trans (untouched_unmapPages hki) (untouched_unmapPages hki))
      (untouched_freedView hki)
  have hmem := ((hs₁.mem.mono (kernel_unmapPages true _ _)).trans hs₂.mem).mono
    (kernel_unmapPages true (listVpns mm.vma) _) |>.trans hd
  refine ⟨_, hs', .off (if_pos rfl), stays_of_kernel hA hs' (fun j hj => (hk j (hj 0)).1) ?_
    (fun j v hj => ?_) (hmem.mono (kernel_freed htbl))⟩
  · change (unmapPages _ _ _ _).held = _
    rw [unmapPages_held, unmapPages_held, unmapPages_held]
  · rw [(hk j hj).2 v]
    exact SameAD.refl _

/-! ### Stores and registers -/

omit [DecidableEq ι] in
/-- A store for the process, or its own. -/
theorem Runs.wrote {va n : ℕ} {src : ℕ → UInt8} (hp : Runs L s A i p mm tf t)
    (hst : Stored L A i s'.mem va n src) (hw : Wrote L A i va n s s') :
    Changed L i s.mem A s' (some p) (some { t with mem := t.mem.write va n src }) := by
  have hsp := hp.holds.space
  exact hp.changed (hp.holds.turned ⟨A, ⟨hw.reps, hsp.user, hsp.sees.write hsp.reps.ok hst hw⟩,
    stays_of_user hsp.reps hsp.user (wrote_user hw)⟩) hp.hasMm rfl rfl rfl hp.inUse

omit [DecidableEq ι] in
/-- The bytes of one page. -/
theorem Runs.wrote_page {va f n : ℕ} (src : ℕ → UInt8) (hp : Runs L s A i p mm tf t)
    (hf : UserFrame L A i (va / 4096) f) (hn : va % 4096 + n ≤ 4096) :
    Changed L i s.mem A { s with mem := blit s.mem (f + va % 4096) n src } (some p)
      (some { t with mem := t.mem.write va n src }) := by
  obtain ⟨hst, hw⟩ := stored_page src hp.holds.space.reps hf hn
  exact hp.wrote hst hw

/-- `copy_to_user` of at least one byte panics where the page is beyond `MAXVA`. -/
theorem wp_copyToUser_le (h : Reps L s A) (hmm : UserTable L A i mm) (va : ℕ) (src : ℕ → UInt8)
    {len : ℕ} (hlen : len ≠ 0) :
    wp (copyToUser L mm va src len) s (fun _ _ => PGROUNDDOWN va ≤ MAXVA) fun _ _ => True := by
  rw [copyToUser, dif_neg hlen]
  refine wp_seq (wp_mono (wp_walkaddr_page h hmm va) (fun _ _ h => h) fun _ _ _ => trivial) ?_
  rintro f s₁ ⟨-, hva, -⟩
  exact wp_mono wp_trivial (fun _ _ _ => hva) fun _ _ h => h

/-- **`copy_to_user` stores what can be reached.** -/
theorem Runs.copyToUser {va len : ℕ} {src : ℕ → UInt8} {r : ℤ} (hp : Runs L s A i p mm tf t)
    (hx : copyToUser L mm va src len s = .ok r s') : Changed L i s.mem A s' (some p)
      (some { t with mem := t.mem.write va (t.mem.reach va len) src }) := by
  have hsp := hp.holds.space
  have hmm := UserTable.of_userMm hsp.user
  obtain ⟨n, hr, -, hst, hw⟩ := (wp_of_eq_ok hx).mp (wp_copyToUser hmm va src len hsp.reps)
  have hn : n = t.mem.reach va len := by
    by_cases hlen : len = 0
    · subst hlen
      exact Nat.le_zero.mp hr.1
    · have hva := (wp_of_eq_ok hx).mp (wp_copyToUser_le hsp.reps hmm va src hlen)
      rw [PGROUNDDOWN_eq, MAXVA_eq] at hva
      exact hsp.sees.reach hmm (by omega) hr
  rw [← hn]
  exact hp.wrote hst hw

/-- **The exit code** of a child, where it lies in one page. -/
theorem Runs.exitCode {va code ptr : ℕ} (hp : Runs L s A i p mm tf t) (hpage : va % 4096 ≤ 4092)
    (hptr : sysWaitCode L mm va s = .ok ptr s) (hx : storeExitCode L ptr code s = .ok () s') :
    Changed L i s.mem A s' (some p)
      (some { t with mem := t.mem.write va 4 (intBytes code) }) := by
  have hsp := hp.holds.space
  obtain ⟨-, -, ⟨-, hcode⟩ | ⟨f, hf, hcode⟩⟩ := (wp_of_eq_ok hptr).mp
    (wp_sysWaitCode hsp.reps (.of_userMm hsp.user) va) <;> rw [hcode] at hx
  · -- the translation of `0` is no address of the direct mapping
    have hno : wp (storeExitCode L (PA_TO_KVA 0) code) s (fun _ _ => False) fun _ _ => True := by
      unfold storeExitCode
      rw [if_pos (code_ne_zero (by decide)), ← Nat.add_zero (PA_TO_KVA 0)]
      exact wp_kblit_null (Nat.zero_le _) (fun h => absurd h (by decide)) fun _ => trivial
    exact ((wp_of_eq_ok hx).mp hno).elim
  · have hlt := hf.frame.lt
    have hlow := hf.frame.2.1
    have hend : va % 4096 + 4 ≤ 4096 := by omega
    rw [storeExitCode_eq (code_ne_zero (by omega)) (directMapped_code (by omega) (by omega))
      (KVA_TO_PA_PA_TO_KVA (by omega))] at hx
    cases hx
    exact hp.wrote_page (intBytes code) hf hend

omit [DecidableEq ι] in
/-- **The registers.** -/
theorem Runs.wrote_regs {off n : ℕ} (src : ℕ → UInt8) (hp : Runs L s A i p mm tf t)
    (hn : off + n ≤ 4096) :
    Changed L i s.mem A { s with mem := blit s.mem (tf + off) n src } (some p)
      (some { t with regs := blit t.regs off n src }) := by
  obtain ⟨hB, hs⟩ := hp.holds.trapframe_blit src hn
  exact hp.changed ⟨A, hB, hs⟩ hp.hasMm rfl rfl rfl hp.inUse

/-- **The page-fault handler** changes nothing that the process sees. -/
theorem Runs.fault {addr : ℕ} {store b : Bool} (hp : Runs L s A i p mm tf t)
    (hx : pageFault L mm addr store s = .ok b s') : Changed L i s.mem A s' (some p) (some t) := by
  have hsp := hp.holds.space
  obtain ⟨r, hr, hpgt⟩ := hsp.user.listed.root
  by_cases ha : addr ≤ MAXVA
  swap
  · have hno : wp (pageFault L mm addr store) s (fun _ _ => False) fun _ _ => True := by
      unfold pageFault UCore.Vm.Walk.walk
      exact wp_bind.mpr (wp_bind.mpr (wp_ensure.mpr ⟨fun hc => absurd hc ha, fun _ => trivial⟩))
    exact ((wp_of_eq_ok hx).mp hno).elim
  obtain ⟨-, hd, hs'⟩ := (wp_of_eq_ok hx).mp (wp_pageFault hsp.reps hr hpgt ha)
  cases b with
  | false =>
    have hs := stays_of_kernel (P := fun _ _ => True) hsp.reps hs' (fun _ _ => rfl) rfl
      (fun _ _ _ => SameAD.refl _) (hd.mono Set.subset_union_left)
    exact ⟨A, hs', .on { hp with holds := holds_of_stays hs hs' (fun _ => trivial) hp.holds },
      hs.mono fun _ _ _ => trivial⟩
  | true =>
    have hs := stays_of_fault hsp.reps (fun _ _ => True) hs' hd
    exact ⟨_, hs', .on { hp with holds := holds_of_stays hs hs' (fun _ => trivial) hp.holds },
      hs.mono fun _ _ _ => trivial⟩

end UCore.Proc.Tasks

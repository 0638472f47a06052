import UCore.Vm.VmaList

/-! # What the functions keep

The functions of `kalloc.c` for pages and of `vm.c` change the memory, the free list and its history;
only some take objects from the object allocators. So a preorder on states that allows the first
changes (`PageStep`) is kept by most functions, and one that allows both (`ObjectStep`) by all. -/

namespace UCore.Vm.Keeps

open UCore.Lib.Bytes UCore.Lib.Hoare UCore.Riscv UCore.Mem.State UCore.Mem.Kalloc UCore.Vm.Walk
open UCore.Vm.Map

/-- `R` allows stores, and steps of the page allocator with a line of its history. -/
class PageStep (R : KState → KState → Prop) : Prop extends IsPreorder KState R where
  mem : ∀ (s : KState) (m : Mem), R s { s with mem := m }
  list : ∀ (s : KState) (k : ℕ) (e : PageEvent), R s { s with freelist := k, log := e :: s.log }

/-- `R` also allows steps of the object allocators. -/
class ObjectStep (R : KState → KState → Prop) : Prop extends PageStep R where
  objs : ∀ (s : KState) (m v : ℕ), R s { s with mmObjs := m, vmaObjs := v }

variable {L : Layout} {R : KState → KState → Prop}

/-! ### Pages -/

section Pages
variable [PageStep R]

theorem keeps_kread64 (k : ℕ) : Keeps R (kread64 L k) :=
  (keeps_ensure _ _).bind fun _ => Keeps.get_bind fun _ => keeps_pure _

theorem keeps_kwrite64 (k v : ℕ) : Keeps R (kwrite64 L k v) :=
  (keeps_ensure _ _).bind fun _ => keeps_modify fun s => PageStep.mem s _

theorem keeps_kblit (k n : ℕ) (g : ℕ → UInt8) : Keeps R (kblit L k n g) :=
  (keeps_pure _).ite ((keeps_ensure _ _).bind fun _ => keeps_modify fun s => PageStep.mem s _)

theorem keeps_memset (k : ℕ) (c : UInt8) (n : ℕ) : Keeps R (memset L k c n) := keeps_kblit _ _ _

theorem keeps_memmove (d k n : ℕ) : Keeps R (memmove L d k n) :=
  (keeps_pure _).ite ((keeps_ensure _ _).bind fun _ =>
    Keeps.get_bind fun _ => keeps_kblit _ _ _)

theorem keeps_kallocpage : Keeps R (kallocpage L) := by
  have hstep : ∀ (e : PageEvent) (h : KState → ℕ),
      Keeps R (modify fun s => { s with freelist := h s, log := e :: s.log } : KM PUnit) := fun e h =>
    keeps_modify fun s => PageStep.list s (h s) e
  refine Keeps.get_bind fun s => Keeps.ite ?_ ?_
  · refine (keeps_kread64 _).bind fun next => (hstep _ fun _ => next).bind fun _ => ?_
    exact (keeps_memset _ _ _).bind fun _ => keeps_pure _
  · exact (hstep _ (·.freelist)).bind fun _ => keeps_pure _

theorem keeps_kfreepage (pa : ℕ) : Keeps R (kfreepage L pa) :=
  (keeps_ensure _ _).bind fun _ => (keeps_memset _ _ _).bind fun _ =>
    Keeps.get_bind fun _ => (keeps_kwrite64 _ _).bind fun _ =>
      keeps_modify fun s => PageStep.list s _ _

/-! ### Page tables -/

theorem keeps_walkLoop (va : ℕ) (alloc : Bool) : ∀ level pagetable,
    Keeps R (walkLoop L va alloc level pagetable)
  | 0, _ => keeps_pure _
  | level + 1, _ => by
    refine (keeps_kread64 _).bind fun _ => Keeps.ite (keeps_walkLoop va alloc level _) ?_
    refine Keeps.ite (keeps_pure _) (keeps_kallocpage.bind fun pa => ?_)
    extract_lets pagetable
    generalize pagetable = k
    refine Keeps.ite (keeps_pure _) ?_
    refine (keeps_memset _ _ _).bind fun _ => (keeps_kwrite64 _ _).bind fun _ => ?_
    exact keeps_walkLoop va alloc level _

theorem keeps_walk (mm : Mm) (va : ℕ) (alloc : Bool) : Keeps R (walk L mm va alloc) :=
  (keeps_ensure _ _).bind fun _ => keeps_walkLoop _ _ _ _

theorem keeps_walkaddr (mm : Mm) (va : ℕ) : Keeps R (walkaddr L mm va) := by
  refine (keeps_ensure _ _).bind fun _ => (keeps_ensure _ _).bind fun _ =>
    (keeps_walk _ _ _).bind fun o => ?_
  cases o with
  | none => exact keeps_pure _
  | some p =>
    exact (keeps_kread64 _).bind fun _ => (keeps_pure _).ite ((keeps_pure _).ite (keeps_pure _))

theorem keeps_mappagesLoop (mm : Mm) (fl : ℕ) : ∀ vas, Keeps R (mappagesLoop L mm fl vas)
  | [] => keeps_pure _
  | va :: vas => by
    refine (keeps_walk _ _ _).bind fun o => ?_
    cases o with
    | none => exact keeps_pure _
    | some p =>
      refine (keeps_kread64 _).bind fun _ => (keeps_pure _).ite ?_
      refine keeps_kallocpage.bind fun _ => (keeps_pure _).ite ?_
      exact (keeps_kwrite64 _ _).bind fun _ => keeps_mappagesLoop mm fl vas

theorem keeps_mmMappages (mm : Mm) (vma : Vma) : Keeps R (mmMappages L mm vma) :=
  (keeps_ensure _ _).bind fun _ => (keeps_ensure _ _).bind fun _ =>
    (keeps_ensure _ _).bind fun _ => (keeps_ensure _ _).bind fun _ =>
      (keeps_mappagesLoop _ _ _).bind fun _ => (keeps_pure _).ite (keeps_pure _)

theorem keeps_freePage (mm : Mm) (free : Bool) (va : ℕ) : Keeps R (freePage L mm free va) := by
  refine (keeps_walk _ _ _).bind fun o => ?_
  cases o with
  | none => exact keeps_pure _
  | some p =>
    cases free with
    | false => exact keeps_kwrite64 _ _
    | true =>
      exact (keeps_kread64 _).bind fun _ => (keeps_kfreepage _).bind fun _ => keeps_kwrite64 _ _

theorem keeps_freevma (mm : Mm) (vma : Vma) (free : Bool) : Keeps R (freevma L mm vma free) :=
  (keeps_ensure _ _).bind fun _ => keeps_forM (fun _ => keeps_freePage _ _ _) _

theorem keeps_copyPage (old new : Mm) (va : ℕ) : Keeps R (copyPage L old new va) :=
  (keeps_walkaddr _ _).bind fun _ => (keeps_walkaddr _ _).bind fun _ => keeps_memmove _ _ _

end Pages

/-! ### Objects -/

section Objects
variable [ObjectStep R]

theorem keeps_kfreeVma : Keeps R kfreeVma := keeps_modify fun s => ObjectStep.objs s _ _

theorem keeps_kallocVma : Keeps R kallocVma :=
  Keeps.get_bind fun _ => (keeps_ensure _ _).bind fun _ =>
    keeps_modify fun s => ObjectStep.objs s _ _

theorem keeps_mmFreePages (mm : Mm) : Keeps R (mmFreePages L mm) :=
  (keeps_forM (fun _ => (keeps_freevma _ _ _).bind fun _ => keeps_kfreeVma) _).bind
    fun _ => keeps_pure _

/-- A round of `mm_copy` after `mm_mappages`. -/
theorem keeps_copyRound {rest : Mm → KM (ℤ × Mm)} (hrest : ∀ new, Keeps R (rest new)) (old : Mm)
    (vma : Vma) (o : ℤ × Mm) : Keeps R (if o.1 ≠ 0 then do
      let new ← mmFreePages L o.2
      return (-1, new)
    else do
      forM (pages vma.vmStart vma.vmEnd) (copyPage L old o.2)
      rest o.2 : KM (ℤ × Mm)) :=
  Keeps.ite ((keeps_mmFreePages _).bind fun _ => keeps_pure _)
    ((keeps_forM (fun _ => keeps_copyPage _ _ _) _).bind fun _ => hrest _)

theorem keeps_mmCopyLoop (old : Mm) : ∀ vmas new, Keeps R (mmCopyLoop L old vmas new)
  | [], _ => keeps_pure _
  | vma :: vmas, _ => keeps_kallocVma.bind fun _ => (keeps_mmMappages _ _).bind fun o =>
      keeps_copyRound (keeps_mmCopyLoop old vmas) old vma o

end Objects

end UCore.Vm.Keeps

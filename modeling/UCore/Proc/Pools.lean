import Mathlib.Algebra.BigOperators.Group.Finset.Basic
import Mathlib.Algebra.Order.BigOperators.Group.Finset
import UCore.Proc.Exec
import UCore.Vm.Keeps
import UCore.Vm.Leak

/-! # The object pools

Who holds the objects of `vma_allocator` and `mm_allocator`. An object is owned by the process for
whose `mm` it was made, as its field `owner` says, until it is freed or that process is reaped; what
is live and owned by nobody is lost. A run is an interleaving of `allocproc`, `fork`, `execve`, the
first load, `freeproc`, and anything that leaves the pools alone.

`mm_free_pages` frees the vma objects of the list. Those of the trampoline and the trapframe are not
in the list, and `freeproc` unmaps their pages, but frees no object. So an `mm` object comes back
with every process and at least two vma objects do not (`Step.next`): no lifetime leaves the pools as
they were (`lifetime_unbalanced`), and after 8192 processes there are no vma objects any more. -/

namespace UCore.Proc.Pools

open UCore.Lib.Bytes UCore.Lib.Hoare UCore.Riscv UCore.Mem.State UCore.Mem.Kalloc UCore.Mem.Boot
open UCore.Vm.Walk UCore.Vm.Map UCore.Vm.Refine UCore.Vm.Keeps UCore.Vm.Process UCore.Vm.Family
open UCore.Vm UCore.Proc.State UCore.Proc.Loader UCore.Proc.Exec

variable {L : Layout} {α β : Type} {s s' s₁ s₂ : KState} {mm mm' mm₁ : Mm}

/-! ### What leaves the pools alone -/

/-- The numbers of live objects are the same. -/
def SamePools (s s' : KState) : Prop := s'.mmObjs = s.mmObjs ∧ s'.vmaObjs = s.vmaObjs

instance : PageStep SamePools where
  refl _ := ⟨rfl, rfl⟩
  trans _ _ _ h h' := ⟨h'.1.trans h.1, h'.2.trans h.2⟩
  mem _ _ := ⟨rfl, rfl⟩
  list _ _ _ := ⟨rfl, rfl⟩

section Loader
variable {R : KState → KState → Prop} [PageStep R]

theorem keeps_loadPage (elf : Image) (mm : Mm) (phdr : Phdr) (va off rem : ℕ) :
    Keeps R (loadPage L elf mm phdr va off rem) :=
  (keeps_walkaddr _ _).bind fun _ => (keeps_kblit _ _ _).bind fun _ =>
    ((keeps_memset _ _ _).bind fun _ => keeps_pure _).ite
      ((keeps_pure _).bind fun _ => keeps_pure _)

theorem keeps_loadPages (elf : Image) (mm : Mm) (phdr : Phdr) : ∀ vas off rem,
    Keeps R (loadPages L elf mm phdr vas off rem)
  | [], _, _ => keeps_pure _
  | _ :: vas, _, _ => (keeps_loadPage _ _ _ _ _ _).bind fun _ =>
      keeps_loadPages elf mm phdr vas _ _

theorem keeps_clearPage (mm : Mm) (va : ℕ) : Keeps R (clearPage L mm va) :=
  (keeps_walkaddr _ _).bind fun _ => keeps_memset _ _ _

theorem keeps_clearStackPage (mm : Mm) (va : ℕ) : Keeps R (clearStackPage L mm va) :=
  (keeps_walkaddr _ _).bind fun _ => keeps_memset _ _ _

theorem keeps_vmPrintWalk : ∀ n pgt, Keeps R (vmPrintWalk L n pgt)
  | 0, _ => keeps_pure _
  | n + 1, _ => keeps_forM (fun _ => (keeps_kread64 _).bind fun _ => Keeps.ite
      ((keeps_ensure _ _).bind fun _ => keeps_vmPrintWalk n _) (keeps_pure _)) _

end Loader

/-! ### What one call does to the pools -/

/-- From `mm` to `mm'`, what a call does to the pools: no `mm` object is made or freed, and no vma
object is freed but those that leave the list. -/
structure Books (s : KState) (mm : Mm) (s' : KState) (mm' : Mm) : Prop where
  mms : s'.mmObjs = s.mmObjs
  refcnt : mm'.refcnt = mm.refcnt
  unlisted : (s.vmaObjs : ℤ) - mm.vma.length ≤ s'.vmaObjs - mm'.vma.length
  cap : s.vmaObjs ≤ objectCount → s'.vmaObjs ≤ objectCount

theorem SamePools.books (h : SamePools s s') (mm : Mm) : Books s mm s' mm :=
  ⟨h.1, rfl, by rw [h.2], fun hc => h.2.trans_le hc⟩

theorem Books.trans (h : Books s mm s₁ mm₁) (h' : Books s₁ mm₁ s' mm') : Books s mm s' mm' :=
  ⟨h'.mms.trans h.mms, h'.refcnt.trans h.refcnt, h.unlisted.trans h'.unlisted, fun hc =>
    h'.cap (h.cap hc)⟩

/-- What `x` returns from `s` keeps the books of `mm`. -/
def books (x : KM α) (get : α → Mm) (s : KState) (mm : Mm) : Prop :=
  wp x s (fun a s' => Books s mm s' (get a)) fun _ _ => True

theorem Keeps.wp {x : KM α} {Q : α → KState → Prop} (h : Keeps SamePools x)
    (hQ : ∀ a s', SamePools s s' → Q a s') : wp x s Q fun _ _ => True :=
  wp_mono (h s) hQ fun _ _ _ => trivial

/-- A part that leaves the pools alone, then the rest. -/
theorem books_seq {x : KM α} {f : α → KM β} {get : β → Mm} (hx : Keeps SamePools x)
    (hf : ∀ a s', books (f a) get s' mm) : books (x >>= f) get s mm :=
  wp_seq (Keeps.wp hx fun _ _ h => h) fun a s' h =>
    wp_mono (hf a s') (fun _ _ h' => (SamePools.books h mm).trans h') fun _ _ h' => h'

/-- A part that changes the `mm`, then the rest. -/
theorem books_bind {x : KM α} {f : α → KM β} {get : α → Mm} {get' : β → Mm}
    (hx : books x get s mm) (hf : ∀ a s', books (f a) get' s' (get a)) :
    books (x >>= f) get' s mm :=
  wp_seq hx fun a s' h => wp_mono (hf a s') (fun _ _ h' => h.trans h') fun _ _ h' => h'

theorem books_pure {a : α} {get : α → Mm} (h : get a = mm) : books (pure a) get s mm := by
  subst h
  exact wp_pure.mpr (SamePools.books ⟨rfl, rfl⟩ _)

theorem books_throw {e : Panic} {get : α → Mm} : books (throw e) get s mm := wp_throw.mpr trivial

theorem books_ite {c : Prop} {_ : Decidable c} {x y : KM α} {get : α → Mm} (hx : books x get s mm)
    (hy : books y get s mm) : books (if c then x else y) get s mm := by
  split_ifs
  · exact hx
  · exact hy

/-- `mm_mappages` puts the vma in the list, or does not. -/
theorem wp_mmMappages_list (vma : Vma) : wp (mmMappages L mm vma) s
    (fun o s' => SamePools s s' ∧ (o.2 = mm ∨ o.2 = { mm with vma := vma :: mm.vma }))
    fun _ _ => True := by
  unfold mmMappages
  refine wp_bind.mpr (wp_ensure.mpr ⟨fun _ => ?_, fun _ => trivial⟩)
  refine wp_bind.mpr (wp_ensure.mpr ⟨fun _ => ?_, fun _ => trivial⟩)
  refine wp_bind.mpr (wp_ensure.mpr ⟨fun _ => ?_, fun _ => trivial⟩)
  refine wp_bind.mpr (wp_ensure.mpr ⟨fun _ => ?_, fun _ => trivial⟩)
  refine wp_seq (Keeps.wp (keeps_mappagesLoop _ _ _) fun _ _ h => h) fun r s' h => ?_
  split_ifs
  · exact wp_pure.mpr ⟨h, Or.inl rfl⟩
  · exact wp_pure.mpr ⟨h, Or.inr rfl⟩

/-- A new vma object and its mapping, then the rest. -/
theorem books_mapNew {f : ℤ × Mm → KM β} {get : β → Mm} (vma : Vma)
    (hf : ∀ o s', books (f o) get s' o.2) :
    books (kallocVma >>= fun _ => mmMappages L mm vma >>= f) get s mm := by
  refine wp_bind.mpr (wp_kallocVma (fun hlt => ?_) fun _ => trivial)
  refine wp_seq (wp_mmMappages_list vma) fun o s' h => ?_
  have hb : Books s mm s' o.2 := by
    obtain ⟨⟨hm, hv⟩, ho⟩ := h
    change s'.vmaObjs = s.vmaObjs + 1 at hv
    rcases ho with ho | ho <;> rw [ho]
    · exact ⟨hm, rfl, by rw [hv]; push_cast; omega, fun _ => by rw [hv]; exact hlt⟩
    · refine ⟨hm, rfl, ?_, fun _ => by rw [hv]; exact hlt⟩
      rw [hv, List.length_cons]
      push_cast
      omega
  exact wp_mono (hf o s') (fun _ _ h' => hb.trans h') fun _ _ h' => h'

/-- The vmas of the list, one by one. -/
theorem wp_freeVmas (mm : Mm) : ∀ (vmas : List Vma) (s : KState),
    wp (forM vmas fun vma => do freevma L mm vma true; kfreeVma) s
      (fun _ s' => s'.mmObjs = s.mmObjs ∧ s.vmaObjs ≤ s'.vmaObjs + vmas.length ∧
        s'.vmaObjs ≤ s.vmaObjs) fun _ _ => True
  | [], s => ⟨rfl, le_rfl, le_rfl⟩
  | vma :: vmas, s => by
    rw [List.forM_cons]
    have hone : wp (do freevma L mm vma true; kfreeVma) s (fun _ s₁ => s₁.mmObjs = s.mmObjs ∧
        s₁.vmaObjs = s.vmaObjs - 1) fun _ _ => True :=
      wp_seq (Keeps.wp (keeps_freevma mm vma true) fun _ _ h => h) fun _ s₁ h =>
        wp_modify.mpr ⟨h.1, by rw [← h.2]⟩
    refine wp_seq hone fun _ s₁ h₁ => wp_mono (wp_freeVmas mm vmas s₁) (fun _ s' h => ?_) fun _ _ h => h
    obtain ⟨hm, hle, hge⟩ := h
    rw [h₁.2] at hle hge
    exact ⟨hm.trans h₁.1, by rw [List.length_cons]; omega, by omega⟩

/-- **`mm_free_pages` frees the vma objects of the list**, at most. -/
theorem wp_mmFreePages_pools (mm : Mm) : wp (mmFreePages L mm) s
    (fun mm' s' => mm' = { mm with vma := [] } ∧ s'.mmObjs = s.mmObjs ∧
      s.vmaObjs ≤ s'.vmaObjs + mm.vma.length ∧ s'.vmaObjs ≤ s.vmaObjs) fun _ _ => True := by
  unfold mmFreePages
  exact wp_seq (wp_freeVmas mm mm.vma s) fun _ s' h => wp_pure.mpr ⟨rfl, h⟩

theorem books_mmFreePages (mm : Mm) : books (mmFreePages L mm) id s mm := by
  refine wp_mono (wp_mmFreePages_pools mm) ?_ fun _ _ h => h
  rintro mm' s' ⟨rfl, hm, hle, hge⟩
  exact ⟨hm, rfl, by show _ ≤ (s'.vmaObjs : ℤ) - (0 : ℕ); omega, fun hc => hge.trans hc⟩

theorem books_mmCopyLoop (old : Mm) : ∀ (vmas : List Vma) (new : Mm) (s : KState),
    books (mmCopyLoop L old vmas new) Prod.snd s new
  | [], _, _ => books_pure rfl
  | vma :: vmas, new, s => by
    refine books_mapNew vma fun o s₁ => books_ite ?_ ?_
    · exact books_bind (books_mmFreePages o.2) fun mm' s₂ => books_pure rfl
    · exact books_seq (keeps_forM (fun _ => keeps_copyPage _ _ _) _) fun _ s₂ =>
        books_mmCopyLoop old vmas o.2 s₂

theorem books_mmCopy (old new : Mm) : books (mmCopy L old new) Prod.snd s new :=
  books_mmCopyLoop old old.vma new s

/-! ### The loader -/

theorem books_loadSegment (elf : Image) (phdr : Phdr) :
    books (loadSegment L elf mm phdr) id s mm := by
  refine books_mapNew _ fun o s₁ => books_ite books_throw ?_
  refine books_seq (keeps_loadPages _ _ _ _ _ _) fun rem s₂ => books_ite ?_ ?_
  · refine books_seq (keeps_forM (fun _ => keeps_clearPage _ _) _) fun _ s₃ => ?_
    exact books_seq (keeps_ensure _ _) fun _ s₄ => books_pure rfl
  · exact books_seq (keeps_ensure _ _) fun _ s₃ => books_pure rfl

theorem books_loadSegments (elf : Image) : ∀ (phdrs : List Phdr) (mm : Mm) (maxVaEnd : ℕ)
    (s : KState), books (loadSegments L elf mm maxVaEnd phdrs) Prod.fst s mm
  | [], _, _, _ => books_pure rfl
  | phdr :: phdrs, mm, maxVaEnd, s => by
    rw [loadSegments]
    split_ifs
    · exact books_loadSegments elf phdrs mm maxVaEnd s
    · exact books_bind (books_loadSegment elf phdr) fun mm' s₁ =>
        books_loadSegments elf phdrs mm' _ s₁

/-- The `mm` of a process that has one. -/
def mmOf (p : Proc) : Mm := p.mm.getD ⟨0, [], 0⟩

theorem mmOf_eq {p : Proc} (hp : p.mm = some mm) : mmOf p = mm := by
  unfold mmOf
  rw [hp]
  rfl

theorem books_loadUserElf (elf : Image) {p : Proc} (hp : p.mm = some mm) :
    books (loadUserElf L elf p) (mmOf ∘ Prod.snd) s mm := by
  unfold loadUserElf
  refine books_ite books_throw ?_
  rw [hp]
  refine books_bind (books_loadSegments elf _ mm 0 s) fun o s₁ => ?_
  refine books_mapNew _ fun o₁ s₂ => ?_
  refine books_mapNew _ fun o₂ s₃ => ?_
  refine books_seq (keeps_forM (fun _ => keeps_clearStackPage _ _) _) fun _ s₄ => ?_
  refine books_seq (keeps_kwrite64 _ _) fun _ s₅ => ?_
  exact books_seq (keeps_kwrite64 _ _) fun _ s₆ => books_pure rfl

theorem books_exec (userApps : List UserApp) (name : List UInt8) {p : Proc} (hp : p.mm = some mm) :
    books (exec L userApps name p) (mmOf ∘ Prod.snd) s mm := by
  unfold exec
  cases Apps.getElf userApps name with
  | none => exact books_pure (mmOf_eq hp)
  | some app =>
    rw [hp]
    refine books_bind (books_mmFreePages mm) fun mm' s₁ => ?_
    exact books_bind (books_loadUserElf app.elf rfl) fun o s₂ => books_pure rfl

/-! ### The ends of a lifetime -/

/-- `mm_mappagesat` without the list makes one vma object. -/
theorem wp_mmMappagesat_unlisted {va pa flags : ℕ} : wp (mmMappagesat L mm va pa flags false) s
    (fun o s' => o.2 = mm ∧ s'.mmObjs = s.mmObjs ∧ s'.vmaObjs = s.vmaObjs + 1 ∧
      s.vmaObjs < objectCount) fun _ _ => True := by
  unfold mmMappagesat
  refine wp_bind.mpr (wp_kallocVma (fun hlt => ?_) fun _ => trivial)
  refine wp_seq (Keeps.wp (keeps_walk _ _ _) fun _ _ h => h) fun o s₁ h₁ => ?_
  cases o with
  | none => exact wp_pure.mpr ⟨rfl, h₁.1, h₁.2, hlt⟩
  | some ptep =>
    refine wp_seq (Keeps.wp (keeps_kread64 _) fun _ _ h => trans_of SamePools h₁ h) fun pte s₂ h₂ => ?_
    split_ifs with hV hadd
    · unfold vmPrint
      generalize 3 = n
      refine wp_seq (Keeps.wp (keeps_vmPrintWalk n _) fun _ _ h => trans_of SamePools h₂ h)
        fun _ s₃ h₃ => ?_
      exact wp_pure.mpr ⟨rfl, h₃.1, h₃.2, hlt⟩
    · cases hadd
    · refine wp_seq (Keeps.wp (keeps_kwrite64 _ _) fun _ _ h => trans_of SamePools h₂ h)
        fun _ s₃ h₃ => ?_
      exact wp_pure.mpr ⟨rfl, h₃.1, h₃.2, hlt⟩

theorem wp_mmCreate_pools : wp (mmCreate L) s (fun o s' => ∀ mm, o = some mm →
    mm.vma = [] ∧ mm.refcnt = 1 ∧ s'.mmObjs = s.mmObjs + 1 ∧ s'.vmaObjs = s.vmaObjs)
    fun _ _ => True := by
  unfold mmCreate
  refine wp_bind.mpr (wp_kallocMm (fun hlt => ?_) fun _ => trivial)
  refine wp_seq (Keeps.wp keeps_kallocpage fun _ _ h => h) fun pa s₁ h₁ => ?_
  extract_lets pgt
  generalize pgt = k
  split_ifs
  · refine wp_seq wp_trivial fun _ s₂ _ => wp_pure.mpr fun mm h => ?_
    cases h
  · refine wp_seq (Keeps.wp (keeps_memset _ _ _) fun _ _ h => trans_of SamePools h₁ h) fun _ s₂ h₂ => ?_
    refine wp_pure.mpr fun mm h => ?_
    cases h
    exact ⟨rfl, rfl, h₂.1, h₂.2⟩

/-- **`allocproc` makes one `mm` object and two vma objects**, which are in no list. -/
theorem wp_allocMm_pools : wp (allocMm L) s (fun o s' => o.mm.vma = [] ∧ o.mm.refcnt = 1 ∧
    s'.mmObjs = s.mmObjs + 1 ∧ s'.vmaObjs = s.vmaObjs + 2 ∧ s'.vmaObjs ≤ objectCount)
    fun _ _ => True := by
  unfold allocMm
  refine wp_seq wp_mmCreate_pools fun o s₁ h₁ => ?_
  cases o with
  | none => exact wp_throw.mpr trivial
  | some mm =>
    obtain ⟨hlist, href, hm₁, hv₁⟩ := h₁ mm rfl
    refine wp_seq wp_mmMappagesat_unlisted fun o₂ s₂ h₂ => ?_
    obtain ⟨ho₂, hm₂, hv₂, -⟩ := h₂
    refine wp_seq (Keeps.wp keeps_kallocpage fun _ _ h => h) fun tf s₃ h₃ => ?_
    split_ifs
    · exact wp_throw.mpr trivial
    refine wp_seq wp_mmMappagesat_unlisted fun o₄ s₄ h₄ => wp_pure.mpr ?_
    obtain ⟨ho₄, hm₄, hv₄, hlt⟩ := h₄
    have hm₃ := h₃.1
    have hv₃ := h₃.2
    have hmm : o₄.2 = mm := ho₄.trans ho₂
    exact ⟨by rw [← hlist, ← hmm], by rw [← href, ← hmm], by omega, by omega, by omega⟩

section Code
variable (L : Layout)

/-- `freevma(vma, free_phy_page)` for a pointer to a vma whose owner is `mm`. -/
def freevmaAt (mm : Mm) (vma : Option Vma) (freePhyPage : Bool) : KM Unit :=
  match vma with
  | none => throw .trapFromKernel
  | some vma => freevma L mm vma freePhyPage

/-- What `freeproc(p)` does with the memory of `p`. -/
def freeprocMm (mm : Mm) (vmaTrampoline vmaTrapframe : Option Vma) : KM Unit := do
  freevmaAt L mm vmaTrampoline false
  freevmaAt L mm vmaTrapframe true
  mmFree L mm

end Code

theorem keeps_freevmaAt (mm : Mm) (vma : Option Vma) (free : Bool) :
    Keeps SamePools (freevmaAt L mm vma free) := by
  cases vma with
  | none => exact keeps_throw _
  | some vma => exact keeps_freevma mm vma free

/-- **`freeproc` frees the `mm` object and the vma objects of the list**, at most. -/
theorem wp_freeprocMm_pools {vt vf : Option Vma} (href : mm.refcnt = 1) :
    wp (freeprocMm L mm vt vf) s (fun _ s' => s'.mmObjs = s.mmObjs - 1 ∧
      s.vmaObjs ≤ s'.vmaObjs + mm.vma.length ∧ s'.vmaObjs ≤ s.vmaObjs) fun _ _ => True := by
  unfold freeprocMm
  refine wp_seq (Keeps.wp (keeps_freevmaAt mm vt false) fun _ _ h => h) fun _ s₁ h₁ => ?_
  refine wp_seq (Keeps.wp (keeps_freevmaAt mm vf true) fun _ _ h => trans_of SamePools h₁ h)
    fun _ s₂ h₂ => ?_
  unfold mmFree
  refine wp_seq (wp_mmFreePages_pools mm) fun mm' s₃ h₃ => ?_
  generalize KVA_TO_PA mm'.pgt = pa
  obtain ⟨href', hm₃, hle, hge⟩ := h₃
  refine wp_seq (Keeps.wp (keeps_kfreepage pa) fun _ _ h => h) fun _ s₄ h₄ => ?_
  have hv₂ := h₂.2
  have hm₂ := h₂.1
  have hv₄ := h₄.2
  have hm₄ := h₄.1
  rw [href', if_pos (by rw [href])]
  refine wp_modify.mpr ⟨?_, ?_, ?_⟩
  · show s₄.mmObjs - 1 = _
    omega
  · show _ ≤ s₄.vmaObjs + _
    omega
  · show s₄.vmaObjs ≤ _
    omega

/-! ### Runs -/

/-- A live process: its `mm`, the vmas of the kernel's pages, and the numbers of live objects that it
owns. -/
structure Live where
  mm : Mm
  vmaTrampoline : Option Vma
  vmaTrapframe : Option Vma
  mms : ℤ
  vmas : ℤ

/-- The process that `allocproc` made, from `s` to `s'`. -/
def Live.made (s s' : KState) (o : NewMm) : Live :=
  ⟨o.mm, o.vmaTrampoline, o.vmaTrapframe, s'.mmObjs - s.mmObjs, s'.vmaObjs - s.vmaObjs⟩

/-- After a call for the process, from `s` to `s'`, that left it with the `mm`. -/
def Live.after (p : Live) (s s' : KState) (mm : Mm) : Live :=
  { p with
    mm, mms := p.mms + (s'.mmObjs - s.mmObjs), vmas := p.vmas + (s'.vmaObjs - s.vmaObjs) }

/-- The kernel, the live processes, and how many were reaped. -/
structure Machine (ι : Type) where
  kernel : KState
  procs : ι → Option Live
  reaped : ℕ

section Runs
variable {ι : Type} [DecidableEq ι]

/-- `allocproc` makes the process `i`. -/
inductive Allocproc (L : Layout) (i : ι) : Machine ι → Machine ι → Prop
  | mk {s s' : KState} {procs : ι → Option Live} {n : ℕ} {o : NewMm} : procs i = none →
    allocMm L s = .ok o s' →
    Allocproc L i ⟨s, procs, n⟩ ⟨s', Function.update procs i (some (.made s s' o)), n⟩

/-- `freeproc` ends the process `i`. -/
inductive Freeproc (L : Layout) (i : ι) : Machine ι → Machine ι → Prop
  | mk {s s' : KState} {procs : ι → Option Live} {n : ℕ} {p : Live} : procs i = some p →
    freeprocMm L p.mm p.vmaTrampoline p.vmaTrapframe s = .ok () s' →
    Freeproc L i ⟨s, procs, n⟩ ⟨s', Function.update procs i none, n + 1⟩

/-- One step: a call that came back, whatever it returned. -/
inductive Step (L : Layout) : Machine ι → Machine ι → Prop
  | allocproc {c c' : Machine ι} (i : ι) : Allocproc L i c c' → Step L c c'
  | fork {s s' : KState} {procs : ι → Option Live} {n : ℕ} {p np : Live} {r : ℤ} {mm : Mm}
    (i j : ι) : procs i = some p → procs j = some np → mmCopy L p.mm np.mm s = .ok (r, mm) s' →
    Step L ⟨s, procs, n⟩ ⟨s', Function.update procs j (some (np.after s s' mm)), n⟩
  | load {s s' : KState} {procs : ι → Option Live} {n : ℕ} {q : Live} {p p' : Proc} {r : ℤ}
    (i : ι) (elf : Image) : procs i = some q → p.mm = some q.mm →
    loadUserElf L elf p s = .ok (r, p') s' →
    Step L ⟨s, procs, n⟩ ⟨s', Function.update procs i (some (q.after s s' (mmOf p'))), n⟩
  | exec {s s' : KState} {procs : ι → Option Live} {n : ℕ} {q : Live} {p p' : Proc} {r : ℤ}
    (i : ι) (userApps : List UserApp) (name : List UInt8) : procs i = some q → p.mm = some q.mm →
    Exec.exec L userApps name p s = .ok (r, p') s' →
    Step L ⟨s, procs, n⟩ ⟨s', Function.update procs i (some (q.after s s' (mmOf p'))), n⟩
  | freeproc {c c' : Machine ι} (i : ι) : Freeproc L i c c' → Step L c c'
  | other {s s' : KState} {procs : ι → Option Live} {n : ℕ} : SamePools s s' →
    Step L ⟨s, procs, n⟩ ⟨s', procs, n⟩

/-- A step in the lifetime of `i`. -/
def StepDuring (L : Layout) (i : ι) (c c' : Machine ι) : Prop := Step L c c' ∧ c'.procs i ≠ none

/-- The lifetime of a process that is made in slot `i` of the machine `c₀` and reaped by the last step
to `c₃`. -/
def Lifetime (L : Layout) (i : ι) (c₀ c₃ : Machine ι) : Prop :=
  ∃ c₁ c₂, Allocproc L i c₀ c₁ ∧ Relation.ReflTransGen (StepDuring L i) c₁ c₂ ∧ Freeproc L i c₂ c₃

/-! ### What nobody owns -/

variable [Fintype ι]

/-- How many of the objects that `f` counts the live processes own. -/
def owned (f : Live → ℤ) (procs : ι → Option Live) : ℤ := ∑ i, (procs i).elim 0 f

/-- The live objects of `mm_allocator` that no live process owns. -/
def lostMms (c : Machine ι) : ℤ := c.kernel.mmObjs - owned Live.mms c.procs

/-- The live objects of `vma_allocator` that no live process owns. -/
def lostVmas (c : Machine ι) : ℤ := c.kernel.vmaObjs - owned Live.vmas c.procs

/-- The numbers of live objects, without those of live processes, are the same. -/
def Balanced (c c' : Machine ι) : Prop := lostMms c' = lostMms c ∧ lostVmas c' = lostVmas c

theorem owned_update (f : Live → ℤ) (procs : ι → Option Live) (i : ι) (x : Option Live) :
    owned f (Function.update procs i x) = owned f procs - (procs i).elim 0 f + x.elim 0 f := by
  unfold owned
  rw [← Finset.add_sum_erase _ _ (Finset.mem_univ i), ← Finset.add_sum_erase _ _ (Finset.mem_univ i),
    Function.update_self]
  have hrest : ∑ j ∈ Finset.univ.erase i, (Function.update procs i x j).elim 0 f =
      ∑ j ∈ Finset.univ.erase i, (procs j).elim 0 f :=
    Finset.sum_congr rfl fun j hj => by rw [Function.update_of_ne (Finset.ne_of_mem_erase hj)]
  rw [hrest]
  ring

omit [DecidableEq ι] in
theorem owned_none (f : Live → ℤ) : owned f (fun _ : ι => none) = 0 := by simp [owned]

omit [DecidableEq ι] in
theorem owned_nonneg {f : Live → ℤ} {procs : ι → Option Live}
    (h : ∀ i p, procs i = some p → 0 ≤ f p) : 0 ≤ owned f procs := by
  refine Finset.sum_nonneg fun i _ => ?_
  cases hp : procs i with
  | none => exact le_rfl
  | some p => exact h i p hp

theorem le_owned {f : Live → ℤ} {procs : ι → Option Live}
    (h : ∀ i p, procs i = some p → 0 ≤ f p) {i : ι} {p : Live} (hi : procs i = some p) :
    f p ≤ owned f procs := by
  have hrest : 0 ≤ owned f (Function.update procs i none) := owned_nonneg fun j q hq => by
    by_cases hji : j = i
    · subst hji
      rw [Function.update_self] at hq
      cases hq
    · rw [Function.update_of_ne hji] at hq
      exact h j q hq
  rw [owned_update, hi] at hrest
  change 0 ≤ _ - f p + 0 at hrest
  omega

/-- A live process owns its `mm` object, the vma objects of its list, and two more. -/
structure Live.Ok (p : Live) : Prop where
  refcnt : p.mm.refcnt = 1
  mms : p.mms = 1
  vmas : 2 + (p.mm.vma.length : ℤ) ≤ p.vmas

/-- The invariant of the runs. -/
structure Ok (c : Machine ι) : Prop where
  live : ∀ i p, c.procs i = some p → p.Ok
  cap : c.kernel.vmaObjs ≤ objectCount
  mms : 0 ≤ lostMms c

/-- What a run does to the objects that nobody owns: of the `mm` objects there are as many, and with
every process that was reaped there are two vma objects more. -/
structure Lost (c c' : Machine ι) : Prop where
  mms : lostMms c' = lostMms c
  vmas : lostVmas c + 2 * c'.reaped ≤ lostVmas c' + 2 * c.reaped
  reaped : c.reaped ≤ c'.reaped

theorem Live.Ok.after {p : Live} (h : p.Ok) (hb : Books s p.mm s' mm') :
    (p.after s s' mm').Ok := by
  have hu := hb.unlisted
  have hv := h.vmas
  refine ⟨hb.refcnt.trans h.refcnt, ?_, ?_⟩
  · show p.mms + ((s'.mmObjs : ℤ) - s.mmObjs) = 1
    rw [hb.mms, h.mms]
    ring
  · show 2 + (mm'.vma.length : ℤ) ≤ p.vmas + (s'.vmaObjs - s.vmaObjs)
    omega

omit [Fintype ι] in
/-- The slots of a machine after one changed. -/
theorem ok_update {procs : ι → Option Live} {i : ι} {x : Option Live}
    (h : ∀ i p, procs i = some p → p.Ok) (hx : ∀ p, x = some p → p.Ok) :
    ∀ j p, Function.update procs i x j = some p → p.Ok := fun j p hp => by
  by_cases hji : j = i
  · subst hji
    rw [Function.update_self] at hp
    exact hx p hp
  · rw [Function.update_of_ne hji] at hp
    exact h j p hp

omit [DecidableEq ι] in
theorem Lost.refl (c : Machine ι) : Lost c c := ⟨rfl, le_rfl, le_rfl⟩

omit [DecidableEq ι] in
theorem Lost.trans {c c' c'' : Machine ι} (h : Lost c c') (h' : Lost c' c'') : Lost c c'' := by
  have h₁ := h.vmas
  have h₂ := h'.vmas
  exact ⟨h'.mms.trans h.mms, by omega, h.reaped.trans h'.reaped⟩

/-! ### The steps -/

variable {c c' c₀ c₁ c₂ c₃ : Machine ι} {i : ι} {procs : ι → Option Live} {m n : ℕ}

/-- A step of one process, from a slot `procs i` to `x`. -/
theorem lostMms_update (x : Option Live) : lostMms ⟨s', Function.update procs i x, m⟩ =
    lostMms ⟨s, procs, n⟩ + (s'.mmObjs - s.mmObjs) + (procs i).elim 0 Live.mms -
      x.elim 0 Live.mms := by
  unfold lostMms
  rw [owned_update]
  show (s'.mmObjs : ℤ) - _ = s.mmObjs - _ + (s'.mmObjs - s.mmObjs) + _ - _
  ring

theorem lostVmas_update (x : Option Live) : lostVmas ⟨s', Function.update procs i x, m⟩ =
    lostVmas ⟨s, procs, n⟩ + (s'.vmaObjs - s.vmaObjs) + (procs i).elim 0 Live.vmas -
      x.elim 0 Live.vmas := by
  unfold lostVmas
  rw [owned_update]
  show (s'.vmaObjs : ℤ) - _ = s.vmaObjs - _ + (s'.vmaObjs - s.vmaObjs) + _ - _
  ring

theorem Allocproc.next (h : Allocproc L i c c') (hok : Ok c) : Ok c' ∧ Lost c c' := by
  cases h with
  | @mk s s' procs n o hi hx =>
    obtain ⟨hlist, href, hm, hv, hcap⟩ := (wp_of_eq_ok hx).mp wp_allocMm_pools
    have hnew : (Live.made s s' o).Ok := by
      refine ⟨href, ?_, ?_⟩
      · show (s'.mmObjs : ℤ) - s.mmObjs = 1
        omega
      · show 2 + (o.mm.vma.length : ℤ) ≤ s'.vmaObjs - s.vmaObjs
        rw [hlist, List.length_nil]
        omega
    have hmms : lostMms ⟨s', Function.update procs i (some (.made s s' o)), n⟩ =
        lostMms ⟨s, procs, n⟩ := by
      rw [lostMms_update (s := s) (n := n), hi]
      show _ + (s'.mmObjs - s.mmObjs) + 0 - ((s'.mmObjs : ℤ) - s.mmObjs) = _
      ring
    have hvmas : lostVmas ⟨s', Function.update procs i (some (.made s s' o)), n⟩ =
        lostVmas ⟨s, procs, n⟩ := by
      rw [lostVmas_update (s := s) (n := n), hi]
      show _ + (s'.vmaObjs - s.vmaObjs) + 0 - ((s'.vmaObjs : ℤ) - s.vmaObjs) = _
      ring
    refine ⟨⟨ok_update hok.live fun p hp => ?_, hcap, hmms ▸ hok.mms⟩, hmms, by rw [hvmas], le_rfl⟩
    cases hp
    exact hnew

/-- A call for a process keeps what nobody owns. -/
theorem after_next {p : Live} (hok : Ok ⟨s, procs, n⟩)
    (hi : procs i = some p) (hb : Books s p.mm s' mm') :
    Ok ⟨s', Function.update procs i (some (p.after s s' mm')), n⟩ ∧
      Lost ⟨s, procs, n⟩ ⟨s', Function.update procs i (some (p.after s s' mm')), n⟩ := by
  have hmms : lostMms ⟨s', Function.update procs i (some (p.after s s' mm')), n⟩ =
      lostMms ⟨s, procs, n⟩ := by
    rw [lostMms_update (s := s) (n := n), hi]
    show _ + (s'.mmObjs - s.mmObjs) + p.mms - (p.mms + ((s'.mmObjs : ℤ) - s.mmObjs)) = _
    ring
  have hvmas : lostVmas ⟨s', Function.update procs i (some (p.after s s' mm')), n⟩ =
      lostVmas ⟨s, procs, n⟩ := by
    rw [lostVmas_update (s := s) (n := n), hi]
    show _ + (s'.vmaObjs - s.vmaObjs) + p.vmas - (p.vmas + ((s'.vmaObjs : ℤ) - s.vmaObjs)) = _
    ring
  refine ⟨⟨ok_update hok.live fun q hq => ?_, hb.cap hok.cap, hmms ▸ hok.mms⟩, hmms, by rw [hvmas], le_rfl⟩
  cases hq
  exact (hok.live i p hi).after hb

/-- **`freeproc` loses two vma objects** at least, and no `mm` object. -/
theorem Freeproc.next (h : Freeproc L i c c') (hok : Ok c) :
    Ok c' ∧ Lost c c' ∧ c'.reaped = c.reaped + 1 := by
  cases h with
  | @mk s s' procs n p hi hx =>
    have hp := hok.live i p hi
    obtain ⟨hm, hle, hge⟩ := (wp_of_eq_ok hx).mp (wp_freeprocMm_pools hp.refcnt)
    have hpos : p.mms ≤ owned Live.mms procs := le_owned (fun j q hq => by
      rw [(hok.live j q hq).mms]
      exact zero_le_one) hi
    have hnn : 0 ≤ (s.mmObjs : ℤ) - owned Live.mms procs := hok.mms
    have hp1 := hp.mms
    have hp2 := hp.vmas
    have hmms : lostMms ⟨s', Function.update procs i none, n + 1⟩ = lostMms ⟨s, procs, n⟩ := by
      rw [lostMms_update (s := s) (n := n), hi]
      show _ + ((s'.mmObjs : ℤ) - s.mmObjs) + p.mms - 0 = _
      omega
    refine ⟨⟨ok_update hok.live fun q hq => ?_, hge.trans hok.cap, hmms ▸ hok.mms⟩,
      ⟨hmms, ?_, Nat.le_succ _⟩, rfl⟩
    · cases hq
    rw [lostVmas_update (s := s) (n := n), hi]
    show _ + 2 * ((n + 1 : ℕ) : ℤ) ≤ _ + ((s'.vmaObjs : ℤ) - s.vmaObjs) + p.vmas - 0 + 2 * n
    push_cast
    omega

/-- **One step.** -/
theorem Step.next (h : Step L c c') (hok : Ok c) : Ok c' ∧ Lost c c' := by
  cases h with
  | allocproc i h => exact h.next hok
  | @fork s s' procs n p np r mm i j hi hj hx =>
    exact after_next hok hj ((wp_of_eq_ok hx).mp (books_mmCopy p.mm np.mm))
  | @load s s' procs n q p p' r i elf hi hp hx =>
    exact after_next hok hi ((wp_of_eq_ok hx).mp (books_loadUserElf elf hp))
  | @exec s s' procs n q p p' r i userApps name hi hp hx =>
    exact after_next hok hi ((wp_of_eq_ok hx).mp (books_exec userApps name hp))
  | freeproc i h =>
    obtain ⟨hok', hlost, -⟩ := h.next hok
    exact ⟨hok', hlost⟩
  | @other s s' procs n h =>
    have hmms : lostMms ⟨s', procs, n⟩ = lostMms ⟨s, procs, n⟩ := by
      unfold lostMms
      rw [h.1]
    refine ⟨⟨hok.live, h.2.trans_le hok.cap, hmms ▸ hok.mms⟩, hmms, ?_, le_rfl⟩
    unfold lostVmas
    rw [h.2]

/-- **Every run.** -/
theorem run_next (hrun : Relation.ReflTransGen (Step L) c c') (hok : Ok c) : Ok c' ∧ Lost c c' := by
  induction hrun with
  | refl => exact ⟨hok, Lost.refl c⟩
  | tail _ hstep ih =>
    obtain ⟨hok', hlost⟩ := hstep.next ih.1
    exact ⟨hok', ih.2.trans hlost⟩

/-- A lifetime goes from an `allocproc` to the `freeproc` of its process. -/
theorem Lifetime.next (h : Lifetime L i c₀ c₃) (hok : Ok c₀) :
    Ok c₃ ∧ Lost c₀ c₃ ∧ c₀.reaped < c₃.reaped := by
  obtain ⟨c₁, c₂, hnew, hrun, hend⟩ := h
  obtain ⟨hok₁, hlost₁⟩ := hnew.next hok
  obtain ⟨hok₂, hlost₂⟩ := run_next (Relation.ReflTransGen.mono (fun _ _ h => h.1) _ _ hrun) hok₁
  obtain ⟨hok₃, hlost₃, hreaped⟩ := hend.next hok₂
  have hlost := (hlost₁.trans hlost₂).trans hlost₃
  have hle := (hlost₁.trans hlost₂).reaped
  exact ⟨hok₃, hlost, by omega⟩

omit [DecidableEq ι] in
/-- A machine without processes. -/
theorem ok_start (hcap : s.vmaObjs ≤ objectCount) : Ok (⟨s, fun _ : ι => none, 0⟩ : Machine ι) := by
  refine ⟨fun i p (hp : none = some p) => ?_, hcap, ?_⟩
  · cases hp
  unfold lostMms
  rw [owned_none]
  show (0 : ℤ) ≤ s.mmObjs - 0
  omega

/-- **No lifetime leaves the pools as they were**, in any run from a machine without processes; and
no run reaps more processes than half as many as there are vma objects. -/
theorem lifetime_unbalanced (hcap : s.vmaObjs ≤ objectCount)
    (hrun : Relation.ReflTransGen (Step L) ⟨s, fun _ => none, 0⟩ c₀) (hlife : Lifetime L i c₀ c₃) :
    ¬ Balanced c₀ c₃ ∧ 2 * c₃.reaped ≤ objectCount := by
  obtain ⟨hok₀, hlost₀⟩ := run_next hrun (ok_start hcap)
  obtain ⟨hok₃, hlost, hreaped⟩ := hlife.next hok₀
  have hvmas := hlost.vmas
  refine ⟨fun hb => ?_, ?_⟩
  · have := hb.2
    omega
  · have htotal := (hlost₀.trans hlost).vmas
    have hstart : lostVmas (⟨s, fun _ : ι => none, 0⟩ : Machine ι) = s.vmaObjs := by
      unfold lostVmas
      rw [owned_none]
      exact sub_zero _
    have howned : 0 ≤ owned Live.vmas c₃.procs := owned_nonneg fun j p hp => by
      have := (hok₃.live j p hp).vmas
      omega
    have hend : lostVmas c₃ ≤ objectCount := by
      have := hok₃.cap
      unfold lostVmas
      omega
    rw [hstart] at htotal
    change (s.vmaObjs : ℤ) + 2 * (c₃.reaped : ℤ) ≤ _ + 2 * ((0 : ℕ) : ℤ) at htotal
    omega

end Runs

/-- After boot a process is made, forks, and the child is reaped. -/
theorem exists_lifetime : ∃ (s : KState) (c₀ c₃ : Machine Bool),
    kpgmgrinit sampleLayout zeroState = .ok () s ∧ s.vmaObjs ≤ objectCount ∧
    Relation.ReflTransGen (Step sampleLayout) ⟨s, fun _ => none, 0⟩ c₀ ∧
    Lifetime sampleLayout false c₀ c₃ := by
  obtain ⟨s, hboot, hfree, hlog, hroom⟩ := sample_room
  have hinv := invariant (ι := Bool) hfree hlog Relation.ReflTransGen.refl
  obtain ⟨o, s₁, hx, hroom₁, hlist, -⟩ := create_enabled (n := 15356) hinv hroom true
  have hinv₁ := (Vm.Family.Step.create true hx hroom₁.wet).inv hinv
  obtain ⟨o', s₂, hx', hroom₂, -⟩ := create_enabled (n := 0) hinv₁ (hroom₁.mono (by decide)) false
  obtain ⟨A, hA, -⟩ := hinv₁
  obtain ⟨B, f, -, hB, -, hfresh, hvt, hvf, -⟩ := wet.elim (wet_allocMm hA false) hx' hroom₂.wet
  obtain ⟨s₃, s₄, s₅, hx₃, hx₄, hx₅⟩ := Lives.reap_enabled hB hfresh.userMm
  have hcopy : mmCopy sampleLayout o.mm o'.mm s₂ = .ok (0, o'.mm) s₂ := by
    unfold mmCopy
    rw [hlist]
    rfl
  have hend : freeprocMm sampleLayout o'.mm o'.vmaTrampoline o'.vmaTrapframe s₂ = .ok () s₅ := by
    unfold freeprocMm
    rw [hvt, hvf]
    exact (bind_of_eq_ok hx₃).trans ((bind_of_eq_ok hx₄).trans hx₅)
  have hparent := Function.update_self true (some (Live.made s s₁ o)) fun _ : Bool => none
  have hchild := Function.update_self false (some (Live.made s₁ s₂ o'))
    (Function.update (fun _ : Bool => none) true (some (.made s s₁ o)))
  have hfork := Step.fork (n := 0) true false
    ((Function.update_of_ne (by decide) _ _).trans hparent) hchild hcopy
  refine ⟨s, _, _, hboot, by have := hroom.vmaObjs; omega,
    .single (.allocproc true (.mk rfl hx)), _, _, .mk ?_ hx', .single ⟨hfork, ?_⟩,
    .mk (Function.update_self ..) hend⟩
  · exact Function.update_of_ne (by decide) _ _
  · simp

theorem lifetime_unbalanced_sample : ∃ (s : KState) (c₀ c₃ : Machine Bool),
    kpgmgrinit sampleLayout zeroState = .ok () s ∧
    Relation.ReflTransGen (Step sampleLayout) ⟨s, fun _ => none, 0⟩ c₀ ∧
    Lifetime sampleLayout false c₀ c₃ ∧ ¬ Balanced c₀ c₃ ∧ 2 * c₃.reaped ≤ objectCount := by
  obtain ⟨s, c₀, c₃, hboot, hcap, hrun, hlife⟩ := exists_lifetime
  exact ⟨s, c₀, c₃, hboot, hrun, hlife, lifetime_unbalanced hcap hrun hlife⟩

/-- **Not every lifetime is balanced.** -/
theorem not_balanced : ¬ ∀ (L : Layout) (s : KState) (c₀ c₃ : Machine Bool) (i : Bool),
    kpgmgrinit L zeroState = .ok () s →
    Relation.ReflTransGen (Step L) ⟨s, fun _ => none, 0⟩ c₀ → Lifetime L i c₀ c₃ →
    Balanced c₀ c₃ := by
  intro h
  obtain ⟨s, c₀, c₃, hboot, hcap, hrun, hlife⟩ := exists_lifetime
  have hb := (h _ _ _ _ _ hboot hrun hlife).2
  obtain ⟨-, hlost, hreaped⟩ := hlife.next (run_next hrun (ok_start hcap)).1
  have := hlost.vmas
  omega

end UCore.Proc.Pools

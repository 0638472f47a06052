import UCore.Proc.ExitCode

/-! # Who writes to a trapframe

The machine of `Lives` with the trapframe pointers of the processes, and the stores that are no call of
`vm.c`: those to trapframes, to the kernel's own memory, and the exit codes that `wait` stores. While a
process has its address space, no step of another touches its trapframe (`World.next`), as long as the
exit codes stay in one user page. -/

namespace UCore.Trap.Isolation

open UCore.Lib.Bytes UCore.Lib.Hoare UCore.Riscv UCore.Mem.State UCore.Mem.Kalloc UCore.Mem.Boot
open UCore.Vm.Spaces UCore.Vm.Tables UCore.Vm.Growth UCore.Vm.Walk UCore.Vm.VmaList UCore.Vm.Process
open UCore.Vm.Family UCore.Vm.Fork UCore.Vm.Fault UCore.Vm.Lives UCore.Proc.ExitCode

variable {ι : Type}

/-- The machine, and `p->trapframe` of every process. -/
structure Sys (ι : Type) where
  mach : Machine ι
  trapframe : ι → ℕ

def Sys.mem (c : Sys ι) : Mem := c.mach.1.mem

def Sys.withMem (c : Sys ι) (m : Mem) : Sys ι :=
  { c with mach := ({ c.mach.1 with mem := m }, c.mach.2) }

@[simp] theorem Sys.withMem_mem (c : Sys ι) (m : Mem) : (c.withMem m).mem = m := rfl
@[simp] theorem Sys.withMem_trapframe (c : Sys ι) (m : Mem) :
    (c.withMem m).trapframe = c.trapframe := rfl
@[simp] theorem Sys.withMem_mms (c : Sys ι) (m : Mem) : (c.withMem m).mach.2 = c.mach.2 := rfl

/-- The pages of the kernel's own: outside the region of the allocator, and the frames `own` that it
took at boot, for its stacks. -/
def KernelMem (L : Layout) (own : Set ℕ) : Set ℕ := {f | f % 4096 = 0 ∧ (L.Frame f → f ∈ own)}

/-- One step. The trapframes of the members of `J` may be written, and an exit code is stored through
`code` for a process with the address space `mm` if `ok` says so. -/
inductive World [DecidableEq ι] (L : Layout) (own : Set ℕ) (ok : KState → Mm → ℕ → Prop) (J : Set ι) :
    Sys ι → Sys ι → Prop
  | allocproc {s s' : KState} {mms : ι → Option Mm} {tf : ι → ℕ} {o : NewMm} (i : ι) : mms i = none →
    allocMm L s = .ok o s' → PageEvent.empty ∉ s'.log → World L own ok J ⟨(s, mms), tf⟩
      ⟨(s', Function.update mms i (some o.mm)), Function.update tf i (PA_TO_KVA o.tf)⟩
  | life {c c' : Machine ι} {tf : ι → ℕ} : Life L c c' →
    (∀ i mm', c'.2 i = some mm' → ∃ mm, c.2 i = some mm ∧ mm'.pgt = mm.pgt) →
    World L own ok J ⟨c, tf⟩ ⟨c', tf⟩
  | trapframe {c : Sys ι} {m' : Mem} {mm : Mm} (j : ι) : j ∈ J → c.mach.2 j = some mm →
    SameOff {KVA_TO_PA (c.trapframe j)} c.mem m' → World L own ok J c (c.withMem m')
  | kernel {c : Sys ι} {m' : Mem} : SameOff (KernelMem L own) c.mem m' →
    World L own ok J c (c.withMem m')
  | exitCode {s s' : KState} {mms : ι → Option Mm} {tf : ι → ℕ} {mm : Mm} (j : ι)
    (code exitCode : ℕ) : mms j = some mm → ok s mm code →
    storeExitCode L code exitCode s = .ok () s' → World L own ok J ⟨(s, mms), tf⟩ ⟨(s', mms), tf⟩

/-- The four bytes lie in one user page. -/
def OnePage (s : KState) (mm : Mm) (code : ℕ) : Prop :=
  ∃ f ∈ userFrames s.mem mm, f ≤ KVA_TO_PA code ∧ KVA_TO_PA code + 4 ≤ f + 4096

/-- While `i` is in the kernel: a step that ends no address space of its own, and is no store of its own
to its trapframe. -/
def Meanwhile [DecidableEq ι] (L : Layout) (own : Set ℕ) (ok : KState → Mm → ℕ → Prop) (i : ι)
    (c c' : Sys ι) : Prop :=
  World L own ok {i}ᶜ c c' ∧ c'.mach.2 i ≠ none

variable {L : Layout} {own : Set ℕ} {s s' : KState} {A B : View ι} {i j k : ι} {mm mm' : Mm}
  {J : Set ι} {c c' : Sys ι} {m' : Mem}

/-! ### The invariant -/

/-- The trapframe pointer `tf` leads to the frame that is mapped at `TRAPFRAME`. -/
def TrapframeAt (L : Layout) (A : View ι) (i : ι) (tf : ℕ) : Prop :=
  ∃ f, L.Frame f ∧ tf = PA_TO_KVA f ∧ A.pte i trapframeVpn = mkPte f trapframeFlags

structure Good (L : Layout) (own : Set ℕ) (A : View ι) (c : Sys ι) : Prop where
  reps : Reps L c.mach.1 A
  held : A.held = own
  user : ∀ i mm, c.mach.2 i = some mm → UserMm L A i mm
  trapframe : ∀ i mm, c.mach.2 i = some mm → TrapframeAt L A i (c.trapframe i)

theorem PTE2PA_trapframe {f : ℕ} (hf : L.Frame f) : PTE2PA (mkPte f trapframeFlags) = f := by
  rw [PTE2PA_mkPte (by have := hf.lt; omega) (by decide), hf.div_mul]

/-- The frame of a trapframe has no other use. -/
theorem TrapframeAt.owns {tf : ℕ} (h : TrapframeAt L A i tf) :
    A.Owns L (.leaf i trapframeVpn) (KVA_TO_PA tf) := by
  obtain ⟨f, hf, htf, hpte⟩ := h
  rw [htf, KVA_TO_PA_PA_TO_KVA (by have := hf.lt; omega)]
  refine ⟨by decide, ?_, ?_, hf⟩
  · rw [hpte]
    exact has_mkPte_V _ _
  · rw [hpte, PTE2PA_trapframe hf]

theorem TrapframeAt.aligned {tf : ℕ} (h : TrapframeAt L A i tf) : KVA_TO_PA tf % 4096 = 0 := by
  obtain ⟨f, hf, htf, -⟩ := h
  rw [htf, KVA_TO_PA_PA_TO_KVA (by have := hf.lt; omega)]
  exact hf.aligned

/-- The accessed and the dirty bit of a trapframe's mapping are set from the start. -/
theorem faultPte_trapframe (store : Bool) (f : ℕ) :
    faultPte store (mkPte f trapframeFlags) = mkPte f trapframeFlags := by
  have hA : trapframeFlags ||| PTE_V ||| PTE_A = trapframeFlags ||| PTE_V := by decide
  have hD : trapframeFlags ||| PTE_V ||| PTE_D = trapframeFlags ||| PTE_V := by decide
  unfold faultPte mkPte
  rw [Nat.or_assoc (PA2PTE f)]
  cases store with
  | false => rw [if_neg (by simp), Nat.or_assoc (PA2PTE f), hA]
  | true => rw [if_pos rfl, Nat.or_assoc (PA2PTE f), hA, Nat.or_assoc (PA2PTE f), hD]

theorem Elsewhere.not_trapframe {tf f : ℕ} (hA : A.Ok L) (h : TrapframeAt L A i tf)
    (hf : f ∈ Elsewhere L A) : f ≠ KVA_TO_PA tf := by
  intro he
  obtain ⟨o, ho, hne⟩ := hf
  exact hne i (hA.uniq _ _ _ ho (he ▸ h.owns))

theorem Elsewhere.aligned {f : ℕ} (hA : A.Ok L) (hf : f ∈ Elsewhere L A) : f % 4096 = 0 := by
  obtain ⟨o, ho, -⟩ := hf
  exact (hA.frame o f ho).aligned

/-- A change of the memory only, of pages that are not the kernel's tables. -/
theorem Good.write (h : Good L own A c) {D : Set ℕ} (hD : ∀ f ∈ D, f % 4096 = 0)
    (hk : ∀ f ∈ Kernel A, f ∉ D) (hm : SameOff D c.mem m') : Good L own A (c.withMem m') :=
  ⟨h.reps.sameOff hD hk hm rfl rfl, h.held, h.user, h.trapframe⟩

theorem Good.kernelMem (h : Good L own A c) :
    (∀ f ∈ Kernel A, f ∉ KernelMem L own) ∧
      ∀ i mm, c.mach.2 i = some mm → KVA_TO_PA (c.trapframe i) ∉ KernelMem L own := by
  have hno : ∀ o f, A.Owns L o f → o ≠ .held → f ∉ KernelMem L own := fun o f ho hne hf => by
    have hF := h.reps.ok.frame o f ho
    exact hne (h.reps.ok.uniq _ .held f ho ⟨h.held ▸ hf.2 hF, hF⟩)
  refine ⟨?_, fun i mm hi => hno _ _ (h.trapframe i mm hi).owns (by simp)⟩
  rintro f (hf | ⟨j, p, hp, hf⟩)
  · exact hno .free f hf (by simp)
  · exact hno (.table j p) f ⟨hp, hf⟩ (by simp)

/-! ### Steps -/

/-- What a step leaves of a process that it does not end: its table, its trapframe pointer, and, unless
it may write trapframes, the bytes there. -/
structure Spared (c c' : Sys ι) (J : Set ι) (k : ι) (mm mm' : Mm) : Prop where
  pgt : mm'.pgt = mm.pgt
  pointer : c'.trapframe k = c.trapframe k
  bytes : k ∉ J → ∀ x, InPage (KVA_TO_PA (c.trapframe k)) x → c'.mem x = c.mem x

/-- A step that changes the memory only, away from the trapframe of `k`. -/
theorem Spared.write {D : Set ℕ} (h : Good L own A c) (hD : ∀ f ∈ D, f % 4096 = 0)
    (hm : SameOff D c.mem m') (hk : c.mach.2 k = some mm)
    (hne : k ∉ J → KVA_TO_PA (c.trapframe k) ∉ D) : Spared c (c.withMem m') J k mm mm :=
  ⟨rfl, rfl, fun hkJ _ hx => hm.page hD (h.trapframe k mm hk).aligned (hne hkJ) hx⟩

variable [DecidableEq ι]

omit [DecidableEq ι] in
/-- An exit code that stays in one user page changes nothing but that page. -/
theorem storeExitCode_sameOff {code exitCode : ℕ} (h : OnePage s mm code)
    (hx : storeExitCode L code exitCode s = .ok () s') :
    ∃ m', SameOff (userFrames s.mem mm) s.mem m' ∧ s' = { s with mem := m' } := by
  obtain ⟨f, hf, h1, h2⟩ := h
  have hspec : wp (storeExitCode L code exitCode) s
      (fun _ s' => ∃ m', SameOff (userFrames s.mem mm) s.mem m' ∧ s' = { s with mem := m' })
      fun _ _ => True := by
    unfold storeExitCode kblit
    split_ifs with hc h0
    · exact absurd h0 (by decide)
    · exact wp_bind.mpr (wp_ensure.mpr ⟨fun _ => wp_modify.mpr ⟨_, sameOff_blit hf h1 h2, rfl⟩,
        fun _ => trivial⟩)
    · exact ⟨s.mem, SameOff.refl _ _, rfl⟩
  exact (wp_of_eq_ok hx).mp hspec

omit [DecidableEq ι] in
/-- A kept trapframe is where it was. -/
theorem Moved.trapframeAt {m : Mem} {mms : ι → Option Mm} {d : Machine ι} {tf : ℕ}
    (h : Moved L m A mms d B) (htf : TrapframeAt L A k tf) (hk : mms k = some mm)
    (hk' : d.2 k = some mm') (hpgt : mm'.pgt = mm.pgt) : TrapframeAt L B k tf := by
  obtain ⟨f, hf, he, hpte⟩ := htf
  refine ⟨f, hf, he, ?_⟩
  rcases h.trapframe k mm mm' hk hk' hpgt with hB | ⟨store, hB⟩
  · rw [hB, hpte]
  · rw [hB, hpte, faultPte_trapframe]

omit [DecidableEq ι] in
/-- A kept trapframe is not written. -/
theorem Moved.bytes {m : Mem} {mms : ι → Option Mm} {d : Machine ι} {tf : ℕ} (hA : A.Ok L)
    (h : Moved L m A mms d B) (htf : TrapframeAt L A k tf) (hk : mms k = some mm)
    (hk' : d.2 k = some mm') (hpgt : mm'.pgt = mm.pgt) :
    ∀ x, InPage (KVA_TO_PA tf) x → d.1.mem x = m x := by
  have hB := h.reps.ok
  have htf' := Moved.trapframeAt h htf hk hk' hpgt
  refine fun x hx => h.mem.page (fun f hf => ?_) htf.aligned (fun hf => ?_) hx
  · exact hf.elim (Elsewhere.aligned hA) (Elsewhere.aligned hB)
  · exact hf.elim (fun hf => Elsewhere.not_trapframe hA htf hf rfl)
      fun hf => Elsewhere.not_trapframe hB htf' hf rfl

/-- **One step spares the trapframes** of the processes that it does not end. -/
theorem World.next (hstep : World L own OnePage J c c') (h : Good L own A c) :
    ∃ B, Good L own B c' ∧ ∀ k mm mm', c.mach.2 k = some mm → c'.mach.2 k = some mm' →
      Spared c c' J k mm mm' := by
  have hA := h.reps.ok
  cases hstep with
  | @allocproc s s' mms tf o i hnone hx hd =>
    obtain ⟨B, hB⟩ := (Step.create i hx hd).moved h.reps h.user
    have hne : ∀ {k mm}, mms k = some mm → k ≠ i := fun hk he => by
      rw [he, hnone] at hk
      cases hk
    have hkeep : ∀ {k mm mm'}, mms k = some mm →
        Function.update mms i (some o.mm) k = some mm' → mm' = mm := fun hk hk' => by
      rw [Function.update_of_ne (hne hk), hk, Option.some.injEq] at hk'
      exact hk'.symm
    refine ⟨B, ⟨hB.reps, hB.held.trans h.held, hB.user, fun k mm hk => ?_⟩, fun k mm mm' hk hk' => ?_⟩
    · change Function.update mms i (some o.mm) k = some mm at hk
      change TrapframeAt L B k (Function.update tf i (PA_TO_KVA o.tf) k)
      by_cases hki : k = i
      · subst hki
        obtain ⟨C, f, -, hC, -, hfresh, -, -, hF, hpte, -⟩ := wet.elim (wet_allocMm h.reps k) hx hd
        have hmm : UserMm L B k o.mm := hB.user k o.mm (Function.update_self ..)
        rw [Function.update_self]
        refine ⟨o.tf, hF, rfl, ?_⟩
        rw [← hpte, ← pteAt_user hfresh.userMm hC (by decide), pteAt_user hmm hB.reps (by decide)]
      · have hk₀ := hk
        rw [Function.update_of_ne hki] at hk₀
        rw [Function.update_of_ne hki]
        exact Moved.trapframeAt hB (h.trapframe k mm hk₀) hk₀ hk rfl
    · have hpgt : mm'.pgt = mm.pgt := by rw [hkeep hk hk']
      exact ⟨hpgt, Function.update_of_ne (hne hk) .., fun _ =>
        Moved.bytes hA hB (h.trapframe k mm hk) hk hk' hpgt⟩
  | @life d d' tf hlife hkeep =>
    obtain ⟨B, hB⟩ := hlife.moved h.reps h.user
    have hpgt : ∀ {k mm mm'}, d.2 k = some mm → d'.2 k = some mm' → mm'.pgt = mm.pgt :=
      fun {k mm mm'} hk hk' => by
        obtain ⟨mm₀, hk₀, he⟩ := hkeep k mm' hk'
        rw [hk, Option.some.injEq] at hk₀
        rw [he, hk₀]
    refine ⟨B, ⟨hB.reps, hB.held.trans h.held, hB.user, fun k mm' hk' => ?_⟩,
      fun k mm mm' hk hk' => ⟨hpgt hk hk', rfl, fun _ =>
        Moved.bytes hA hB (h.trapframe k mm hk) hk hk' (hpgt hk hk')⟩⟩
    obtain ⟨mm, hk, -⟩ := hkeep k mm' hk'
    exact Moved.trapframeAt hB (h.trapframe k mm hk) hk hk' (hpgt hk hk')
  | @trapframe c m' mm j hj hm hsame =>
    have hD : ∀ f ∈ ({KVA_TO_PA (c.trapframe j)} : Set ℕ), f % 4096 = 0 := fun f hf => by
      rw [hf]
      exact (h.trapframe j mm hm).aligned
    refine ⟨A, h.write hD (fun f hf he => ?_) hsame, fun k mmk mmk' hk hk' => ?_⟩
    · rw [he] at hf
      exact not_kernel_of_leaf hA (h.trapframe j mm hm).owns hf
    · obtain rfl : mmk = mmk' := Option.some.inj (hk.symm.trans hk')
      refine Spared.write h hD hsame hk fun hkJ he => hkJ ?_
      have ho := (h.trapframe k mmk hk).owns
      rw [he] at ho
      have := hA.uniq _ _ _ ho (h.trapframe j mm hm).owns
      injection this with hkj
      rwa [hkj]
  | @kernel c m' hsame =>
    obtain ⟨hk, htf⟩ := h.kernelMem
    refine ⟨A, h.write (fun f hf => hf.1) hk hsame, fun k mmk mmk' hk hk' => ?_⟩
    obtain rfl : mmk = mmk' := Option.some.inj (hk.symm.trans hk')
    exact Spared.write h (fun f hf => hf.1) hsame hk fun _ => htf k mmk hk
  | @exitCode s s' mms tf mm j code exitCode hm hok hx =>
    obtain ⟨m', hsame, rfl⟩ := storeExitCode_sameOff hok hx
    have hj := h.user j mm hm
    have hsub := userFrames_elsewhere h.reps hj
    have hD : ∀ f ∈ userFrames s.mem mm, f % 4096 = 0 := fun f hf =>
      Elsewhere.aligned hA (hsub hf)
    refine ⟨A, ⟨(reps_writes h.reps hj hsame).2, h.held, h.user, h.trapframe⟩,
      fun k mmk mmk' hk hk' => ?_⟩
    obtain rfl : mmk = mmk' := Option.some.inj (hk.symm.trans hk')
    exact Spared.write h hD hsame hk fun _ he =>
      Elsewhere.not_trapframe hA (h.trapframe k mmk hk) (hsub he) rfl

/-! ### Runs -/

omit [DecidableEq ι] in
/-- A machine after boot: no address spaces, and the kernel holds the frames `own`. -/
theorem good_boot {fs : List ℕ} {tf : ι → ℕ} (hfree : FreeOk L s fs) (hlog : LogOk s.log fs)
    (hown : ∀ f ∈ fs, f ∉ own) :
    Good L own (bootView ι s fs own) ⟨(s, fun _ => none), tf⟩ :=
  ⟨reps_boot hfree hlog hown, rfl, fun _ _ hi => (by cases hi), fun _ _ hi => (by cases hi)⟩

theorem World.good (hrun : Relation.ReflTransGen (World L own OnePage J) c c') (h : Good L own A c) :
    ∃ B, Good L own B c' := by
  induction hrun with
  | refl => exact ⟨A, h⟩
  | tail _ hstep ih =>
    obtain ⟨B, hB⟩ := ih
    obtain ⟨C, hC, -⟩ := hstep.next hB
    exact ⟨C, hC⟩

/-- **The trapframe of a process in the kernel** is spared by every run of the others. -/
theorem meanwhile_spares (hrun : Relation.ReflTransGen (Meanwhile L own OnePage i) c c')
    (h : Good L own A c) (hi : c.mach.2 i = some mm) :
    ∃ B mm', Good L own B c' ∧ c'.mach.2 i = some mm' ∧ Spared c c' {i}ᶜ i mm mm' := by
  induction hrun with
  | refl => exact ⟨A, mm, h, hi, rfl, rfl, fun _ _ _ => rfl⟩
  | tail _ hstep ih =>
    obtain ⟨B, mm', hB, hi', hs⟩ := ih
    obtain ⟨mm'', hi''⟩ := Option.ne_none_iff_exists'.mp hstep.2
    obtain ⟨C, hC, hall⟩ := hstep.1.next hB
    have hs' := hall i mm' mm'' hi' hi''
    refine ⟨C, mm'', hC, hi'', hs'.pgt.trans hs.pgt, hs'.pointer.trans hs.pointer, fun hiJ x hx => ?_⟩
    rw [hs'.bytes hiJ x (by rw [hs.pointer]; exact hx), hs.bytes hiJ x hx]

end UCore.Trap.Isolation

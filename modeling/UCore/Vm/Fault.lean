import UCore.Vm.Fork

/-! # Page faults of user programs

What `usertrap` does about a page fault: `usertrapPageFault`. A fault whose leaf entry is valid is
taken for one about the accessed and dirty bits: the handler sets them and returns to the program.
It asks for neither `PTE_U` nor the permission of the access. So the program goes on after every
fault that it may go on after, and faults forever after every other one at a valid leaf
(`handler_resolves_iff`). -/

namespace UCore.Vm.Fault

open UCore.Lib.Bytes UCore.Lib.Hoare UCore.Riscv UCore.Mem.State UCore.Mem.Kalloc UCore.Mem.Boot
open UCore.Vm.Spaces UCore.Vm.Tables UCore.Vm.Walk UCore.Vm.Map UCore.Vm.Refine UCore.Vm.VmaList
open UCore.Vm.Copy UCore.Vm.Process UCore.Vm.Family UCore.Vm.Fork

variable {ι : Type} {L : Layout} {s s' : KState} {A B : View ι} {i : ι} {mm : Mm} {addr : ℕ}

/-! ### The code -/

/-- The causes of a page fault. -/
inductive Cause
  | loadPageFault | storePageFault | instructionPageFault
  deriving DecidableEq

/-- How the handler ends: back in the program, or in `exit(code)`. -/
inductive Outcome
  | usertrapret
  | exit (code : ℤ)

/-- The cases of `usertrap` for page faults, with the fall-through to the message, the printing of the
table and `exit(-2)`. -/
def usertrapPageFault (L : Layout) (mm : Mm) (cause : Cause) (stval : ℕ) : KM Outcome := do
  if ← pageFault L mm stval (cause = .storePageFault) then
    return .usertrapret
  else
    vmPrint L mm.pgt
    return .exit (-2)

/-! ### The hardware -/

/-- The permission bit that an access asks for. -/
def Cause.flag : Cause → ℕ
  | .loadPageFault => PTE_R
  | .storePageFault => PTE_W
  | .instructionPageFault => PTE_X

/-- The leaf entry is for the user and for this kind of access. Writable but not readable is
reserved. -/
structure Grants (cause : Cause) (e : ℕ) : Prop where
  user : Has e PTE_U
  flag : Has e cause.flag
  readable : Has e PTE_W → Has e PTE_R

/-- Sv39 without hardware update lets the access of a user program through this leaf entry. -/
structure Permits (cause : Cause) (e : ℕ) : Prop where
  valid : Has e PTE_V
  grants : Grants cause e
  accessed : Has e PTE_A
  dirty : cause = .storePageFault → Has e PTE_D

theorem SameAD.grants {cause : Cause} {e e' : ℕ} (h : SameAD e e') :
    Grants cause e ↔ Grants cause e' := by
  have hflag : Has e cause.flag ↔ Has e' cause.flag := by
    cases cause with
    | loadPageFault => exact h.has_R
    | storePageFault => exact h.has_W
    | instructionPageFault => exact h.has_X
  constructor
  · rintro ⟨hU, hf, hW⟩
    exact ⟨h.has_U.mp hU, hflag.mp hf, by rwa [h.has_W, h.has_R] at hW⟩
  · rintro ⟨hU, hf, hW⟩
    exact ⟨h.has_U.mpr hU, hflag.mpr hf, by rwa [h.has_W, h.has_R]⟩

/-- **What the handler stores** lets the access through iff the permission was there before. -/
theorem permits_faultPte {cause : Cause} {e : ℕ} (hV : Has e PTE_V) :
    Permits cause (faultPte (cause = .storePageFault) e) ↔ Grants cause e := by
  have hsame := faultPte_sameAD (cause = .storePageFault) e
  constructor
  · exact fun h => (SameAD.grants hsame).mp h.grants
  · refine fun h => ⟨hsame.has_V.mpr hV, (SameAD.grants hsame).mpr h, ?_, fun hc => ?_⟩
    · unfold faultPte
      split_ifs
      · rw [has_or, has_or]
        exact Or.inl (Or.inr (by decide))
      · rw [has_or]
        exact Or.inr (by decide)
    · rw [faultPte, if_pos (by simpa using hc), has_or]
      exact Or.inr (by decide)

/-! ### Printing a table -/

theorem valid_of_frame {f : ℕ} (hf : L.Frame f) : VALID_PHYS_ADDR f := by
  have h1 := hf.pos
  have h2 := hf.lt
  unfold VALID_PHYS_ADDR KERNEL_PHYS_BASE RISCV_DDR_BASE PHYS_MEM_SIZE
  omega

/-- The page number with given indices. -/
theorem exists_vpn (a b c : Idx) : ∃ v < NVPN, path v = [a, b] ∧ px 0 v = c := by
  have ha := a.isLt
  have hb := b.isLt
  have hc := c.isLt
  refine ⟨(a * 512 + b) * 512 + c, by rw [NVPN_eq]; omega, ?_, ?_⟩
  · simp only [path, px, List.cons.injEq, Fin.ext_iff, and_true]
    norm_num
    omega
  · simp only [px, Fin.ext_iff]
    omega

/-- Every valid entry of the last level is a leaf, or what it leads to passes for a page-table
page. -/
def Printable (A : View ι) (i : ι) : Prop :=
  ∀ v < NVPN, Has (A.pte i v) PTE_V → Has (A.pte i v) PTE_R ∨ VALID_PHYS_ADDR (PTE2PA (A.pte i v))

theorem UserMm.printable (h : UserMm L A i mm) : Printable A i := by
  intro v hv hV
  rcases h.only v hv hV with hm | rfl | rfl
  · exact Or.inr (valid_of_frame (h.listed.valid_leaf hm).2.2.2)
  · exact Or.inl h.trampoline.2.2
  · exact Or.inr (valid_of_frame h.trapframe.2)

/-- One entry: it is no pointer, or it leads to a page that the printer takes for a page-table
page. -/
theorem valid_of_entry (h : Reps L s A) (hp : Printable A i) {p : List Idx} {t : ℕ} (k : Idx)
    (hlen : p.length ≤ 2) (ht : A.tbl i p = some t) (hV : Has (entry s.mem t k) PTE_V)
    (hR : ¬ Has (entry s.mem t k) PTE_R) :
    VALID_PHYS_ADDR (PTE2PA (entry s.mem t k)) ∧
      (p.length ≤ 1 → A.tbl i (p ++ [k]) = some (PTE2PA (entry s.mem t k))) := by
  by_cases h1 : p.length ≤ 1
  · have htbl : A.tbl i (p ++ [k]) = some (PTE2PA (entry s.mem t k)) := by
      rw [h.tbl_concat h1, ht, Option.bind_some, child, if_pos hV]
    have hlen' : (p ++ [k]).length ≤ 2 := by
      rw [List.length_append, List.length_singleton]
      omega
    exact ⟨valid_of_frame (h.ok.frame_tbl hlen' htbl), fun _ => htbl⟩
  · obtain ⟨a, b, rfl⟩ := List.length_eq_two.mp (show p.length = 2 by omega)
    obtain ⟨v, hv, hpath, rfl⟩ := exists_vpn a b k
    rw [← hpath] at ht
    have hpte := h.pte_eq hv ht
    rw [← hpte] at hV hR ⊢
    exact ⟨(hp v hv hV).resolve_left hR, fun hc => absurd hc h1⟩

/-- What the printer does with an entry. -/
theorem wp_printEntry {e k : ℕ} {x : KM Unit} (hk : VALID_PHYS_ADDR k ∨ Has e PTE_R ∨ ¬ Has e PTE_V)
    (hx : Has e PTE_V → ¬ Has e PTE_R → wpOk x s fun _ s' => s' = s) :
    wpOk (if Has e PTE_V ∧ ¬ (Has e PTE_R ∨ Has e PTE_W ∨ Has e PTE_X) then do
      ensure (VALID_PHYS_ADDR k) (Panic.invalidNextLevel k)
      x else pure () : KM Unit) s fun _ s' => s' = s := by
  split_ifs with hc
  · obtain ⟨hV, hR⟩ := hc
    rw [not_or] at hR
    have hvalid := hk.resolve_right fun hn => hn.elim hR.1 fun hn => hn hV
    exact wp_bind.mpr (wp_ensure_pos hvalid (hx hV hR.1))
  · exact wp_pure.mpr rfl

/-- One level of the printer, given what it does at the next one. -/
theorem vmPrintLevel_ok (h : Reps L s A) (hp : Printable A i) {n pgt : ℕ} {p : List Idx} {t : ℕ}
    (hlen : p.length ≤ 2) (ht : A.tbl i p = some t) (hpgt : pgt = PA_TO_KVA t)
    (hnext : ∀ k t' pgt', (p.length ≤ 1 → A.tbl i (p ++ [k]) = some t') → pgt' = PA_TO_KVA t' →
      vmPrintWalk L n pgt' s = .ok () s) : vmPrintWalk L (n + 1) pgt s = .ok () s := by
  have htF := h.ok.frame_tbl hlen ht
  have hentry : ∀ k < 512, wpOk (do
      let pte ← kread64 L (pgt + 8 * k)
      if Has pte PTE_V ∧ ¬ (Has pte PTE_R ∨ Has pte PTE_W ∨ Has pte PTE_X) then
        ensure (VALID_PHYS_ADDR (PTE2PA pte)) (.invalidNextLevel (PTE2PA pte))
        vmPrintWalk L n (PA_TO_KVA (PTE2PA pte)) : KM Unit) s fun _ s' => s' = s := by
    intro k hk
    refine wp_bind.mpr (wp_kread64 htF (by rw [hpgt]) (by omega) ?_)
    have he := fun hV hR => valid_of_entry h hp ⟨k, hk⟩ hlen ht hV hR
    have hload : load s.mem (t + 8 * k) 8 = entry s.mem t ⟨k, hk⟩ := rfl
    rw [hload]
    generalize entry s.mem t ⟨k, hk⟩ = e at he
    refine wp_printEntry ?_ fun hV hR => (wp_of_eq_ok (hnext _ _ _ (he hV hR).2 rfl)).mpr rfl
    by_cases hV : Has e PTE_V
    · by_cases hR : Has e PTE_R
      · exact Or.inr (Or.inl hR)
      · exact Or.inl (he hV hR).1
    · exact Or.inr (Or.inr hV)
  rw [vmPrintWalk]
  refine forM_eq_ok fun k hk => ?_
  obtain ⟨u, s', hx, rfl⟩ := wpOk_iff.mp (hentry k (List.mem_range.mp hk))
  exact hx

/-- **The printer** goes through a tree, and changes nothing. -/
theorem vmPrintWalk_ok (h : Reps L s A) (hp : Printable A i) (n : ℕ) :
    ∀ (p : List Idx) (t pgt : ℕ), p.length + n = 2 → A.tbl i p = some t → pgt = PA_TO_KVA t →
      vmPrintWalk L (n + 1) pgt s = .ok () s := by
  induction n with
  | zero =>
    intro p t pgt hn ht hpgt
    refine vmPrintLevel_ok h hp (by omega) ht hpgt fun k t' pgt' _ _ => ?_
    rw [vmPrintWalk]
    rfl
  | succ n ih =>
    intro p t pgt hn ht hpgt
    refine vmPrintLevel_ok h hp (by omega) ht hpgt fun k t' pgt' hchild hpgt' => ?_
    refine ih (p ++ [k]) t' pgt' ?_ (hchild (by omega)) hpgt'
    rw [List.length_append, List.length_singleton]
    omega

theorem vmPrint_ok (h : Reps L s A) (hp : Printable A i) {r : ℕ} (hr : A.tbl i [] = some r)
    (hpgt : mm.pgt = PA_TO_KVA r) : vmPrint L mm.pgt s = .ok () s :=
  vmPrintWalk_ok h hp 2 [] r mm.pgt rfl hr hpgt

variable [DecidableEq ι]

/-! ### The handler -/

/-- The fault is resolved: the program is ended, or the entry it comes back to lets the access
through. -/
def Resolves (L : Layout) (s : KState) (mm : Mm) (cause : Cause) (stval : ℕ) : Prop :=
  wpOk (usertrapPageFault L mm cause stval) s fun o s' =>
    match o with
    | .usertrapret => Permits cause (pteAt s'.mem mm (stval / 4096))
    | .exit _ => True

omit [DecidableEq ι] in
/-- Beyond `MAXVA` the walk panics. -/
theorem fault_panics {cause : Cause} (ha : ¬ addr ≤ MAXVA) :
    wp (usertrapPageFault L mm cause addr) s (fun _ _ => False) fun _ _ => True := by
  unfold usertrapPageFault pageFault Walk.walk
  refine wp_bind.mpr (wp_bind.mpr (wp_bind.mpr (wp_ensure.mpr ⟨fun hc => ?_, fun _ => trivial⟩)))
  exact absurd hc ha

omit [DecidableEq ι] in
theorem not_resolves {cause : Cause} (ha : ¬ addr ≤ MAXVA) : ¬ Resolves L s mm cause addr := by
  intro h
  obtain ⟨o, s', hx, -⟩ := wpOk_iff.mp h
  exact (wp_of_eq_ok hx).mp (fault_panics ha)

/-- At a valid entry the program goes on, with the entry that the handler stored; at any other one it
is ended. -/
theorem wp_usertrapPageFault (hA : Reps L s A) (hi : UserMm L A i mm) (ha : addr ≤ MAXVA)
    (cause : Cause) :
    wpOk (usertrapPageFault L mm cause addr) s fun o s' =>
      match o with
      | .usertrapret => Has (A.pte i (addr / 4096)) PTE_V ∧
          pteAt s'.mem mm (addr / 4096) =
            faultPte (cause = .storePageFault) (A.pte i (addr / 4096))
      | .exit _ => ¬ Has (A.pte i (addr / 4096)) PTE_V := by
  obtain ⟨r, hr, hpgt⟩ := hi.listed.root
  have hv := vpn_lt ha
  have hprint : ∀ s₁, Reps L s₁ A → vmPrint L mm.pgt s₁ = .ok () s₁ := fun s₁ hs₁ =>
    vmPrint_ok hs₁ (UserMm.printable hi) hr hpgt
  unfold usertrapPageFault
  generalize vmPrint L mm.pgt = x at hprint ⊢
  refine (wp_pageFault hA hr hpgt ha).seq ?_
  rintro (_ | _) s₁ ⟨hb, -, hs₁⟩
  · rw [if_neg (by simp)] at hs₁ ⊢
    exact wp_bind_ok (hprint s₁ hs₁) (wp_pure.mpr fun hV => by simpa using hb.mpr hV)
  · rw [if_pos rfl] at hs₁ ⊢
    refine wp_pure.mpr ⟨hb.mp rfl, ?_⟩
    rw [pteAt_eq hs₁ hr hpgt hv, View.setPte_pte_self]

/-- **When a fault is resolved**, for one address space. -/
theorem resolves_iff (hA : Reps L s A) (hi : UserMm L A i mm) (cause : Cause) (stval : ℕ) :
    Resolves L s mm cause stval ↔ stval ≤ MAXVA ∧
      (Has (pteAt s.mem mm (stval / 4096)) PTE_V → Grants cause (pteAt s.mem mm (stval / 4096))) := by
  by_cases ha : stval ≤ MAXVA
  swap
  · exact ⟨fun h => absurd h (not_resolves ha), fun h => absurd h.1 ha⟩
  have hspec := wp_usertrapPageFault hA hi ha cause
  obtain ⟨o, s', hx, ho⟩ := wpOk_iff.mp hspec
  rw [pteAt_user hi hA (vpn_lt ha)]
  unfold Resolves
  rw [wpOk_iff]
  cases o with
  | usertrapret =>
    obtain ⟨hV, hpte⟩ := ho
    constructor
    · rintro ⟨o', s'', hx', hperm⟩
      rw [hx] at hx'
      cases hx'
      rw [hpte] at hperm
      exact ⟨ha, fun _ => (permits_faultPte hV).mp hperm⟩
    · rintro ⟨-, hg⟩
      refine ⟨_, _, hx, ?_⟩
      show Permits cause _
      rw [hpte]
      exact (permits_faultPte hV).mpr (hg hV)
  | exit code =>
    constructor
    · exact fun _ => ⟨ha, fun hV => absurd hV ho⟩
    · exact fun _ => ⟨_, _, hx, trivial⟩

/-! ### Runs -/

/-- One call, or stores into the user pages of one process: its own, or those of the loader and the
accessors. -/
inductive Turn (L : Layout) : Machine ι → Machine ι → Prop
  | call {c c' : Machine ι} : Step L c c' → Turn L c c'
  | store {s : KState} {mms : ι → Option Mm} {mm : Mm} {m' : Mem} (i : ι) : mms i = some mm →
    SameOff (userFrames s.mem mm) s.mem m' → Turn L (s, mms) ({ s with mem := m' }, mms)

/-- **One turn keeps the invariant.** -/
theorem Turn.inv {c c' : Machine ι} (hturn : Turn L c c') (hinv : Inv L c) : Inv L c' := by
  cases hturn with
  | call hstep => exact hstep.inv hinv
  | store i hmm hm =>
    obtain ⟨A, hA, hall⟩ := hinv
    exact ⟨A, (reps_writes hA (hall i _ hmm) hm).2, hall⟩

/-- **The invariant of every run.** -/
theorem turns_inv {fs : List ℕ} (hfree : FreeOk L s fs) (hlog : LogOk s.log fs) {c : Machine ι}
    (hrun : Relation.ReflTransGen (Turn L) (s, fun _ => none) c) : Inv L c := by
  induction hrun with
  | refl => exact invariant hfree hlog Relation.ReflTransGen.refl
  | tail _ hturn ih => exact hturn.inv ih

/-- **The handler resolves a page fault** iff the address is at most `MAXVA`, and a valid leaf there
grants the access. -/
theorem handler_resolves_iff {fs : List ℕ} {mms : ι → Option Mm} (hfree : FreeOk L s fs)
    (hlog : LogOk s.log fs) (hrun : Relation.ReflTransGen (Turn L) (s, fun _ => none) (s', mms))
    (hmm : mms i = some mm) (cause : Cause) (stval : ℕ) :
    Resolves L s' mm cause stval ↔ stval ≤ MAXVA ∧
      (Has (pteAt s'.mem mm (stval / 4096)) PTE_V →
        Grants cause (pteAt s'.mem mm (stval / 4096))) := by
  obtain ⟨A, hA, hall⟩ := turns_inv hfree hlog hrun
  exact resolves_iff hA (hall i mm hmm) cause stval

/-! ### A read-only page -/

/-- A vma of one page that is read-only, as the loader makes it for `p_flags = PF_R`. -/
def readOnly : Vma := ⟨0x1000, 0x2000, PTE_R ||| PTE_U⟩

theorem readOnly_valid : Vma.Valid readOnly where
  start_le := by decide
  end_le := by decide
  start_al := by decide
  end_al := by decide
  perm := by decide
  flags := by decide

/-- A run to a process with a read-only page. -/
theorem exists_readOnly : ∃ (s₀ s : KState) (mms : Bool → Option Mm) (mm : Mm) (f : ℕ),
    FreeOk sampleLayout s₀ (framesFrom sampleLayout 0 15360) ∧
    LogOk s₀.log (framesFrom sampleLayout 0 15360) ∧
    Relation.ReflTransGen (Turn sampleLayout) (s₀, fun _ => none) (s, mms) ∧
    mms true = some mm ∧ mm.vma = [readOnly] ∧ f < 2 ^ 64 ∧
    Maps (pteAt s.mem mm 1) f readOnly.pteFlags := by
  obtain ⟨s₀, -, hfree, hlog, hroom⟩ := sample_room
  obtain ⟨s, mm, hrun, hlist, -⟩ := exists_run (n := 0) readOnly_valid (by decide) (by decide)
    (by decide) hfree hlog (hroom.mono (by decide)) true
  have hmm := Function.update_self true (some mm) fun _ => none
  obtain ⟨A, hA, hinv⟩ := invariant hfree hlog hrun
  obtain ⟨f, hf, hmaps⟩ := (hinv true mm hmm).listed.leaf readOnly (by rw [hlist]; simp) 1 (by decide)
  have hpte : pteAt s.mem mm 1 = A.pte true 1 := pteAt_user (hinv true mm hmm) hA (by decide)
  have hrun' := Relation.ReflTransGen.mono (fun _ _ => Turn.call) _ _ hrun
  exact ⟨s₀, s, _, mm, f, hfree, hlog, hrun', hmm, hlist, by have := hf.lt; omega, by rwa [hpte]⟩

/-- The first load from a read-only page is resolved. -/
theorem handler_resolves_iff_sample : ∃ (s₀ s : KState) (mms : Bool → Option Mm) (mm : Mm),
    Relation.ReflTransGen (Turn sampleLayout) (s₀, fun _ => none) (s, mms) ∧
    mms true = some mm ∧ mm.vma = [readOnly] ∧
    Resolves sampleLayout s mm .loadPageFault 0x1000 := by
  obtain ⟨s₀, s, mms, mm, f, hfree, hlog, hrun, hmm, hlist, hf, hmaps⟩ := exists_readOnly
  refine ⟨s₀, s, mms, mm, hrun, hmm, hlist, ?_⟩
  refine (handler_resolves_iff hfree hlog hrun hmm .loadPageFault 0x1000).mpr ⟨by decide, fun _ => ?_⟩
  rw [SameAD.grants hmaps]
  exact ⟨(has_mkPte_U hf).mpr (by decide), (has_mkPte_R hf).mpr (by decide), fun _ =>
    (has_mkPte_R hf).mpr (by decide)⟩

/-- **A store to a read-only page** is taken for a fault about the dirty bit: the handler returns to
the program, and the entry still does not let the store through. -/
theorem store_faults_forever : ∃ (s₀ s : KState) (mms : Bool → Option Mm) (mm : Mm),
    Relation.ReflTransGen (Turn sampleLayout) (s₀, fun _ => none) (s, mms) ∧
    mms true = some mm ∧ mm.vma = [readOnly] ∧
    (∃ s', usertrapPageFault sampleLayout mm .storePageFault 0x1000 s = .ok .usertrapret s') ∧
    ¬ Resolves sampleLayout s mm .storePageFault 0x1000 := by
  obtain ⟨s₀, s, mms, mm, f, hfree, hlog, hrun, hmm, hlist, hf, hmaps⟩ := exists_readOnly
  obtain ⟨A, hA, hall⟩ := turns_inv hfree hlog hrun
  have hi := hall true mm hmm
  have hV : Has (pteAt s.mem mm 1) PTE_V := hmaps.valid
  refine ⟨s₀, s, mms, mm, hrun, hmm, hlist, ?_, fun hres => ?_⟩
  · have haddr : 0x1000 ≤ MAXVA := by decide
    obtain ⟨o, s', hx, ho⟩ := wpOk_iff.mp (wp_usertrapPageFault hA hi haddr .storePageFault)
    cases o with
    | usertrapret => exact ⟨s', hx⟩
    | exit code =>
      rw [pteAt_user hi hA (by decide)] at hV
      exact absurd hV ho
  · have hgrants := ((resolves_iff hA hi .storePageFault 0x1000).mp hres).2 hV
    have hW : Has (mkPte f readOnly.pteFlags) PTE_W := (SameAD.has_W hmaps).mp hgrants.flag
    exact absurd ((has_mkPte (k := 2) hf (by decide) (by decide)).mp hW) (by decide)

end UCore.Vm.Fault

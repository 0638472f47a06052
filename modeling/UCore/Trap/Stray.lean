import UCore.Trap.Resume

/-! # Stray bytes

A process with a user mapping of its own trapframe can lose a register to a system call
(`not_resume_of_user`), and an exit code can make such a mapping: `wait` stores its four bytes to
consecutive physical addresses, so at the end of a user page they reach the next frame, which may be a
page-table page of the same process (`stray_exit_code`). Without such stores all traps give back what
they took (`traps_restore`). -/

namespace UCore.Trap.Stray
open UCore.Lib.Bytes UCore.Lib.Hoare UCore.Lib.SaveRestore UCore.Riscv UCore.Mem.State UCore.Mem.Kalloc
open UCore.Mem.Boot UCore.Vm.Spaces UCore.Vm.Tables UCore.Vm.Growth UCore.Vm.Walk UCore.Vm.Map
open UCore.Vm.Refine UCore.Vm.VmaList UCore.Vm.Process UCore.Vm.Family UCore.Vm.Fork UCore.Vm.Fault
open UCore.Vm.Lives UCore.Vm.Uaccess UCore.Vm.UserCopy UCore.Proc.ExitCode UCore.Trap.Trampoline
open UCore.Trap.Isolation UCore.Trap.Resume

/-! ### A trapframe that the user can write -/

section User
variable {ι : Type} [DecidableEq ι] {L : Layout} {own : Set ℕ} {ok : KState → Mm → ℕ → Prop} {J : Set ι}
  {s₀ : KState} {fs : List ℕ} {tf : ι → ℕ} {c : Sys ι} {i : ι} {mm : Mm} {f : ℕ} {m' : Mem}

/-- A hart in the process, with a zero in every register. -/
def idleHart (K : Symbols) (p : CurrProc) (m : Mem) : Hart where
  x := fun _ => 0
  csr
    | .satp => p.satp
    | .sscratch => BitVec.ofNat 64 TRAPFRAME
    | .stvec => K.stvec
    | _ => 0
  pc := 0
  user := true
  mem := m

theorem idleHart_mem (K : Symbols) (p : CurrProc) (m : Mem) : (idleHart K p m).mem = m := rfl

theorem idleHart_get (K : Symbols) (p : CurrProc) (m : Mem) (r : Reg) : (idleHart K p m).get r = 0 := by
  unfold Hart.get idleHart
  exact ite_self _

theorem inUser_idleHart (K : Symbols) (p : CurrProc) (m : Mem) : InUser K p (idleHart K p m) :=
  ⟨rfl, rfl, rfl, rfl⟩

theorem store_world (hi : c.mach.2 i = some mm) (hm : SameOff (userFrames c.mem mm) c.mem m') :
    World L own ok J c (c.withMem m') :=
  World.life (Life.turn (Turn.store i hi hm)) fun _ mm hj => ⟨mm, hj, rfl⟩

omit [DecidableEq ι] in
theorem procOf_withMem (c : Sys ι) (m : Mem) (i : ι) (mm : Mm) (kstack : Word) :
    procOf (c.withMem m) i mm kstack = procOf c i mm kstack := rfl

/-- A process with a user mapping of its own trapframe can lose a register to a system call. -/
theorem not_resume_of_user (hfree : FreeOk L s₀ fs) (hlog : LogOk s₀.log fs)
    (hrun : Relation.ReflTransGen (World L ∅ ok Set.univ) ⟨(s₀, fun _ => none), tf⟩ c)
    (hmm : c.mach.2 i = some mm) (hf : L.Frame f) (ht : c.trapframe i = PA_TO_KVA f)
    (hmap : ∀ m', SameOff {f} c.mem m' →
      HasTrapframe tableWalk (procOf c i mm 0) m' ∧ f ∈ userFrames m' mm) : ¬ SyscallsResume L ι ok := by
  intro hall
  generalize hp : procOf c i mm 0 = p at hmap
  have hpage : ∀ {m m' : Mem}, Within 36 p.word m m' → SameOff {f} m m' := fun {m m'} hw =>
    within_page hf ht (hp ▸ hw : Within 36 (procOf c i mm 0).word m m')
  let K : Symbols := ⟨0, 0, 0, 0⟩
  have hin := inUser_idleHart K p c.mem
  obtain ⟨k, hx, hk, -⟩ := uservec_saves hin (hmap c.mem (SameOff.refl _ _)).1
  obtain ⟨k₁, hx₁, hresume⟩ := hall K ∅ s₀ _ _ c i mm 0 (idleHart K p c.mem) hfree hlog (by simp) hrun
    hmm rfl (hp ▸ hin)
  obtain rfl : k = k₁ := Option.some.inj (hx.symm.trans hx₁)
  rw [hp] at hresume
  -- another system call stores to the user page that is the trapframe
  generalize hm₁ : skipEcall p k.mem = m₁ at hresume
  generalize hm₂ : writeWord m₁ (p.word (tfSlot ra)) 1 = m₂
  have hsame₁ : SameOff {f} c.mem m₁ := hpage (hm₁ ▸ hk.within.trans (within_writeWord (by decide) _))
  have hsame₂ : SameOff {f} m₁ m₂ := hpage (hm₂ ▸ within_writeWord (by decide) _)
  have hstep : Meanwhile L ∅ ok i (c.withMem m₁) ((c.withMem m₁).withMem m₂) := by
    refine ⟨store_world hmm (hsame₂.mono fun g hg => ?_), fun h => ?_⟩
    · rw [show g = f from hg]
      exact (hmap m₁ hsame₁).2
    · rw [Sys.withMem_mms, Sys.withMem_mms, hmm] at h
      cases h
  obtain ⟨k', hk'⟩ : ∃ k' : Hart, k'.mem = storeRet p 0 m₂ := ⟨_, idleHart_mem K p _⟩
  have hafter := hresume _ mm (.single hstep) hmm k' k'.x 0
  rw [procOf_withMem, procOf_withMem, hp, Sys.withMem_mem] at hafter
  obtain ⟨u, hxu, -, -, hreg⟩ := hafter hk'
  have hs' : HasTrapframe tableWalk p k'.mem := by
    rw [hk']
    exact (hmap _ ((hsame₁.trans hsame₂).trans (hpage (within_writeWord (by decide) _)))).1
  obtain ⟨u', hxu', -, -, hreg'⟩ := usertrapret_returns (K := K) hs' k'.x
  obtain rfl : u = u' := Option.some.inj (hxu.symm.trans hxu')
  have hold : u.get ra = 0 := by
    rw [hreg ra, if_neg (by decide)]
    exact idleHart_get ..
  have hnew : u.get ra = 1 := by
    rw [hreg' ra (by decide), hk', storeRet,
      readWord_writeWord_of_apart (hs'.apart 14 (by decide) _ (by decide) (by decide)), ← hm₂]
    exact readWord_writeWord _ _ _
  rw [hold] at hnew
  exact absurd hnew (by decide)

end User

/-! ### The machine -/

/-- The `k`-th frame of the sample machine. -/
def F (k : ℕ) : ℕ := frameAt sampleLayout k

theorem F_add (k n : ℕ) : F (k + n) = F k + n * 4096 := by
  unfold F frameAt
  omega

section Views
variable (s₀ : KState) (rest : List ℕ)

def boot : View Bool :=
  bootView Bool s₀ (F 0 :: F 1 :: F 2 :: F 3 :: F 4 :: F 5 :: F 6 :: F 7 :: F 8 :: rest) ∅

/-- After `allocproc`: the root, two tables for the trampoline, and the trapframe. -/
def tablesView : View Bool :=
  ((boot s₀ rest).take.newRoot true (F 0)).hang true [px 2 trampolineVpn] (F 1) |>.hang true
    (path trampolineVpn) (F 2)

def allocView : View Bool :=
  ((tablesView s₀ rest).setPte true trampolineVpn
    (mkPte sampleLayout.trampoline trampolineFlags)).take.setPte true trapframeVpn
      (mkPte (F 3) trapframeFlags)

theorem trapframeView_boot :
    trapframeView sampleLayout (boot s₀ rest) true (F 0) = (allocView s₀ rest, true) ∧
      (newMm sampleLayout (boot s₀ rest) true (F 0)).tf = F 3 := by
  let R := (boot s₀ rest).take.newRoot true (F 0)
  have hw : UCore.Vm.Growth.walk R true trampolineVpn = (tablesView s₀ rest, true) :=
    walk_of_grow (B := R.hang true [px 2 trampolineVpn] (F 1)) (grow_absent rfl rfl)
      (grow_absent rfl rfl)
  have h1 : trampolineView sampleLayout (boot s₀ rest) true (F 0) = (_, true) :=
    mapAt_eq_of_walk hw (not_has_zero _)
  unfold trapframeView newMm
  rw [h1]
  exact ⟨mapAt_eq_of_walk (walk_of_grow (grow_present (t := F 1) rfl)
    (grow_present (t := F 2) rfl)) (not_has_zero _), rfl⟩

/-- Two user pages on either side of a page-table page's range. -/
def strayVma : Vma := ⟨0x1ff000, 0x201000, PTE_R ||| PTE_W ||| PTE_U⟩

/-- The page-table pages for the first page. -/
def firstView : View Bool :=
  ((allocView s₀ rest).hang true [px 2 511] (F 4)).hang true (path 511) (F 5)

/-- The page-table page for the second page, which follows the first page in memory. -/
def secondView : View Bool :=
  ((firstView s₀ rest).take.setPte true 511 (mkPte (F 6) strayVma.pteFlags)).hang true (path 512) (F 7)

def strayView : View Bool :=
  (secondView s₀ rest).take.setPte true 512 (mkPte (F 8) strayVma.pteFlags)

theorem mapPages_stray :
    mapPages true strayVma.pteFlags [511, 512] (allocView s₀ rest) = (strayView s₀ rest, true) := by
  have hw₁ : UCore.Vm.Growth.walk (allocView s₀ rest) true 511 = (firstView s₀ rest, true) :=
    walk_of_grow (B := (allocView s₀ rest).hang true [px 2 511] (F 4)) (grow_absent rfl rfl)
      (grow_absent rfl rfl)
  have h₁ : mapPage (allocView s₀ rest) true strayVma.pteFlags 511 =
      ((firstView s₀ rest).take.setPte true 511 (mkPte (F 6) strayVma.pteFlags), true) :=
    mapPage_of_walk hw₁ (not_has_zero _) rfl
  let B := (firstView s₀ rest).take.setPte true 511 (mkPte (F 6) strayVma.pteFlags)
  have hw₂ : UCore.Vm.Growth.walk B true 512 = (secondView s₀ rest, true) :=
    walk_of_grow (B := B) (grow_present (t := F 4) rfl) (grow_absent rfl rfl)
  have h₂ : mapPage B true strayVma.pteFlags 512 =
      ((secondView s₀ rest).take.setPte true 512 (mkPte (F 8) strayVma.pteFlags), true) :=
    mapPage_of_walk hw₂ (not_has_zero _) rfl
  unfold mapPages
  rw [h₁, andThen_of_true rfl]
  unfold mapPages
  rw [h₂, andThen_of_true rfl]
  rfl

theorem strayView_pte : (strayView s₀ rest).pte true 511 = mkPte (F 6) strayVma.pteFlags ∧
    (strayView s₀ rest).pte true 512 = mkPte (F 8) strayVma.pteFlags ∧
    (strayView s₀ rest).pte true trapframeVpn = mkPte (F 3) trapframeFlags := by
  unfold strayView secondView firstView allocView
  refine ⟨?_, View.setPte_pte_self .., ?_⟩
  · rw [View.setPte_pte_of_ne (by decide), View.take_pte, View.hang_pte, View.setPte_pte_self]
  · rw [View.setPte_pte_of_ne (by decide), View.take_pte, View.hang_pte,
      View.setPte_pte_of_ne (by decide), View.take_pte, View.hang_pte, View.hang_pte,
      View.setPte_pte_self]

end Views

/-! ### The stray bytes -/

/-- An exit code whose upper three bytes are the lower ones of an entry that leads to the trapframe. -/
def strayCode : ℕ := mkPte (F 3) strayVma.pteFlags % 256 ^ 3 * 256

/-- The memory after the store at the last byte of the first page. -/
def strayMem (m : Mem) : Mem := blit m (F 6 + 4095) 4 (intBytes strayCode)

variable {s₀ s : KState} {rest : List ℕ} {m' : Mem}

theorem entry_zero (m : Mem) (t : ℕ) : entry m t (px 0 512) = load m t 8 := by
  unfold entry
  rw [show ((px 0 512 : Idx) : ℕ) = 0 by decide, Nat.mul_zero, Nat.add_zero]

/-- An exit code at the last byte of a page reaches the lower three bytes of the next one. -/
theorem load_crossing (m : Mem) (f c : ℕ) :
    load (blit m (f + 4095) 4 (intBytes c)) (f + 4096) 8 =
      c / 256 % 256 ^ 3 + 256 ^ 3 * (load m (f + 4096) 8 / 256 ^ 3) := by
  have hlow : load (blit m (f + 4095) 4 (intBytes c)) (f + 4096) 3 = c / 256 % 256 ^ 3 := by
    refine load_store_aux (c / 256) 3 (f + 4096) fun k hk => ?_
    rw [blit_of_mem (by omega) (by omega), show f + 4096 + k - (f + 4095) = k + 1 by omega, intBytes,
      Nat.div_div_eq_div_mul, pow_succ']
  have hhigh : load (blit m (f + 4095) 4 (intBytes c)) (f + 4096 + 3) 5 = load m (f + 4096 + 3) 5 :=
    load_blit_of_disjoint (Or.inr (by omega))
  have h₁ := load_add (blit m (f + 4095) 4 (intBytes c)) 5 3 (f + 4096)
  have h₂ := load_add m 5 3 (f + 4096)
  have h₃ := load_lt m 3 (f + 4096)
  rw [hlow, hhigh] at h₁
  norm_num at h₁ h₂ h₃ ⊢
  omega

/-- The entry of the second page now leads to the trapframe. -/
theorem entry_stray (hA : Reps sampleLayout s (strayView s₀ rest)) :
    entry (strayMem s.mem) (F 7) (px 0 512) = mkPte (F 3) strayVma.pteFlags := by
  have hold : load s.mem (F 7) 8 = mkPte (F 8) strayVma.pteFlags := by
    have h := hA.pte_eq (i := true) (v := 512) (t := F 7) (by decide) rfl
    rw [entry_zero, (strayView_pte s₀ rest).2.1] at h
    exact h.symm
  have hnext : F 7 = F 6 + 4096 := F_add 6 1
  rw [hnext] at hold
  rw [entry_zero, strayMem, hnext, load_crossing, hold]
  decide

/-- The entries of the tree but that one are as they were, whatever is stored to the trapframe. -/
theorem agree_stray (hA : Reps sampleLayout s (strayView s₀ rest))
    (hm : ∀ x, ¬ InPage (F 3) x → m' x = strayMem s.mem x) {p : List Idx} {u : ℕ} (hp : p.length ≤ 2)
    (hu : (strayView s₀ rest).tbl true p = some u) (k : Idx)
    (hk : ¬ (p = path 512 ∧ k = px 0 512)) : entry m' u k = entry s.mem u k := by
  have hok := hA.ok
  have huF := hok.frame_tbl hp hu
  have hleaf : ∀ v f fl, v < NVPN → (strayView s₀ rest).pte true v = mkPte f fl → sampleLayout.Frame f →
      fl < 1024 → u ≠ f := by
    rintro v f fl hv hpte hF hfl rfl
    have ho : (strayView s₀ rest).Owns sampleLayout (.leaf true v) u := by
      refine ⟨hv, by rw [hpte]; exact has_mkPte_V _ _, ?_, hF⟩
      rw [hpte, PTE2PA_mkPte (by have := hF.lt; omega) hfl, hF.div_mul]
    cases hok.uniq _ (.table true p) u ho ⟨hp, hu⟩
  have h3 : u ≠ F 3 := hleaf trapframeVpn (F 3) trapframeFlags (by decide)
    (strayView_pte s₀ rest).2.2 (by decide) (by decide)
  have h6 : u ≠ F 6 := hleaf 511 (F 6) strayVma.pteFlags (by decide) (strayView_pte s₀ rest).1
    (by decide) (by decide)
  have hal := huF.aligned
  have h3al : F 3 % 4096 = 0 := by decide
  have h6al : F 6 % 4096 = 0 := by decide
  have hnext : F 7 = F 6 + 4096 := F_add 6 1
  have hidx := idx_lt k
  have h7 : u = F 7 → 0 < (k : ℕ) := fun he => by
    have h := (hok.tbl_inj (i := true) (j := true) (p := p) (q := path 512) hp (path_length _)
      (he ▸ hu) rfl).2
    by_contra hc
    exact hk ⟨h, Fin.ext (by rw [show ((px 0 512 : Idx) : ℕ) = 0 by decide]; omega)⟩
  refine load_congr 8 _ fun x h1 h2 => ?_
  rw [hm x (by unfold InPage; omega), strayMem]
  refine blit_of_not_mem fun hc => ?_
  by_cases hu7 : u = F 7
  · have := h7 hu7
    omega
  · omega

/-- The tree, whatever is stored to the trapframe. -/
theorem tree_stray (hA : Reps sampleLayout s (strayView s₀ rest))
    (hm : ∀ x, ¬ InPage (F 3) x → m' x = strayMem s.mem x) :
    pteOf m' (some (F 0)) trapframeVpn = mkPte (F 3) trapframeFlags ∧
      pteOf m' (some (F 0)) 512 = mkPte (F 3) strayVma.pteFlags := by
  have h := fun w (hw : w < NVPN) => hA.pteOf_of_agree (i := true) (v := 512) (t := F 7) (by decide) rfl
    (fun p u hp hu k hk => agree_stray hA hm hp hu k hk) hw
  have hentry : entry m' (F 7) (px 0 512) = entry (strayMem s.mem) (F 7) (px 0 512) := by
    have h37 : F 7 = F 3 + 4 * 4096 := F_add 3 4
    rw [entry_zero, entry_zero]
    exact load_congr 8 _ fun x h1 h2 => hm x (by unfold InPage; omega)
  refine ⟨((h trapframeVpn (by decide)).trans (if_neg (by decide))).trans
    (strayView_pte s₀ rest).2.2, ?_⟩
  rw [← entry_stray hA, ← hentry]
  exact (h 512 (by decide)).trans (if_pos rfl)

/-! ### The run -/

theorem framesFrom_split : framesFrom sampleLayout 0 15360 = F 0 :: F 1 :: F 2 :: F 3 :: F 4 :: F 5 ::
    F 6 :: F 7 :: F 8 :: framesFrom sampleLayout 9 15360 := by
  rw [framesFrom_pred (by decide), framesFrom_pred (by decide), framesFrom_pred (by decide),
    framesFrom_pred (by decide), framesFrom_pred (by decide), framesFrom_pred (by decide),
    framesFrom_pred (by decide), framesFrom_pred (by decide), framesFrom_pred (by decide)]
  rfl

theorem strayVma_valid : Vma.Valid strayVma where
  start_le := by decide
  end_le := by decide
  start_al := by decide
  end_al := by decide
  perm := by decide
  flags := by decide

/-- The address space of the process. -/
def strayMm : Mm := ⟨PA_TO_KVA (F 0), [strayVma], 1⟩

def strayMms : Bool → Option Mm := Function.update (fun _ => none) true (some strayMm)

theorem strayMms_true : strayMms true = some strayMm := Function.update_self ..

theorem strayMm_pgt : strayMm.pgt = PA_TO_KVA (F 0) := rfl

/-- The pointer that `useraddr` gave `wait` is stored through. -/
def Translated (L : Layout) (s : KState) (mm : Mm) (code : ℕ) : Prop :=
  ∃ va, sysWaitCode L mm va s = .ok code s

/-- A run from boot to a process with two pages. -/
theorem exists_stray (ok : KState → Mm → ℕ → Prop) : ∃ s₀ s : KState, FreeOk sampleLayout s₀ (framesFrom sampleLayout 0 15360) ∧
    LogOk s₀.log (framesFrom sampleLayout 0 15360) ∧
    Reps sampleLayout s (strayView s₀ (framesFrom sampleLayout 9 15360)) ∧
    (∃ A : View Bool, Reps sampleLayout s A ∧ UserMm sampleLayout A true strayMm) ∧
    Relation.ReflTransGen (World sampleLayout ∅ ok Set.univ) ⟨(s₀, fun _ : Bool => none), fun _ => 0⟩
      ⟨(s, strayMms), Function.update (fun _ => 0) true (PA_TO_KVA (F 3))⟩ := by
  obtain ⟨s₀, -, hfree, hlog, hroom⟩ := sample_room
  have hA₀ : Reps sampleLayout s₀ (boot s₀ (framesFrom sampleLayout 9 15360)) := by
    unfold boot
    rw [← framesFrom_split]
    exact reps_boot hfree hlog (by simp)
  generalize framesFrom sampleLayout 9 15360 = rest at hA₀ ⊢
  obtain ⟨htv, htf⟩ := trapframeView_boot s₀ rest
  have halloc : wpOk (allocMm sampleLayout) s₀ fun o s' => o.tf = F 3 ∧ o.mm = ⟨PA_TO_KVA (F 0), [], 1⟩ ∧
      Reps sampleLayout s' (allocView s₀ rest) := by
    have h1 := hroom.mmObjs
    have h2 := hroom.vmaObjs
    refine wp_allocMm hA₀ true (fun hn => absurd (by omega) hn) (fun hn => absurd (by omega) hn)
      (fun hn => absurd (by omega) hn) (fun hnil => by cases hnil) ?_
    intro f fs hf _ _ s' hs' _ _ _
    obtain rfl : F 0 = f := (List.cons.inj hf).1
    rw [htv] at hs'
    exact ⟨htf, rfl, hs'⟩
  obtain ⟨o, s₁, hx₁, ho, hmm, hs₁⟩ := wpOk_iff.mp halloc
  have hd₁ : PageEvent.empty ∉ s₁.log := fun hc => hroom.wet (hs₁.dry.mpr hc)
  have hr₁ : (allocView s₀ rest).tbl true [] = some (F 0) := rfl
  have hvpns : vpns strayVma = [511, 512] := by decide
  have hmap := mapPages_stray s₀ rest
  have hspec := wp_mmMappages hs₁ hr₁ (show o.mm.pgt = PA_TO_KVA (F 0) by rw [hmm]) strayVma_valid
  rw [hvpns, hmap] at hspec
  obtain ⟨_, s₂, hx₂, hs₂, rfl⟩ := wpOk_iff.mp hspec
  have hd₂ : PageEvent.empty ∉ s₂.log := fun hc => hroom.wet (hs₂.reps.dry.mpr hc)
  have hlist : listed o.mm strayVma true = strayMm := by rw [hmm]; rfl
  rw [if_pos rfl, hlist] at hx₂
  have hstep₁ : Step sampleLayout (s₀, fun _ : Bool => none) _ := Step.create true hx₁ hd₁
  have hstep₂ : Step sampleLayout (_, Function.update (fun _ : Bool => none) true (some o.mm)) _ :=
    Step.mappages true strayVma (Function.update_self ..) (by decide) (by decide) (by decide) hx₂ hd₂
  rw [Function.update_idem] at hstep₂
  refine ⟨s₀, s₂, hfree, hlog, hs₂.reps, ?_, ?_⟩
  · obtain ⟨A, hA, hall⟩ := invariant hfree hlog
      ((Relation.ReflTransGen.single hstep₁).tail hstep₂)
    exact ⟨A, hA, hall true strayMm strayMms_true⟩
  · have hw₁ : World sampleLayout ∅ ok Set.univ ⟨(s₀, fun _ => none), fun _ => 0⟩ ⟨(s₁, Function.update (fun _ => none) true (some o.mm)),
          Function.update (fun _ => 0) true (PA_TO_KVA o.tf)⟩ := World.allocproc true rfl hx₁ hd₁
    rw [ho] at hw₁
    refine (Relation.ReflTransGen.single hw₁).tail (World.life (Life.turn (Turn.call hstep₂)) ?_)
    intro i mm' hi
    cases i with
    | false => exact absurd hi (by simp [strayMms])
    | true =>
      have he : mm' = strayMm := (Option.some.inj hi).symm
      have hold : Function.update (fun _ : Bool => none) true (some o.mm) true = some o.mm :=
        Function.update_self ..
      exact ⟨o.mm, hold, by rw [he, hmm]; rfl⟩

/-! ### The system calls -/

variable {c : Sys Bool}

theorem frame_stray : sampleLayout.Frame (F 0) ∧ sampleLayout.Frame (F 3) ∧ sampleLayout.Frame (F 6) := by
  decide

/-- The trapframe of the process is where it was. -/
theorem hasTrapframe_stray (hA : Reps sampleLayout s (strayView s₀ rest))
    (ht : c.trapframe true = PA_TO_KVA (F 3)) (hm : SameOff {F 3} (strayMem s.mem) m') :
    HasTrapframe tableWalk (procOf c true strayMm 0) m' := by
  refine hasTrapframe_of_pte frame_stray.1 frame_stray.2.1 strayMm_pgt ht (fun m'' hm' => ?_) 0
  exact (tree_stray hA fun x hx => (hm.trans hm') x fun f hf => by rwa [hf]).1

/-- The store of the exit code. -/
theorem exitCode_stray (hA : Reps sampleLayout s (strayView s₀ rest)) {A : View Bool}
    (hB : Reps sampleLayout s A) (hi : UserMm sampleLayout A true strayMm) (tf : Bool → ℕ) :
    World sampleLayout ∅ (Translated sampleLayout) Set.univ ⟨(s, strayMms), tf⟩
      ⟨({ s with mem := strayMem s.mem }, strayMms), tf⟩ := by
  have hroot : (strayView s₀ rest).tbl true [] = some (F 0) := rfl
  have hpte : A.pte true 511 = mkPte (F 6) strayVma.pteFlags := by
    rw [← pteAt_user hi hB (by decide), ← (strayView_pte s₀ rest).1]
    exact pteAt_eq hA hroot strayMm_pgt (by decide)
  have hframe : UserFrame sampleLayout A true (0x1fffff / 4096) (F 6) := by
    refine ⟨by decide, ?_, ?_, ?_, frame_stray.2.2⟩
    · rw [show 0x1fffff / 4096 = 511 by decide, hpte]
      decide
    · rw [show 0x1fffff / 4096 = 511 by decide, hpte]
      decide
    · rw [show 0x1fffff / 4096 = 511 by decide, hpte]
      decide
  refine World.exitCode true (PA_TO_KVA (F 6 + 4095)) strayCode strayMms_true
    ⟨0x1fffff, sysWaitCode_eq hB (.of_userMm hi) (by decide) hframe⟩ ?_
  exact storeExitCode_eq (code_ne_zero (by decide)) (directMapped_code (by decide) (by decide))
    (KVA_TO_PA_PA_TO_KVA (by decide))

/-- A run from boot up to that store. -/
theorem exists_stored : ∃ (s₀ s : KState) (c : Sys Bool),
    FreeOk sampleLayout s₀ (framesFrom sampleLayout 0 15360) ∧
    LogOk s₀.log (framesFrom sampleLayout 0 15360) ∧
    Reps sampleLayout s (strayView s₀ (framesFrom sampleLayout 9 15360)) ∧
    strayMem s.mem = c.mem ∧ c.mach.2 true = some strayMm ∧ c.trapframe true = PA_TO_KVA (F 3) ∧
    Relation.ReflTransGen (World sampleLayout ∅ (Translated sampleLayout) Set.univ)
      ⟨(s₀, fun _ : Bool => none), fun _ => 0⟩ c := by
  obtain ⟨s₀, s, hfree, hlog, hA, ⟨A, hB, hi⟩, hrun⟩ := exists_stray (Translated sampleLayout)
  generalize htf : Function.update (fun _ : Bool => 0) true (PA_TO_KVA (F 3)) = tf at hrun
  have ht : tf true = PA_TO_KVA (F 3) := by
    rw [← htf]
    exact Function.update_self ..
  have hstep := exitCode_stray hA hB hi tf
  generalize hm : strayMem s.mem = m at hstep
  exact ⟨s₀, s, ⟨({ s with mem := m }, strayMms), tf⟩, hfree, hlog, hA, hm, strayMms_true, ht,
    hrun.tail hstep⟩

/-- The page behind the stray entry is the trapframe. -/
theorem userFrames_stray (hA : Reps sampleLayout s (strayView s₀ rest))
    (hm : SameOff {F 3} (strayMem s.mem) m') : F 3 ∈ userFrames m' strayMm := by
  have hpa : KVA_TO_PA strayMm.pgt = F 0 := by
    rw [strayMm_pgt]
    exact KVA_TO_PA_PA_TO_KVA (by decide)
  have hpte : pteAt m' strayMm 512 = mkPte (F 3) strayVma.pteFlags := by
    rw [pteAt, hpa]
    exact (tree_stray hA fun x hx => hm x fun f hf => by rwa [hf]).2
  refine ⟨512, by decide, ?_, ?_⟩
  · rw [hpte]
    exact ⟨by decide, by decide⟩
  · rw [hpte]
    decide

/-- **A stray exit code** can make a system call give back other registers. -/
theorem stray_exit_code : ¬ SyscallsResume sampleLayout Bool (Translated sampleLayout) := by
  obtain ⟨s₀, s, c, hfree, hlog, hA, hmem, hmm, ht, hrun⟩ := exists_stored
  refine not_resume_of_user hfree hlog hrun hmm frame_stray.2.1 ht fun m' hm' => ?_
  rw [← hmem] at hm'
  exact ⟨hasTrapframe_stray hA ht hm', userFrames_stray hA hm'⟩

/-! ### Traps on the machine -/

/-- The first of the two pages. -/
theorem userPage_stray (hA : Reps sampleLayout s (strayView s₀ rest)) :
    F 6 ∈ userFrames s.mem strayMm := by
  have hroot : (strayView s₀ rest).tbl true [] = some (F 0) := rfl
  have hpte : pteAt s.mem strayMm 511 = mkPte (F 6) strayVma.pteFlags :=
    (pteAt_eq hA hroot strayMm_pgt (by decide)).trans (strayView_pte s₀ rest).1
  refine ⟨511, by decide, ?_, ?_⟩
  · rw [hpte]
    exact ⟨by decide, by decide⟩
  · rw [hpte]
    decide

theorem sameOff_store {D : Set ℕ} {f : ℕ} (hf : f ∈ D) (m : Mem) (v : ℕ) :
    SameOff D m (store m f 1 v) := by
  intro x hx
  refine blit_of_not_mem fun hmem => hx f hf ?_
  unfold InPage
  omega

/-- The user pages of a process, after a change that leaves its tables alone. -/
theorem Good.userFrames_eq {ι : Type} {L : Layout} {own : Set ℕ} {A : View ι} {c c' : Sys ι} {i : ι}
    {mm : Mm} (h : Good L own A c) (h' : Good L own A c') (hi : c.mach.2 i = some mm)
    (hi' : c'.mach.2 i = some mm) : userFrames c'.mem mm = userFrames c.mem mm := by
  have heq : ∀ v < NVPN, pteAt c'.mem mm v = pteAt c.mem mm v := fun v hv =>
    (pteAt_user (h'.user i mm hi') h'.reps hv).trans (pteAt_user (h.user i mm hi) h.reps hv).symm
  ext f
  refine exists_congr fun v => and_congr_right fun hv => ?_
  rw [heq v hv]

/-- The addresses of the trap code in a kernel image. -/
def sampleSymbols : Symbols :=
  ⟨0xffffffff80201000, 0xffffffff80201000, 0xffffffff8020109c, 0xffffffff80203000⟩

/-- A hart in the process, with its number in every register. -/
def countingHart (K : Symbols) (p : CurrProc) (m : Mem) : Hart :=
  { idleHart K p m with x := fun r => BitVec.ofNat 64 r }

/-- The kernel stack of the first process. -/
def sampleStack : Word := 0xfffffffe00000000

/-- Its last 256 bytes. -/
def stackVa : ℕ := 0xfffffffe00001f00

def stackVpn : ℕ := stackVa / 4096 % NVPN

def stackPte : ℕ := mkPte (F 12) (PTE_A ||| PTE_D ||| PTE_R ||| PTE_W)

/-- The entries that lead to the upper page of that stack. -/
def stackMem : Mem :=
  store (store (store (fun _ => 0) (F 9 + 8 * px 2 stackVpn) 8 (mkPte (F 10) PTE_G))
    (F 10 + 8 * px 1 stackVpn) 8 (mkPte (F 11) PTE_G)) (F 11 + 8 * px 0 stackVpn) 8 stackPte

/-- A hart in the kernel, with its stack pointer at the top of the stack. -/
def kernelHart (m : Mem) : Hart where
  x := fun r => if r = sp then BitVec.ofNat 64 stackVa + 0x100 else BitVec.ofNat 64 r
  csr
    | .satp => MAKE_SATP (F 9)
    | _ => 0
  pc := 0xffffffff80204000
  user := false
  mem := m

theorem pteOf_stackMem {m : Mem} (hm : SameOff {F 12} stackMem m) :
    pteOf m (some (F 9)) stackVpn = stackPte := by
  have hbelow : ∀ t ∈ [F 9, F 10, F 11], t + 4096 ≤ F 12 := by decide
  have hent : ∀ t (k : Idx), t ∈ [F 9, F 10, F 11] → entry m t k = entry stackMem t k := by
    intro t k ht
    have hk := idx_lt k
    refine load_congr 8 _ fun x h1 h2 => hm x fun f hf => ?_
    obtain rfl : f = F 12 := hf
    have hlt := hbelow t ht
    unfold InPage
    omega
  have h2 : entry m (F 9) (px 2 stackVpn) = mkPte (F 10) PTE_G := by
    rw [hent _ _ (by decide), entry, stackMem, load_store_of_disjoint (by decide),
      load_store_of_disjoint (by decide), load_store]
    decide
  have h1 : entry m (F 10) (px 1 stackVpn) = mkPte (F 11) PTE_G := by
    rw [hent _ _ (by decide), entry, stackMem, load_store_of_disjoint (by decide), load_store]
    decide
  have h0 : entry m (F 11) (px 0 stackVpn) = stackPte := by
    rw [hent _ _ (by decide), entry, stackMem, load_store]
    decide
  have hchild : child m (F 9) (px 2 stackVpn) = some (F 10) ∧
      child m (F 10) (px 1 stackVpn) = some (F 11) := by
    unfold child
    rw [h2, h1]
    decide
  unfold pteOf tblOf path
  rw [Option.bind_some, Lib.Trie.follow, hchild.1, Option.bind_some, Lib.Trie.follow, hchild.2]
  exact h0

/-- The addresses of the words of the stack frame. -/
theorem stack_word : ∀ k < 32, (BitVec.ofNat 64 stackVa + BitVec.ofNat 64 (8 * k)).toNat =
    stackVa + 8 * k := by
  decide

theorem slots_stack : Slots tableWalk (MAKE_SATP (F 9)) stackMem (BitVec.ofNat 64 stackVa) 32
    fun k => F 12 + 3840 + 8 * k := by
  refine ⟨fun k hk => ?_, fun j _ k _ hjk => by omega, fun m hm k hk st => ?_⟩
  · rw [stack_word k hk]
    unfold stackVa
    omega
  · have hsame : SameOff {F 12} stackMem m := fun x hx => hm x fun k hk hmem => by
      refine hx (F 12) rfl ?_
      dsimp only at hmem
      unfold InPage
      omega
    have hpte := pteOf_stackMem hsame
    obtain ⟨hroot, hmode⟩ := satp_of_frame (L := sampleLayout) (r := F 9) (by decide)
    have hva := stack_word k hk
    have hcan : Canonical (BitVec.ofNat 64 stackVa + BitVec.ofNat 64 (8 * k)) :=
      Or.inr (by rw [hva]; unfold stackVa; omega)
    have hvpn : (stackVa + 8 * k) / 4096 % NVPN = stackVpn := by
      unfold stackVpn
      rw [show (stackVa + 8 * k) / 4096 = stackVa / 4096 by unfold stackVa; omega]
    have hoff : (stackVa + 8 * k) % 4096 = 3840 + 8 * k := by
      unfold stackVa
      omega
    unfold tableWalk
    rw [if_pos ⟨hcan, hmode⟩]
    dsimp only
    rw [hroot, hva, hvpn, hpte, hoff,
      if_pos (by revert st; decide), show PTE2PA stackPte = F 12 by decide, Nat.add_assoc]

theorem kernelHart_slots {m : Mem} {pa : ℕ → ℕ}
    (h : Slots tableWalk (MAKE_SATP (F 9)) m (BitVec.ofNat 64 stackVa) 32 pa) :
    Slots tableWalk ((kernelHart m).csr .satp) (kernelHart m).mem ((kernelHart m).get sp - 0x100) 32
      pa := by
  have hsp : (kernelHart m).get sp = BitVec.ofNat 64 stackVa + 0x100 := rfl
  rw [hsp, BitVec.add_sub_cancel]
  exact h

/-- **Traps restore the registers**: around a kernel that leaves the trapframe alone, around system
calls in every run whose exit codes stay in one user page, and around traps from the kernel. -/
theorem traps_restore (T : Mmu) (K : Symbols) (L : Layout) (ι : Type) [DecidableEq ι] :
    RestoresUser T K ∧ SyscallsResume L ι OnePage ∧ RestoresKernel T :=
  ⟨restores_user T K, syscalls_resume L, restores_kernel T⟩

/-- On the machine with the two pages: a trap, a system call that returns 1 after it stored a byte to
the first page, and a trap from the kernel. -/
theorem traps_restore_sample : ∃ (s₀ : KState) (c : Sys Bool) (p : CurrProc) (h k : Hart),
    Relation.ReflTransGen (World sampleLayout ∅ OnePage Set.univ)
      ⟨(s₀, fun _ => none), fun _ => 0⟩ c ∧
    c.mach.2 true = some strayMm ∧ p = procOf c true strayMm sampleStack ∧
    h = countingHart sampleSymbols p c.mem ∧ exec tableWalk uservec h.trap = some k ∧
    (∃ u, exec tableWalk userret (usertrapret sampleSymbols p k.x k) = some u ∧
      InUser sampleSymbols p u ∧ u.pc = h.pc ∧ ∀ r, u.get r = h.get r) ∧
    (∃ u k' : Hart, k'.mem = storeRet p 1 (store (skipEcall p k.mem) (F 6) 1 97) ∧
      exec tableWalk userret (usertrapret sampleSymbols p k.x k') = some u ∧
      InUser sampleSymbols p u ∧ u.pc = h.pc + 4 ∧ ∀ r, u.get r = if r = a0 then 1 else h.get r) ∧
    ∃ k u, exec tableWalk kernelTrapEntry (kernelHart stackMem).trap = some k ∧
      exec tableWalk kernelTrapExit k = some u ∧ ∀ r, u.get r = (kernelHart stackMem).get r := by
  obtain ⟨s₀, s, hfree, hlog, hA, -, hrun⟩ := exists_stray OnePage
  obtain ⟨huser, hcalls, hkernel⟩ := traps_restore tableWalk sampleSymbols sampleLayout Bool
  have hpage := userPage_stray hA
  generalize hc : (⟨(s, strayMms), _⟩ : Sys Bool) = c at hrun
  have hmm : c.mach.2 true = some strayMm := by
    rw [← hc]
    exact strayMms_true
  have hmem : c.mem = s.mem := by
    rw [← hc]
    rfl
  rw [← hmem] at hpage
  obtain ⟨A, hgood⟩ := World.good hrun (good_boot hfree hlog (by simp))
  generalize sampleStack = kstack
  generalize hp : procOf c true strayMm kstack = p
  have hs : HasTrapframe tableWalk p c.mem := hp ▸ Good.hasTrapframe hgood hmm _
  have hin : InUser sampleSymbols p (countingHart sampleSymbols p c.mem) := ⟨rfl, rfl, rfl, rfl⟩
  obtain ⟨k, hx, hk, htrap⟩ := huser p _ hin hs
  obtain ⟨k₁, hx₁, hcall⟩ := hcalls sampleSymbols ∅ s₀ _ _ c true strayMm kstack _ hfree hlog
    (by simp) hrun hmm rfl (hp ▸ hin)
  rw [hp] at hx₁ hcall
  obtain rfl : k = k₁ := Option.some.inj (hx.symm.trans hx₁)
  refine ⟨s₀, c, p, _, k, hrun, hmm, hp.symm, rfl, hx, ?_, ?_, ?_⟩
  · exact htrap k k.x (hs.within hk.within) fun _ _ _ => rfl
  · have hw : Within 36 (procOf c true strayMm kstack).word c.mem (skipEcall p k.mem) := by
      rw [hp]
      exact hk.within.trans (within_writeWord (by decide) _)
    obtain ⟨f, hf, ht, -⟩ := hgood.trapframe true strayMm hmm
    have hgood₁ : Good sampleLayout ∅ A (c.withMem (skipEcall p k.mem)) :=
      TrapframeAt.sameOff hgood hmm hf ht (within_page hf ht hw)
    generalize skipEcall p k.mem = m₁ at hgood₁ hcall ⊢
    rw [← Good.userFrames_eq hgood hgood₁ hmm hmm, Sys.withMem_mem] at hpage
    have hstep : Meanwhile sampleLayout ∅ OnePage true (c.withMem m₁)
        ((c.withMem m₁).withMem (store m₁ (F 6) 1 97)) :=
      ⟨store_world hmm (sameOff_store hpage m₁ 97), by rw [Sys.withMem_mms, Sys.withMem_mms, hmm]; simp⟩
    obtain ⟨k', hk'⟩ : ∃ k' : Hart, k'.mem = storeRet p 1 (store m₁ (F 6) 1 97) :=
      ⟨_, idleHart_mem sampleSymbols p _⟩
    obtain ⟨u, hxu, hu, hpc, hreg⟩ := hcall _ strayMm (.single hstep) hmm k' k.x 1
      (by rw [hk', procOf_withMem, procOf_withMem, hp, Sys.withMem_mem])
    rw [procOf_withMem, procOf_withMem, hp] at hxu hu
    exact ⟨u, k', hk', hxu, hu, hpc, hreg⟩
  · have hs := kernelHart_slots slots_stack
    generalize kernelHart stackMem = g at hs ⊢
    obtain ⟨k, hx, hsatp, hw, -⟩ := kernelTrapEntry_saves hs
    obtain ⟨k₂, hx₂, -, hback⟩ := hkernel g _ hs
    obtain rfl : k = k₂ := Option.some.inj (hx.symm.trans hx₂)
    obtain ⟨u, hxu, -, hreg⟩ := hback k ⟨fun _ _ => rfl, fun _ _ => rfl⟩ (hsatp ▸ hs.within hw)
    exact ⟨k, u, hx, hxu, hreg⟩

end UCore.Trap.Stray

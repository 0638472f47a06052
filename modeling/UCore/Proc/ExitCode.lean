import Mathlib.Data.Nat.Bitwise
import UCore.Vm.Lives
import UCore.Vm.UserCopy

/-! # The exit code of a child

`sys_wait` translates the user address once, by `useraddr`, and `wait` stores the exit code through
the result when it reaps a child. `useraddr` says `0` for an address that is not mapped, which
`PA_TO_KVA` makes a pointer that is not null; and the four bytes go to consecutive addresses of the
frame of the first one. The exit code arrives where it should, and nowhere else, exactly if the first
byte is mapped and the four bytes are consecutive in memory (`exit_code_stored_iff`). -/

namespace UCore.Proc.ExitCode

open UCore.Lib.Bytes UCore.Lib.Hoare UCore.Riscv UCore.Mem.State UCore.Mem.Kalloc UCore.Mem.Boot
open UCore.Vm.Spaces UCore.Vm.Tables UCore.Vm.Walk UCore.Vm.VmaList UCore.Vm.Process
open UCore.Vm.Family UCore.Vm.Fault UCore.Vm.Lives UCore.Vm.Uaccess UCore.Vm.UserCopy

/-! ### The code -/

section Code
variable (L : Layout)

/-- `sys_wait(pid, va)` up to its call of `wait`: the pointer `code`. -/
def sysWaitCode (mm : Mm) (va : ℕ) : KM ℕ := do
  let pa ← useraddr L mm va
  return PA_TO_KVA pa

/-- The bytes of an `int`. -/
def intBytes (exitCode k : ℕ) : UInt8 := UInt8.ofNat (exitCode / 256 ^ k)

/-- `if (code) *code = child->exit_code;` in `wait`. -/
def storeExitCode (code exitCode : ℕ) : KM Unit :=
  if code ≠ 0 then kblit L code 4 (intBytes exitCode) else pure ()

end Code

/-- `wait` stores an `int`: four bytes of the exit code. -/
theorem storeExitCode_congr (L : Layout) (code : ℕ) {e e' : ℕ} (h : e % 2 ^ 32 = e' % 2 ^ 32) :
    storeExitCode L code e = storeExitCode L code e' := by
  have hbytes : ∀ k < 4, intBytes e k = intBytes e' k := by
    intro k hk
    unfold intBytes
    rw [← UInt8.toNat_inj, UInt8.toNat_ofNat', UInt8.toNat_ofNat']
    interval_cases k <;> omega
  have hblit : ∀ m a, blit m a 4 (intBytes e) = blit m a 4 (intBytes e') := by
    intro m a
    funext x
    unfold blit
    split_ifs with hx
    · exact hbytes _ (by omega)
    · rfl
  unfold storeExitCode kblit
  simp only [hblit]

/-- The kernel addresses of the bytes that `wait` stores to. -/
def storedAt (code : ℕ) : List ℕ := if code ≠ 0 then (List.range 4).map (code + ·) else []

/-! ### What it should do -/

/-- The four bytes at the user address are mapped. -/
def AllMapped (m : Mem) (mm : Mm) (va : ℕ) : Prop := ∀ k < 4, Mapped m mm (va + k)

instance (m : Mem) (mm : Mm) (va : ℕ) : Decidable (AllMapped m mm va) := by
  unfold AllMapped
  infer_instance

/-- With the user address translated in the state `s`, the store in the state `s'` goes to the direct
mapping of the four user bytes, each through its own page, if all are mapped, and nowhere else. -/
structure StoresCode (L : Layout) (s s' : KState) (mm : Mm) (va exitCode code : ℕ) (s'' : KState) :
    Prop where
  translated : sysWaitCode L mm va s = .ok code s
  stored : storeExitCode L code exitCode s' = .ok () s''
  addresses : storedAt code = if AllMapped s'.mem mm va then
    (List.range 4).map fun k => PA_TO_KVA (translate s'.mem mm (va + k)) else []
  bytes : AllMapped s'.mem mm va →
    ∀ k < 4, s''.mem (translate s'.mem mm (va + k)) = intBytes exitCode k
  others : ∀ x, (∀ a ∈ storedAt code, x ≠ KVA_TO_PA a) → s''.mem x = s'.mem x
  state : s'' = { s' with mem := s''.mem }

/-- The page of the address is no reason to panic, the first byte is mapped, and the four bytes are
consecutive in memory. -/
def Consecutive (m : Mem) (mm : Mm) (va : ℕ) : Prop :=
  PGROUNDDOWN va ≤ MAXVA ∧ Mapped m mm va ∧ (va % 4096 ≤ 4092 ∨
    Mapped m mm (va + 3) ∧ translate m mm (va + 3) = translate m mm va + 3)

variable {L : Layout} {ι : Type} [DecidableEq ι] {s s' : KState} {A B : View ι} {i : ι} {mm : Mm}
  {va : ℕ}

/-! ### The pointer -/

theorem or_low {f o : ℕ} (hf : f % 4096 = 0) (va : ℕ) (ho : va % 4096 = o) :
    f ||| (va &&& 0xFFF) = f + o := by
  have hand : va &&& 0xFFF = o := by
    rw [show (0xFFF : ℕ) = 2 ^ 12 - 1 by norm_num, Nat.and_two_pow_sub_one_eq_mod]
    exact ho
  have hlt : o < 2 ^ 12 := by omega
  rw [hand, show f = 2 ^ 12 * (f / 4096) by omega, Nat.two_pow_add_eq_or_of_lt hlt]

/-- `code` is the kernel address of the first byte, or that of the physical address `0`. -/
theorem wp_sysWaitCode (h : Reps L s A) (hmm : UserTable L A i mm) (va : ℕ) :
    wp (sysWaitCode L mm va) s
      (fun o s' => s' = s ∧ PGROUNDDOWN va ≤ MAXVA ∧
        (¬ UserPte (A.pte i (va / 4096)) ∧ o = PA_TO_KVA 0 ∨
          ∃ f, UserFrame L A i (va / 4096) f ∧ o = PA_TO_KVA (f + va % 4096)))
      fun _ _ => MAXVA < PGROUNDDOWN va := by
  unfold sysWaitCode useraddr
  refine wp_bind.mpr (wp_bind.mpr (wp_mono (wp_walkaddr_page h hmm va) ?_ fun _ _ he => he.2.2))
  rintro f s₁ ⟨rfl, hva, ho⟩
  rcases ho with ⟨rfl, hn⟩ | hf
  · exact ⟨rfl, hva, Or.inl ⟨hn, rfl⟩⟩
  · rw [if_neg (by have := hf.frame.pos; omega), or_low hf.frame.aligned va rfl]
    exact ⟨rfl, hva, Or.inr ⟨f, hf, rfl⟩⟩

/-! ### The four bytes -/

/-- Bytes of one page are consecutive. -/
theorem translate_same {m : Mem} {k : ℕ} (hk : (va + k) / 4096 = va / 4096) :
    (Mapped m mm (va + k) ↔ Mapped m mm va) ∧ translate m mm (va + k) = translate m mm va + k := by
  unfold Mapped UCore.Vm.UserCopy.translate
  rw [hk]
  exact ⟨Iff.rfl, by omega⟩

theorem Consecutive.all {m : Mem} (h : Consecutive m mm va) {k : ℕ} (hk : k < 4) :
    Mapped m mm (va + k) ∧ translate m mm (va + k) = translate m mm va + k := by
  obtain ⟨-, hmap, hnext⟩ := h
  by_cases hpage : (va + k) / 4096 = va / 4096
  · exact ⟨(translate_same hpage).1.mpr hmap, (translate_same hpage).2⟩
  · obtain hin | ⟨hmap', ht⟩ := hnext
    · omega
    · have hlast : (va + k + (3 - k)) / 4096 = (va + k) / 4096 := by omega
      have hsame : (Mapped m mm (va + k + (3 - k)) ↔ Mapped m mm (va + k)) ∧
          translate m mm (va + k + (3 - k)) = translate m mm (va + k) + (3 - k) := translate_same hlast
      rw [show va + k + (3 - k) = va + 3 by omega] at hsame
      exact ⟨hsame.1.mp hmap', by have := hsame.2; omega⟩

/-- The mapping of an address is a matter of its entry. -/
theorem consecutive_congr {m m' : Mem} (h : ∀ v ≤ 2 ^ 26 + 1, pteAt m' mm v = pteAt m mm v) :
    Consecutive m' mm va ↔ Consecutive m mm va := by
  unfold Consecutive
  refine and_congr_right fun hva => ?_
  have hpage : va / 4096 ≤ 2 ^ 26 := by
    rw [PGROUNDDOWN_eq, MAXVA_eq] at hva
    omega
  unfold Mapped UCore.Vm.UserCopy.translate
  rw [h (va / 4096) (by omega), h ((va + 3) / 4096) (by omega)]

omit [DecidableEq ι] in
/-- The frame of a mapped byte. -/
theorem mapped_frame (h : Reps L s A) (hmm : UserTable L A i mm) {a : ℕ} (ha : a / 4096 < NVPN)
    (hmap : Mapped s.mem mm a) : ∃ f, UserFrame L A i (a / 4096) f ∧
      translate s.mem mm a = f + a % 4096 := by
  have hu : UserPte (A.pte i (a / 4096)) := by rwa [Mapped, pteAt_table h hmm ha] at hmap
  have hf := hmm.frame _ ha hu
  exact ⟨_, hf, (UserFrame.mapped h hmm hf).2⟩

theorem code_ne_zero {x : ℕ} (hx : x < 0x84000000) : PA_TO_KVA x ≠ 0 := by
  rw [PA_TO_KVA_eq (by omega)]
  unfold KERNEL_DIRECT_MAPPING_BASE
  omega

theorem storedAt_of_ne {code : ℕ} (h : code ≠ 0) :
    storedAt code = (List.range 4).map (code + ·) := if_pos h

/-- A store that does what it should goes to consecutive bytes. -/
theorem StoresCode.consecutive {code exitCode : ℕ} {s'' : KState} (hA : Reps L s A)
    (hmA : UserTable L A i mm) (hB : Reps L s' B) (hmB : UserTable L B i mm)
    (h : StoresCode L s s' mm va exitCode code s'') :
    Consecutive s'.mem mm va := by
  obtain ⟨-, hva, hcode⟩ := (wp_of_eq_ok h.translated).mp (wp_sysWaitCode hA hmA va)
  have hpage : va / 4096 ≤ 2 ^ 26 := by
    rw [PGROUNDDOWN_eq, MAXVA_eq] at hva
    omega
  have haddr := h.addresses
  have hne : code ≠ 0 := by
    rcases hcode with ⟨-, he⟩ | ⟨f, hf, he⟩
    · rw [he]
      exact code_ne_zero (by decide)
    · have hlt := hf.frame.lt
      rw [he]
      exact code_ne_zero (by omega)
  have hall : AllMapped s'.mem mm va := by
    by_contra hno
    rw [if_neg hno, storedAt_of_ne hne] at haddr
    exact absurd haddr (by simp)
  have hmap0 := hall 0 (by decide)
  have hmap3 := hall 3 (by decide)
  rw [if_pos hall, storedAt_of_ne hne] at haddr
  refine ⟨hva, hmap0, Or.inr ⟨hmap3, ?_⟩⟩
  have hat : ∀ k < 4, code + k = PA_TO_KVA (translate s'.mem mm (va + k)) := fun k hk =>
    List.map_inj_left.mp haddr k (List.mem_range.mpr hk)
  obtain ⟨f, hf, hf'⟩ := mapped_frame hB hmB (by rw [NVPN_eq]; omega) hmap0
  obtain ⟨g, hg, hg'⟩ := mapped_frame hB hmB (by rw [NVPN_eq]; omega) hmap3
  have hfl := hf.frame.lt
  have hgl := hg.frame.lt
  have h0 := hat 0 (by decide)
  have h3 := hat 3 (by decide)
  rw [hf', PA_TO_KVA_eq (by omega)] at h0
  rw [hg', PA_TO_KVA_eq (by omega)] at h3
  rw [hg', show translate s'.mem mm va = _ from hf']
  omega

theorem storeExitCode_eq {code x exitCode : ℕ} (hne : code ≠ 0) (hdirect : L.DirectMapped code 4)
    (hx : KVA_TO_PA code = x) : storeExitCode L code exitCode s' =
      .ok () { s' with mem := blit s'.mem x 4 (intBytes exitCode) } := by
  subst hx
  unfold storeExitCode kblit
  rw [if_pos hne, if_neg (by decide)]
  exact bind_of_eq_ok (by rw [ensure_eq, if_pos hdirect])

/-- The four bytes are those of one frame or of two that follow each other. -/
theorem directMapped_code {x : ℕ} (hlow : L.kernelImageEnd2M ≤ x) (hx : x + 4 ≤ 0x84000000) :
    L.DirectMapped (PA_TO_KVA x) 4 := by
  rw [PA_TO_KVA_eq (by omega)]
  unfold Layout.DirectMapped RISCV_DDR_BASE PHYS_MEM_SIZE
  omega

/-- The pointer to a mapped byte. -/
theorem sysWaitCode_eq {f : ℕ} (hA : Reps L s A) (hmA : UserTable L A i mm)
    (hva : PGROUNDDOWN va ≤ MAXVA) (hf : UserFrame L A i (va / 4096) f) :
    sysWaitCode L mm va s = .ok (PA_TO_KVA (f + va % 4096)) s := by
  have hspec : wpOk (sysWaitCode L mm va) s _ :=
    wp_mono (wp_sysWaitCode hA hmA va) (fun _ _ h => h) fun _ _ he => absurd hva (by omega)
  obtain ⟨o, s₁, hx, rfl, -, ⟨hn, -⟩ | ⟨g, hg, ho⟩⟩ := wpOk_iff.mp hspec
  · exact absurd (userPte_of_frame hf) hn
  · rw [hx, ho, ← hf.target, ← hg.target]

/-- Consecutive bytes get what they should. -/
theorem Consecutive.stores (hA : Reps L s A) (hmA : UserTable L A i mm) (hB : Reps L s' B)
    (hmB : UserTable L B i mm) (hpte : ∀ v, B.pte i v = A.pte i v) (exitCode : ℕ)
    (h : Consecutive s'.mem mm va) : ∃ code s'', StoresCode L s s' mm va exitCode code s'' := by
  have hcons := h
  obtain ⟨hva, hmap, hnext⟩ := h
  have hpage : va / 4096 ≤ 2 ^ 26 := by
    rw [PGROUNDDOWN_eq, MAXVA_eq] at hva
    omega
  obtain ⟨f, hf, ht⟩ := mapped_frame hB hmB (by rw [NVPN_eq]; omega) hmap
  have hfl := hf.frame.lt
  have hfp := hf.frame.pos
  have hall : AllMapped s'.mem mm va := fun k hk => (hcons.all hk).1
  have hend : f + va % 4096 + 4 ≤ 0x84000000 := by
    rcases hnext with hin | ⟨hmap', ht'⟩
    · omega
    · obtain ⟨g, hg, hgt⟩ := mapped_frame hB hmB (by rw [NVPN_eq]; omega) hmap'
      have hgl := hg.frame.lt
      omega
  have himage : L.kernelImageEnd2M ≤ f + va % 4096 := by
    have := hf.frame.2.1
    omega
  have hne : PA_TO_KVA (f + va % 4096) ≠ 0 := code_ne_zero (by omega)
  have hat : ∀ k < 4, translate s'.mem mm (va + k) = f + va % 4096 + k := fun k hk => by
    rw [(hcons.all hk).2, ht]
  refine ⟨_, _, sysWaitCode_eq hA hmA hva (hf.congr (hpte _).symm),
    storeExitCode_eq hne (directMapped_code himage hend) (KVA_TO_PA_PA_TO_KVA (by omega)), ?_,
    fun _ k hk => ?_, fun x hx => ?_, rfl⟩
  · rw [if_pos hall, storedAt_of_ne hne]
    refine List.map_congr_left fun k hk => ?_
    rw [List.mem_range] at hk
    rw [hat k hk, PA_TO_KVA_eq (by omega), PA_TO_KVA_eq (by omega)]
    omega
  · change blit s'.mem _ 4 _ _ = _
    rw [hat k hk, blit_of_mem (by omega) (by omega), Nat.add_sub_cancel_left]
  · refine blit_of_not_mem fun hmem => ?_
    rw [storedAt_of_ne hne] at hx
    refine hx (PA_TO_KVA (f + va % 4096) + (x - (f + va % 4096)))
      (List.mem_map.mpr ⟨_, List.mem_range.mpr (by omega), rfl⟩) ?_
    rw [PA_TO_KVA_eq (by omega)]
    unfold KVA_TO_PA KERNEL_DIRECT_MAPPING_BASE
    omega

/-- In a run, `sys_wait` of `i` translates its address in the state `s`, and `wait` stores in the state
`s'`: while `i` slept, the others have made steps. -/
def Waits (L : Layout) (i : ι) (s : KState) (mm : Mm) (s' : KState) : Prop :=
  ∃ (s₀ : KState) (fs : List ℕ) (mms mms' : ι → Option Mm), FreeOk L s₀ fs ∧ LogOk s₀.log fs ∧
    Relation.ReflTransGen (Life L) (s₀, fun _ => none) (s, mms) ∧ mms i = some mm ∧
    Relation.ReflTransGen (Others L i) (s, Function.update mms i none) (s', mms')

theorem Waits.stored_iff (h : Waits L i s mm s') (va exitCode : ℕ) :
    (∃ code s'', StoresCode L s s' mm va exitCode code s'') ↔ Consecutive s.mem mm va := by
  obtain ⟨s₀, fs, mms, mms', hfree, hlog, hrun, hmm, hsleep⟩ := h
  obtain ⟨A, hA, hall⟩ := lives_inv hfree hlog hrun
  have hi := hall i mm hmm
  have hothers : ∀ j mm, Function.update mms i none j = some mm → UserMm L A j mm := by
    intro j mm' hj
    by_cases hji : j = i
    · subst hji
      rw [Function.update_self] at hj
      cases hj
    · rw [Function.update_of_ne hji] at hj
      exact hall j mm' hj
  obtain ⟨B, hB, -, hAB⟩ := others_untouched hsleep hA hothers
  have hiB : UserMm L B i mm := hAB.userMm hi
  have hcongr : Consecutive s'.mem mm va ↔ Consecutive s.mem mm va := by
    refine consecutive_congr fun v hv => ?_
    rw [pteAt_user hiB hB (by rw [NVPN_eq]; omega), pteAt_user hi hA (by rw [NVPN_eq]; omega),
      hAB.2 v]
  rw [← hcongr]
  constructor
  · rintro ⟨code, s'', hst⟩
    exact hst.consecutive hA (.of_userMm hi) hB (.of_userMm hiB)
  · exact Consecutive.stores hA (.of_userMm hi) hB (.of_userMm hiB) hAB.2 exitCode

/-- **The exit code is stored** in the four bytes at the user address and nowhere else exactly if the
first is mapped and they are consecutive. -/
theorem exit_code_stored_iff {s₀ : KState} {fs : List ℕ} {mms mms' : ι → Option Mm}
    (hfree : FreeOk L s₀ fs) (hlog : LogOk s₀.log fs)
    (hrun : Relation.ReflTransGen (Life L) (s₀, fun _ => none) (s, mms)) (hmm : mms i = some mm)
    (hsleep : Relation.ReflTransGen (Others L i) (s, Function.update mms i none) (s', mms'))
    (va exitCode : ℕ) : (∃ code s'', StoresCode L s s' mm va exitCode code s'') ↔
      Consecutive s.mem mm va :=
  Waits.stored_iff ⟨s₀, fs, mms, mms', hfree, hlog, hrun, hmm, hsleep⟩ va exitCode

/-- A run to a process with one page, at `0x1000`. -/
theorem exists_waiter (i : ι) : ∃ (s₀ s : KState) (mm : Mm),
    FreeOk sampleLayout s₀ (framesFrom sampleLayout 0 15360) ∧
    LogOk s₀.log (framesFrom sampleLayout 0 15360) ∧
    Relation.ReflTransGen (Life sampleLayout) (s₀, fun _ => none)
      (s, Function.update (fun _ => none) i (some mm)) ∧ listVpns mm.vma = [1] := by
  obtain ⟨s₀, -, hfree, hlog, hroom⟩ := sample_room
  obtain ⟨s, mm, hrun, hlist, -⟩ := exists_run (n := 0) sampleVma_valid (by decide) (by decide)
    (by decide) hfree hlog (hroom.mono (by decide)) i
  refine ⟨s₀, s, mm, hfree, hlog, ?_, by rw [hlist]; decide⟩
  exact Relation.ReflTransGen.mono (fun _ _ h => Life.turn (Turn.call h)) _ _ hrun

theorem exit_code_stored_iff_sample : ∃ (s₀ s : KState) (mm : Mm),
    Relation.ReflTransGen (Life sampleLayout) (s₀, fun _ : Bool => none)
      (s, Function.update (fun _ => none) true (some mm)) ∧
    ((∃ code s'', StoresCode sampleLayout s s mm 0x1000 7 code s'') ↔
      Consecutive s.mem mm 0x1000) := by
  obtain ⟨s₀, s, mm, hfree, hlog, hrun, -⟩ := exists_waiter true
  have hmm := Function.update_self true (some mm) fun _ => none
  exact ⟨s₀, s, mm, hrun, exit_code_stored_iff hfree hlog hrun hmm .refl 0x1000 7⟩

/-- A null address that is not mapped becomes the kernel address of the physical address `0`. -/
theorem null_faults (hA : Reps L s A) (hi : UserTable L A i mm) (hnot : ¬ Mapped s.mem mm 0)
    (exitCode : ℕ) : sysWaitCode L mm 0 s = .ok (PA_TO_KVA 0) s ∧
      storeExitCode L (PA_TO_KVA 0) exitCode s = .error .trapFromKernel s ∧
      ¬ ∃ code s'', StoresCode L s s mm 0 exitCode code s'' := by
  refine ⟨?_, ?_, ?_⟩
  · have hspec : wpOk (sysWaitCode L mm 0) s _ :=
      wp_mono (wp_sysWaitCode hA hi 0) (fun _ _ h => h) fun _ _ he => absurd he (by decide)
    obtain ⟨o, s₁, hx, rfl, -, ⟨-, ho⟩ | ⟨f, hf, -⟩⟩ := wpOk_iff.mp hspec
    · rw [hx, ho]
    · exact absurd (UserFrame.mapped hA hi hf).1 hnot
  · have hno : ¬ L.DirectMapped (PA_TO_KVA 0) 4 :=
      Layout.not_directMapped_null (o := 0) (Nat.zero_le _)
    unfold storeExitCode kblit
    rw [if_pos (code_ne_zero (by decide)), if_neg (by decide)]
    exact bind_of_eq_error (by rw [ensure_eq, if_neg hno])
  · rintro ⟨code, s'', hst⟩
    exact hnot (hst.consecutive hA hi hA hi).2.1

/-- **A null address** whose page is not mapped becomes the kernel address of the physical address `0`,
and the store through it is a kernel page fault. -/
theorem exit_code_null : ∃ (s₀ s : KState) (mm : Mm),
    Relation.ReflTransGen (Life sampleLayout) (s₀, fun _ : Bool => none)
      (s, Function.update (fun _ => none) true (some mm)) ∧ ¬ Mapped s.mem mm 0 ∧
    sysWaitCode sampleLayout mm 0 s = .ok (PA_TO_KVA 0) s ∧
    storeExitCode sampleLayout (PA_TO_KVA 0) 7 s = .error .trapFromKernel s ∧
    ¬ ∃ code s'', StoresCode sampleLayout s s mm 0 7 code s'' := by
  obtain ⟨s₀, s, mm, hfree, hlog, hrun, hlist⟩ := exists_waiter true
  obtain ⟨A, hA, hall⟩ := lives_inv hfree hlog hrun
  have hi := hall true mm (Function.update_self true (some mm) fun _ => none)
  have hnot : ¬ Mapped s.mem mm 0 := by
    rw [mapped_iff_listed hA hi (by decide), hlist]
    decide
  exact ⟨s₀, s, mm, hrun, hnot, null_faults hA (.of_userMm hi) hnot 7⟩

end UCore.Proc.ExitCode

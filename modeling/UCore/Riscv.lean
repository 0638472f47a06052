import Mathlib.Data.Nat.Bitwise
import Mathlib.Tactic.NormNum
import Mathlib.Tactic.IntervalCases

/-! # Sv39 addresses and page-table entries

The macros of `riscv.h`, `memlayout.h` and `vm.h`, on natural numbers below `2 ^ 64`. A page-table
entry is a number: flags in its low ten bits, the number of a physical page above them. The lemmas
turn the shifts and masks into division and remainder, and say which fields `PA2PTE pa | flags`
has. -/

namespace UCore.Riscv

/-! ### Pages -/

def PGSIZE : ℕ := 4096

def PGROUNDUP (sz : ℕ) : ℕ := (sz + PGSIZE - 1) % 2 ^ 64 / PGSIZE * PGSIZE

def PGROUNDDOWN (a : ℕ) : ℕ := a / PGSIZE * PGSIZE

def PGALIGNED (a : ℕ) : Prop := a % PGSIZE = 0

instance (a : ℕ) : Decidable (PGALIGNED a) := by unfold PGALIGNED; infer_instance

theorem PGSIZE_eq : PGSIZE = 4096 := rfl

theorem PGROUNDDOWN_eq (a : ℕ) : PGROUNDDOWN a = a / 4096 * 4096 := rfl

theorem PGROUNDUP_eq {a : ℕ} (h : a + 4095 < 2 ^ 64) : PGROUNDUP a = (a + 4095) / 4096 * 4096 := by
  unfold PGROUNDUP
  rw [PGSIZE_eq, Nat.mod_eq_of_lt (by omega)]
  rfl

theorem PGALIGNED_iff (a : ℕ) : PGALIGNED a ↔ a % 4096 = 0 := Iff.rfl

/-! ### User addresses -/

def MAXVA : ℕ := 1 <<< 38

def USER_TOP : ℕ := MAXVA
def TRAMPOLINE : ℕ := USER_TOP - PGSIZE
def TRAPFRAME : ℕ := TRAMPOLINE - PGSIZE

/-- Not `<`: the macro of `vm.h` lets `MAXVA` itself through. -/
def IS_USER_VA (x : ℕ) : Prop := x ≤ MAXVA

instance (x : ℕ) : Decidable (IS_USER_VA x) := by unfold IS_USER_VA; infer_instance

theorem MAXVA_eq : MAXVA = 2 ^ 38 := rfl
theorem TRAMPOLINE_eq : TRAMPOLINE = 2 ^ 38 - 4096 := rfl
theorem TRAPFRAME_eq : TRAPFRAME = 2 ^ 38 - 8192 := rfl

/-! ### Kernel addresses -/

def KERNEL_DIRECT_MAPPING_BASE : ℕ := 0xffffffc000000000

def PA_TO_KVA (x : ℕ) : ℕ := (x + KERNEL_DIRECT_MAPPING_BASE) % 2 ^ 64

def KVA_TO_PA (x : ℕ) : ℕ := (x + (2 ^ 64 - KERNEL_DIRECT_MAPPING_BASE)) % 2 ^ 64

theorem PA_TO_KVA_eq {x : ℕ} (h : x < 2 ^ 38) :
    PA_TO_KVA x = x + KERNEL_DIRECT_MAPPING_BASE := by
  unfold PA_TO_KVA KERNEL_DIRECT_MAPPING_BASE; omega

theorem KVA_TO_PA_PA_TO_KVA {x : ℕ} (h : x < 2 ^ 64) : KVA_TO_PA (PA_TO_KVA x) = x := by
  unfold KVA_TO_PA PA_TO_KVA KERNEL_DIRECT_MAPPING_BASE; omega

/-! ### Page-table indices -/

def PXSHIFT (level : ℕ) : ℕ := 12 + 9 * level

def PX (level va : ℕ) : ℕ := (va >>> PXSHIFT level) &&& 0x1FF

/-- An index into a page-table page. -/
abbrev Idx := Fin 512

/-- The index that page number `v` has at `level`. -/
def px (level v : ℕ) : Idx := ⟨v / 512 ^ level % 512, Nat.mod_lt _ (by decide)⟩

theorem PX_eq (level va : ℕ) : PX level va = px level (va / 4096) := by
  have h : (0x1FF : ℕ) = 2 ^ 9 - 1 := rfl
  unfold PX PXSHIFT px
  rw [h, Nat.and_two_pow_sub_one_eq_mod, Nat.shiftRight_eq_div_pow, pow_add, pow_mul,
    ← Nat.div_div_eq_div_mul]
  norm_num

/-- The number of pages of the three-level tree. -/
def NVPN : ℕ := 2 ^ 27

theorem NVPN_eq : NVPN = 134217728 := rfl

/-- **The three indices determine the page number.** -/
theorem px_inj {v w : ℕ} (hv : v < NVPN) (hw : w < NVPN) (h2 : px 2 v = px 2 w)
    (h1 : px 1 v = px 1 w) (h0 : px 0 v = px 0 w) : v = w := by
  simp only [px, Fin.mk.injEq] at h2 h1 h0
  rw [NVPN_eq] at hv hw
  norm_num at h2 h1 h0
  omega

/-! ### Page-table entries -/

def PTE_V : ℕ := 1 <<< 0
def PTE_R : ℕ := 1 <<< 1
def PTE_W : ℕ := 1 <<< 2
def PTE_X : ℕ := 1 <<< 3
def PTE_U : ℕ := 1 <<< 4
def PTE_G : ℕ := 1 <<< 5
def PTE_A : ℕ := 1 <<< 6
def PTE_D : ℕ := 1 <<< 7

def PA2PTE (pa : ℕ) : ℕ := (pa >>> 12) <<< 10 % 2 ^ 64

def PTE2PA (pte : ℕ) : ℕ := (pte >>> 10) <<< 12 % 2 ^ 64

/-- `PA2PTE(pa) | flags | PTE_V`, the entry the mapping functions store. -/
def mkPte (pa flags : ℕ) : ℕ := PA2PTE pa ||| flags ||| PTE_V

/-- The test `pte & flag` of the C code. -/
def Has (pte flag : ℕ) : Prop := pte &&& flag ≠ 0

instance (pte flag : ℕ) : Decidable (Has pte flag) := by unfold Has; infer_instance

theorem has_two_pow (e k : ℕ) : Has e (1 <<< k) ↔ e.testBit k = true := by
  unfold Has
  rw [Nat.one_shiftLeft, Nat.and_two_pow]
  cases e.testBit k <;> simp

theorem has_V (e : ℕ) : Has e PTE_V ↔ e.testBit 0 = true := has_two_pow e 0
theorem has_U (e : ℕ) : Has e PTE_U ↔ e.testBit 4 = true := has_two_pow e 4

theorem not_has_zero (f : ℕ) : ¬ Has 0 f := by simp [Has]

theorem has_or (a b f : ℕ) : Has (a ||| b) f ↔ Has a f ∨ Has b f := by
  unfold Has
  rw [Nat.and_or_distrib_right, ne_eq, Nat.or_eq_zero_iff]
  tauto

theorem PA2PTE_eq {pa : ℕ} (h : pa < 2 ^ 64) : PA2PTE pa = pa / 4096 * 1024 := by
  unfold PA2PTE
  rw [Nat.shiftRight_eq_div_pow, Nat.shiftLeft_eq]
  omega

theorem PTE2PA_eq {e : ℕ} (h : e < 2 ^ 62) : PTE2PA e = e / 1024 * 4096 := by
  unfold PTE2PA
  rw [Nat.shiftRight_eq_div_pow, Nat.shiftLeft_eq]
  omega

theorem PTE2PA_lt (e : ℕ) : PTE2PA e < 2 ^ 64 := Nat.mod_lt _ (by decide)

/-- Flags do not reach the page number. -/
theorem PTE2PA_or {e fl : ℕ} (h : fl < 1024) : PTE2PA (e ||| fl) = PTE2PA e := by
  unfold PTE2PA
  have : fl >>> 10 = 0 := by rw [Nat.shiftRight_eq_div_pow]; omega
  rw [Nat.shiftRight_or_distrib, this, Nat.or_zero]

theorem PTE2PA_mkPte {pa fl : ℕ} (hpa : pa < 2 ^ 64) (hfl : fl < 1024) :
    PTE2PA (mkPte pa fl) = pa / 4096 * 4096 := by
  unfold mkPte
  rw [PTE2PA_or (by decide), PTE2PA_or hfl, PA2PTE_eq hpa, PTE2PA_eq (by omega)]
  omega

theorem mkPte_lt {pa fl : ℕ} (hpa : pa < 2 ^ 64) (hfl : fl < 1024) : mkPte pa fl < 2 ^ 64 := by
  unfold mkPte
  rw [PA2PTE_eq hpa]
  exact Nat.or_lt_two_pow (Nat.or_lt_two_pow (by omega) (by omega)) (by decide)

/-- A flag of `PA2PTE(pa) | flags | PTE_V` is `PTE_V` or one of `flags`. -/
theorem testBit_mkPte {pa fl k : ℕ} (hpa : pa < 2 ^ 64) (hk : k < 10) :
    (mkPte pa fl).testBit k = (fl.testBit k || decide (k = 0)) := by
  unfold mkPte
  have hpte : (PA2PTE pa).testBit k = false := by
    rw [PA2PTE_eq hpa, show 1024 = 2 ^ 10 from rfl, Nat.testBit_mul_two_pow]
    simp [show ¬ 10 ≤ k by omega]
  have hV : PTE_V.testBit k = decide (k = 0) := by
    interval_cases k <;> decide
  rw [Nat.testBit_or, Nat.testBit_or, hpte, hV, Bool.false_or]

theorem has_mkPte_V (pa fl : ℕ) : Has (mkPte pa fl) PTE_V :=
  (has_or _ _ _).mpr (Or.inr (by decide))

theorem has_mkPte {pa fl k : ℕ} (hpa : pa < 2 ^ 64) (hk : k < 10) (hk0 : 0 < k) :
    Has (mkPte pa fl) (1 <<< k) ↔ Has fl (1 <<< k) := by
  rw [has_two_pow, has_two_pow, testBit_mkPte hpa hk]
  simp [show k ≠ 0 by omega]

theorem has_mkPte_R {pa fl : ℕ} (hpa : pa < 2 ^ 64) : Has (mkPte pa fl) PTE_R ↔ Has fl PTE_R :=
  has_mkPte (k := 1) hpa (by decide) (by decide)

theorem has_mkPte_U {pa fl : ℕ} (hpa : pa < 2 ^ 64) : Has (mkPte pa fl) PTE_U ↔ Has fl PTE_U :=
  has_mkPte (k := 4) hpa (by decide) (by decide)

/-- `PTE_FLAGS(pte)`. -/
def PTE_FLAGS (e : ℕ) : ℕ := e &&& 0x3FF

theorem PTE_FLAGS_eq (e : ℕ) : PTE_FLAGS e = e % 2 ^ 10 :=
  Nat.and_two_pow_sub_one_eq_mod e 10

theorem PTE_FLAGS_or (a b : ℕ) : PTE_FLAGS (a ||| b) = PTE_FLAGS a ||| PTE_FLAGS b :=
  Nat.and_or_distrib_right a b _

theorem PTE_FLAGS_mkPte {pa fl : ℕ} (hpa : pa < 2 ^ 64) (hfl : fl < 1024) :
    PTE_FLAGS (mkPte pa fl) = fl ||| PTE_V := by
  have h1 : PTE_FLAGS (PA2PTE pa) = 0 := by rw [PTE_FLAGS_eq, PA2PTE_eq hpa]; omega
  have h2 : PTE_FLAGS fl = fl := by rw [PTE_FLAGS_eq]; exact Nat.mod_eq_of_lt hfl
  rw [mkPte, PTE_FLAGS_or, PTE_FLAGS_or, h1, h2, Nat.zero_or]
  rfl

end UCore.Riscv

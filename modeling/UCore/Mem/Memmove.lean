import Mathlib.Logic.Function.Basic
import UCore.Mem.State

/-! # `memmove`

`memmove` of `string.c`, byte by byte on 64-bit addresses. Whatever the overlap, it is a copy that reads
every byte before it writes one (`memmove_eq`): the bytes that the loop has yet to read are not among
those that it has written. Over the direct mapping this is the copy that the other modules use
(`kernel_memmove`). -/

namespace UCore.Mem.Memmove

open UCore.Lib.Bytes UCore.Lib.Hoare UCore.Riscv UCore.Mem.State

/-! ### The code -/

/-- `p + n` of a `char *`. -/
def ptrAdd (p n : ℕ) : ℕ := (p + n) % 2 ^ 64

/-- `--p`. -/
def ptrDec (p : ℕ) : ℕ := (p + (2 ^ 64 - 1)) % 2 ^ 64

/-- `while (n-- > 0) *--d = *--s;` -/
def copyDown : ℕ → ℕ → ℕ → Mem → Mem
  | 0, _, _, m => m
  | n + 1, d, s, m =>
    copyDown n (ptrDec d) (ptrDec s) (Function.update m (ptrDec d) (m (ptrDec s)))

/-- `while (n-- > 0) *d++ = *s++;` -/
def copyUp : ℕ → ℕ → ℕ → Mem → Mem
  | 0, _, _, m => m
  | n + 1, d, s, m => copyUp n (ptrAdd d 1) (ptrAdd s 1) (Function.update m d (m s))

/-- `memmove(dst, src, n)`. -/
def memmove (dst src n : ℕ) (m : Mem) : Mem :=
  if src < dst ∧ ptrAdd src n > dst then copyDown n (ptrAdd dst n) (ptrAdd src n) m
  else copyUp n dst src m

/-! ### The loops -/

theorem ptrDec_ptrAdd {p n : ℕ} (h : p + n < 2 ^ 64) : ptrDec (ptrAdd p (n + 1)) = ptrAdd p n ∧
    ptrAdd p n = p + n := by
  unfold ptrDec ptrAdd
  omega

/-- Downwards, the bytes still to be read are below the one that is written. -/
theorem copyDown_eq {d s : ℕ} (hsd : s ≤ d) : ∀ {n : ℕ} {m : Mem}, d + n ≤ 2 ^ 64 →
    copyDown n (ptrAdd d n) (ptrAdd s n) m = copyIn m d s n
  | 0, m, _ => (blit_zero m d _).symm
  | n + 1, m, hd => by
    obtain ⟨hd', hdn⟩ := ptrDec_ptrAdd (p := d) (n := n) (by omega)
    obtain ⟨hs', hsn⟩ := ptrDec_ptrAdd (p := s) (n := n) (by omega)
    rw [copyDown, hd', hs', copyDown_eq hsd (by omega), hdn, hsn]
    funext x
    unfold copyIn
    by_cases hx : d ≤ x ∧ x < d + n
    · rw [blit_of_mem hx.1 hx.2, blit_of_mem hx.1 (by omega), Function.update_of_ne (by omega)]
    · rw [blit_of_not_mem hx]
      by_cases hxn : x = d + n
      · rw [hxn, Function.update_self, blit_of_mem (by omega) (by omega), Nat.add_sub_cancel_left]
      · rw [Function.update_of_ne hxn, blit_of_not_mem (by omega)]

/-- Upwards, they are above it, unless the ranges are apart. -/
theorem copyUp_eq : ∀ {n d s : ℕ} {m : Mem}, d ≤ s ∨ s + n ≤ d → d + n ≤ 2 ^ 64 → s + n ≤ 2 ^ 64 →
    copyUp n (d % 2 ^ 64) (s % 2 ^ 64) m = copyIn m d s n
  | 0, d, s, m, _, _, _ => (blit_zero m d _).symm
  | n + 1, d, s, m, hds, hd, hs => by
    rw [Nat.mod_eq_of_lt (by omega : d < 2 ^ 64), Nat.mod_eq_of_lt (by omega : s < 2 ^ 64), copyUp,
      ptrAdd, ptrAdd, copyUp_eq (by omega) (by omega) (by omega)]
    funext x
    unfold copyIn
    by_cases hx : d + 1 ≤ x ∧ x < d + 1 + n
    · rw [blit_of_mem hx.1 hx.2, blit_of_mem (by omega) (by omega), Function.update_of_ne (by omega),
        show s + 1 + (x - (d + 1)) = s + (x - d) by omega]
    · rw [blit_of_not_mem hx]
      by_cases hxd : x = d
      · rw [hxd, Function.update_self, blit_of_mem le_rfl (by omega), Nat.sub_self, Nat.add_zero]
      · rw [Function.update_of_ne hxd, blit_of_not_mem (by omega)]

/-! ### The function -/

/-- **`memmove` copies**, whatever the overlap. -/
theorem memmove_eq {dst src n : ℕ} (hs : src + n ≤ 2 ^ 64) (hd : dst + n ≤ 2 ^ 64) (m : Mem) :
    memmove dst src n m = copyIn m dst src n := by
  unfold memmove
  split_ifs with hdown
  · exact copyDown_eq (by omega) hd
  · rcases Nat.eq_zero_or_pos n with rfl | hn
    · exact (blit_zero m dst _).symm
    · -- `src + n` wraps only at the end of the address space, and then `dst` is not above `src`
      have hor : dst ≤ src ∨ src + n ≤ dst := by
        unfold ptrAdd at hdown
        omega
      have h := copyUp_eq (m := m) hor hd hs
      rwa [Nat.mod_eq_of_lt (by omega : dst < 2 ^ 64), Nat.mod_eq_of_lt (by omega : src < 2 ^ 64)] at h

/-- **`memmove` is right**: byte `i` of the destination is what byte `i` of the source was, and nothing
else changes. -/
theorem memmove_copies (m : Mem) {dst src n : ℕ} (hs : src + n ≤ 2 ^ 64) (hd : dst + n ≤ 2 ^ 64) :
    (∀ i < n, memmove dst src n m (dst + i) = m (src + i)) ∧
      ∀ x, ¬ (dst ≤ x ∧ x < dst + n) → memmove dst src n m x = m x := by
  rw [memmove_eq hs hd]
  refine ⟨fun i hi => ?_, fun x hx => blit_of_not_mem hx⟩
  rw [copyIn, blit_of_mem (by omega) (by omega), Nat.add_sub_cancel_left]

/-- Three bytes moved up by one. -/
theorem memmove_copies_sample : memmove 17 16 3 UInt8.ofNat 18 = 17 :=
  (memmove_copies UInt8.ofNat (by decide) (by decide)).1 1 (by decide)

/-! ### The direct mapping -/

section DirectMapping
variable {L : Layout} {s s' : KState} {dst src n x : ℕ}

theorem KVA_TO_PA_of_directMapped (h : L.DirectMapped x n) (hx : x < 2 ^ 64) :
    KVA_TO_PA x + KERNEL_DIRECT_MAPPING_BASE = x := by
  have h1 := h.1
  unfold KVA_TO_PA KERNEL_DIRECT_MAPPING_BASE at *
  omega

theorem wp_state_memmove (hs : L.DirectMapped src n) (hd : L.DirectMapped dst n) :
    wpOk (State.memmove L dst src n) s fun _ s' =>
      s' = { s with mem := copyIn s.mem (KVA_TO_PA dst) (KVA_TO_PA src) n } := by
  unfold State.memmove kblit
  split_ifs with h0
  · rw [h0]
    exact wp_pure.mpr (by rw [copyIn, blit_zero])
  · exact wp_bind.mpr (wp_ensure_pos hs (wp_bind.mpr (wp_get.mpr (wp_bind.mpr
      (wp_ensure_pos hd (wp_modify.mpr rfl))))))

/-- **The copy of the other modules** is this one, seen through the direct mapping. -/
theorem kernel_memmove (hs : L.DirectMapped src n) (hd : L.DirectMapped dst n)
    (hx : State.memmove L dst src n s = .ok () s') (hm : L.DirectMapped x 1) :
    s'.mem (KVA_TO_PA x) = memmove dst src n (fun y => s.mem (KVA_TO_PA y)) x := by
  have hend : ∀ {y k : ℕ}, L.DirectMapped y k → y + k < 2 ^ 64 := fun h => by
    have := h.2
    unfold KERNEL_DIRECT_MAPPING_BASE RISCV_DDR_BASE PHYS_MEM_SIZE at this
    omega
  have hsn := hend hs
  have hdn := hend hd
  have hsrc := KVA_TO_PA_of_directMapped hs (by omega)
  have hdst := KVA_TO_PA_of_directMapped hd (by omega)
  have hpx := KVA_TO_PA_of_directMapped hm (by have := hend hm; omega)
  have hmem : s'.mem = copyIn s.mem (KVA_TO_PA dst) (KVA_TO_PA src) n := by
    rw [(wp_of_eq_ok hx).mp (wp_state_memmove hs hd)]
  rw [memmove_eq hsn.le hdn.le, hmem]
  unfold copyIn
  by_cases hin : dst ≤ x ∧ x < dst + n
  · have hoff : KVA_TO_PA (src + (x - dst)) = KVA_TO_PA src + (KVA_TO_PA x - KVA_TO_PA dst) := by
      have hsub : L.DirectMapped (src + (x - dst)) 1 := ⟨by have := hs.1; omega, by have := hs.2; omega⟩
      have := KVA_TO_PA_of_directMapped hsub (by omega)
      omega
    rw [blit_of_mem hin.1 hin.2, blit_of_mem (by omega) (by omega), ← hoff]
  · rw [blit_of_not_mem hin, blit_of_not_mem (by omega)]

end DirectMapping

end UCore.Mem.Memmove

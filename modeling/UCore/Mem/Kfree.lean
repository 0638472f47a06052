import UCore.Mem.Objects
import UCore.Mem.State

/-! # Pointers that `kfree` accepts

`kfree` rounds its pointer down to an object and looks at the bit of that object. The bits from
`max_count` on are set, as if they were of live objects; so a pointer into the unused end of the pool
is accepted, and so is one into the middle of a live object (`stray_pointers`). For all other pointers
`kfree` panics and changes nothing, or frees a live object (`kfree_rejects_iff`).

The sizes are any 64-bit numbers. If the size of the pool wraps around, the pool is empty, and `kfree`
takes no pointer (`Empty`); or all of it is the first object (`Wrapped`). The second object is then at
least 2 ^ 48 bytes away on either side, where no address is valid, and `kalloc` faults there. -/

namespace UCore.Mem.Kfree

open UCore.Lib.Hoare UCore.Riscv UCore.Mem.Objects
open UCore.Mem.State (PHYS_MEM_SIZE)

variable {alloc alloc' : Allocator} {live : List ℕ} {obj : ℕ}

/-- The index that `kfree` computes. -/
def indexOf (alloc : Allocator) (obj : ℕ) : ℕ := (obj - alloc.poolBase) / alloc.objectSizeAligned

/-- The pointer is outside of the pool, or the bit that it leads to is clear, or it is the base of one of
the `max_count` objects. -/
def Whole (alloc : Allocator) (obj : ℕ) : Prop :=
  obj < alloc.poolBase ∨ alloc.poolEnd ≤ obj ∨ ¬ isBitSet alloc.bitmap (indexOf alloc obj) ∨
    indexOf alloc obj < alloc.maxCount ∧ obj = alloc.object (indexOf alloc obj)

instance (alloc : Allocator) (obj : ℕ) : Decidable (Whole alloc obj) := by
  unfold Whole; infer_instance

/-- `kfree` panics, and has changed nothing. -/
def Rejects (alloc : Allocator) (obj : ℕ) : Prop := ∃ e, kfree obj alloc = .error e alloc

/-! ### `kfree` -/

/-- `kfree` gets past its checks. -/
def Accepted (alloc : Allocator) (obj : ℕ) : Prop :=
  (alloc.poolBase ≤ obj ∧ obj < alloc.poolEnd) ∧ isBitSet alloc.bitmap (indexOf alloc obj)

/-- What `kfree` leaves when it returns: a bit is clear, and the counters are others. -/
def Freed (alloc : Allocator) (obj : ℕ) (a : Allocator) : Prop :=
  a = { alloc with
    bitmap := bitClear alloc.bitmap (indexOf alloc obj), allocatedCount := a.allocatedCount
    availableCount := a.availableCount }

theorem Freed.bitmap {a : Allocator} (h : Freed alloc obj a) :
    a.bitmap = bitClear alloc.bitmap (indexOf alloc obj) := congrArg Allocator.bitmap h

/-- Past its checks `kfree` clears a bit, however it ends; else it changes nothing. -/
theorem wp_kfree_any (h0 : obj ≠ 0) :
    wp (kfree obj) alloc (fun _ a => Accepted alloc obj ∧ Freed alloc obj a)
      fun _ a => Accepted alloc obj ∧ Freed alloc obj a ∨ ¬ Accepted alloc obj ∧ a = alloc := by
  unfold kfree
  rw [if_neg h0]
  refine wp_bind.mpr (wp_get.mpr (wp_bind.mpr (wp_ensure.mpr ⟨fun hin => ?_, fun hout =>
    Or.inr ⟨fun hacc => hout hacc.1, rfl⟩⟩)))
  refine wp_bind.mpr (wp_ensure.mpr ⟨fun hbit => ?_, fun hclear =>
    Or.inr ⟨fun hacc => hclear hacc.2, rfl⟩⟩)
  have hacc : Accepted alloc obj := ⟨hin, hbit⟩
  refine wp_bind.mpr (wp_modify.mpr (wp_bind.mpr (wp_get.mpr (wp_bind.mpr (wp_ensure.mpr
    ⟨fun _ => ?_, fun _ => Or.inl ⟨hacc, rfl⟩⟩)))))
  exact wp_bind.mpr (wp_get.mpr (wp_ensure.mpr ⟨fun _ => ⟨hacc, rfl⟩, fun _ => Or.inl ⟨hacc, rfl⟩⟩))

theorem bitClear_ne {b : Bitmap} {i : ℕ} (h : isBitSet b i) : bitClear b i ≠ b := fun he =>
  ((isBitSet_bitClear b i i).mp (he.symm ▸ h)).1 rfl

/-- **`kfree` rejects** exactly what its checks reject. -/
theorem rejects_iff (h0 : obj ≠ 0) : Rejects alloc obj ↔ ¬ Accepted alloc obj := by
  have hspec := @wp_kfree_any alloc obj h0
  constructor
  · rintro ⟨e, he⟩ hacc
    rcases (wp_of_eq_error he).mp hspec with ⟨-, hfreed⟩ | ⟨hno, -⟩
    · exact bitClear_ne hacc.2 hfreed.bitmap.symm
    · exact hno hacc
  · intro hno
    cases hx : kfree obj alloc with
    | ok _ a => exact absurd ((wp_of_eq_ok hx).mp hspec).1 hno
    | error e a =>
      rcases (wp_of_eq_error hx).mp hspec with ⟨hacc, -⟩ | ⟨-, rfl⟩
      · exact absurd hacc hno
      · exact ⟨e, hx⟩

/-! ### Runs -/

/-- One call that returns, with the list of the live objects; or a change of the memory behind the
page of the bitmap, which is not the allocator's. -/
inductive Call : Allocator × List ℕ → Allocator × List ℕ → Prop
  | kalloc {a a' : Allocator} {l : List ℕ} {p : ℕ} : kalloc a = .ok p a' → Call (a, l) (a', p :: l)
  | kfree {a a' : Allocator} {l : List ℕ} {obj : ℕ} : Whole a obj → kfree obj a = .ok () a' →
    Call (a, l) (a', l.erase obj)
  | other {a : Allocator} {l : List ℕ} {b : Bitmap} : (∀ k < PGSIZE, b k = a.bitmap k) →
    Call (a, l) ({ a with bitmap := b }, l)

/-- A pool that has room for its objects, and the bits that are no object's are set. -/
structure Regular (alloc : Allocator) (live : List ℕ) : Prop where
  shape : Shape alloc
  consistent : Consistent alloc live
  tail : ∀ i, alloc.maxCount ≤ i → i < 32768 → isBitSet alloc.bitmap i

/-- A pool with nothing between its bounds. -/
def Empty (alloc : Allocator) : Prop := alloc.poolEnd ≤ alloc.poolBase

/-- A pool that is smaller than an object, since its size has wrapped around: the second object lies
before it, and only the first bit can be set. -/
structure Wrapped (alloc : Allocator) (live : List ℕ) : Prop where
  base_pos : 0 < alloc.poolBase
  base_lt : alloc.poolBase < alloc.poolEnd
  pool_lt : alloc.poolEnd < 2 ^ 64
  end_lt : alloc.poolEnd < alloc.poolBase + alloc.objectSizeAligned
  wraps : 2 ^ 64 ≤ alloc.poolBase + alloc.objectSizeAligned
  size_lt : alloc.objectSizeAligned < 2 ^ 64
  low : alloc.objectSizeAligned % 2 ^ 32 ≠ 0
  count_pos : 0 < alloc.maxCount
  first : isBitSet alloc.bitmap 0 → live = [alloc.poolBase]
  clear : ¬ isBitSet alloc.bitmap 0 → live = []
  second : ¬ isBitSet alloc.bitmap 1

theorem isBitSet_congr {b b' : Bitmap} (h : ∀ k < PGSIZE, b' k = b k) {i : ℕ} (hi : i < 32768) :
    isBitSet b' i ↔ isBitSet b i := by
  unfold isBitSet
  rw [h (i / 8) (by rw [PGSIZE_eq]; omega)]

/-- The index of an object is its number. -/
theorem indexOf_object (hs : Shape alloc) (i : ℕ) : indexOf alloc (alloc.object i) = i := by
  unfold indexOf Allocator.object
  rw [Nat.add_sub_cancel_left, Nat.mul_div_cancel _ hs.aligned_pos]

/-- **What `kfree` accepts** is live if it is whole. -/
theorem Regular.live_of_whole (h : Regular alloc live) (hacc : Accepted alloc obj)
    (hw : Whole alloc obj) : obj ∈ live := by
  obtain ⟨⟨h1, h2⟩, hbit⟩ := hacc
  rcases hw with hw | hw | hw | ⟨hi, he⟩
  · omega
  · omega
  · exact absurd hbit hw
  · rw [he]
    exact (h.consistent.bit _ hi).mp hbit

theorem whole_of_not_accepted (hno : ¬ Accepted alloc obj) : Whole alloc obj := by
  by_cases hin : alloc.poolBase ≤ obj ∧ obj < alloc.poolEnd
  · exact Or.inr (Or.inr (Or.inl fun hbit => hno ⟨hin, hbit⟩))
  · unfold Whole
    omega

theorem Regular.whole_of_live (h : Regular alloc live) (hm : obj ∈ live) : Whole alloc obj := by
  obtain ⟨i, hi, rfl⟩ := h.consistent.object _ hm
  refine Or.inr (Or.inr (Or.inr ?_))
  rw [indexOf_object h.shape]
  exact ⟨hi, rfl⟩

/-- The pool stays where it is, and no bit is cleared. -/
structure Grows (a a' : Allocator) : Prop where
  base : a'.poolBase = a.poolBase
  poolEnd : a'.poolEnd = a.poolEnd
  count : a'.maxCount = a.maxCount
  bits : ∀ j, isBitSet a.bitmap j → isBitSet a'.bitmap j

instance : IsPreorder Allocator Grows where
  refl _ := ⟨rfl, rfl, rfl, fun _ h => h⟩
  trans _ _ _ h h' := ⟨h'.base.trans h.base, h'.poolEnd.trans h.poolEnd, h'.count.trans h.count,
    fun j hj => h'.bits j (h.bits j hj)⟩

theorem keeps_memsetPool (va n : ℕ) : Keeps Grows (memsetPool va n) :=
  Keeps.get_bind fun _ => keeps_ensure _ _

theorem keeps_kallocScan : ∀ is : List ℕ, Keeps Grows (kallocScan is)
  | [] => keeps_throw _
  | i :: is => by
    rw [kallocScan]
    refine Keeps.get_bind fun a => Keeps.ite ?_ (keeps_kallocScan is)
    refine Keeps.bind (keeps_modify fun a => ⟨rfl, rfl, rfl, fun j hj => ?_⟩) fun _ =>
      Keeps.get_bind fun _ => (keeps_ensure _ _).bind fun _ => (keeps_memsetPool _ _).bind fun _ =>
        keeps_pure _
    exact (isBitSet_bitSet _ i j).mpr (Or.inr hj)

theorem keeps_kalloc : Keeps Grows kalloc :=
  Keeps.get_bind fun _ => Keeps.ite (keeps_throw _)
    ((keeps_modify fun _ => ⟨rfl, rfl, rfl, fun _ h => h⟩).bind fun _ => keeps_kallocScan _)

/-- The loop of `kalloc` at a clear bit: where it returns, it returns the object of the bit. -/
theorem wp_kallocScan_clear {i : ℕ} {is : List ℕ} (hbit : ¬ isBitSet alloc.bitmap i) :
    wp (kallocScan (i :: is)) alloc
      (fun p a => p = (alloc.poolBase + i * alloc.objectSizeAligned) % 2 ^ 64 ∧
        (alloc.objectSizeAligned % 2 ^ 32 = 0 ∨ alloc.poolBase ≤ p) ∧
        a = { alloc with
          bitmap := bitSet alloc.bitmap i, allocatedCount := (alloc.allocatedCount + 1) % 2 ^ 64 })
      fun _ _ => True := by
  rw [kallocScan]
  refine wp_bind.mpr (wp_get.mpr ?_)
  rw [if_pos hbit]
  refine wp_bind.mpr (wp_modify.mpr (wp_bind.mpr (wp_get.mpr (wp_bind.mpr (wp_ensure.mpr
    ⟨fun _ => ?_, fun _ => trivial⟩)))))
  refine wp_bind.mpr (wp_bind.mpr (wp_get.mpr (wp_ensure.mpr ⟨fun hin => ?_, fun _ => trivial⟩)))
  exact wp_pure.mpr ⟨rfl, hin.imp_right And.left, rfl⟩

theorem wp_kallocScan_set {i : ℕ} {is : List ℕ} {Q : ℕ → Allocator → Prop}
    {E : AllocPanic → Allocator → Prop} (hbit : isBitSet alloc.bitmap i) :
    wp (kallocScan (i :: is)) alloc Q E ↔ wp (kallocScan is) alloc Q E := by
  rw [kallocScan, wp_bind, wp_get, if_neg (not_not.mpr hbit)]

/-- **Only the first object** can be had from a pool that has wrapped around. -/
theorem Wrapped.kalloc (h : Wrapped alloc live) :
    wp Objects.kalloc alloc (fun p a => Wrapped a (p :: live)) fun _ _ => True := by
  have hcount := h.count_pos
  unfold Objects.kalloc
  refine wp_bind.mpr (wp_get.mpr ?_)
  split_ifs with h0
  · exact wp_throw.mpr trivial
  refine wp_bind.mpr (wp_modify.mpr ?_)
  obtain ⟨m, hm⟩ : ∃ m, alloc.maxCount = m + 1 := ⟨alloc.maxCount - 1, by omega⟩
  rw [hm, List.range_succ_eq_map]
  by_cases hbit : isBitSet alloc.bitmap 0
  · refine (wp_kallocScan_set (by exact hbit)).mpr ?_
    cases m with
    | zero => exact wp_throw.mpr trivial
    | succ m =>
      rw [List.range_succ_eq_map, List.map_cons]
      refine wp_mono (wp_kallocScan_clear (by exact h.second)) ?_ fun _ _ hx => hx
      -- the second object is before the pool
      rintro p a ⟨hp, hin, -⟩
      have hbase : alloc.poolBase ≤ p := hin.resolve_left h.low
      have hlt := h.base_lt
      have hend := h.pool_lt
      have hwraps := h.wraps
      have hsize := h.size_lt
      have hp : p = (alloc.poolBase + 1 * alloc.objectSizeAligned) % 2 ^ 64 := hp
      omega
  · refine wp_mono (wp_kallocScan_clear (by exact hbit)) ?_ fun _ _ hx => hx
    rintro p a ⟨rfl, -, rfl⟩
    have hlt := h.base_lt
    have hend := h.pool_lt
    have hp : (alloc.poolBase + 0 * alloc.objectSizeAligned) % 2 ^ 64 = alloc.poolBase := by omega
    rw [hp, h.clear hbit]
    exact ⟨h.base_pos, hlt, hend, h.end_lt, h.wraps, h.size_lt, h.low, m.succ_pos, fun _ => rfl,
      fun hno => absurd ((isBitSet_bitSet _ 0 0).mpr (Or.inl rfl)) hno, fun h1 =>
        h.second (((isBitSet_bitSet _ 0 1).mp h1).resolve_left (by decide))⟩

/-- **A call keeps a regular pool regular.** -/
theorem Regular.call {c' : Allocator × List ℕ} (h : Regular alloc live)
    (hcall : Call (alloc, live) c') : Regular c'.1 c'.2 := by
  have hle := h.shape.count_le
  cases hcall with
  | @kalloc _ a _ p hx =>
    obtain ⟨-, -, hc, -⟩ := (wp_of_eq_ok hx).mp (wp_kalloc h.consistent h.shape)
    have hg := keeps_kalloc.ok hx
    obtain ⟨-, hs, -⟩ := (Step.kalloc hx).consistent h.consistent h.shape
    exact ⟨hs, hc, fun i hi hlt => hg.bits i (h.tail i (by rw [← hg.count]; exact hi) hlt)⟩
  | @kfree _ a _ obj hw hx =>
    rcases Nat.eq_zero_or_pos obj with rfl | hpos
    · -- `NULL`, which is no object
      have hno : 0 ∉ live := fun hm => by
        obtain ⟨i, -, he⟩ := h.consistent.object 0 hm
        have := h.shape.base_pos
        unfold Allocator.object at he
        omega
      cases hx
      rw [List.erase_of_not_mem hno]
      exact h
    · obtain ⟨hacc, hb⟩ := (wp_of_eq_ok hx).mp (wp_kfree_any hpos.ne')
      have hm := h.live_of_whole hacc hw
      obtain ⟨hc, hs, -, hcount⟩ := (Step.kfree hm hx).consistent h.consistent h.shape
      refine ⟨hs, hc, fun i hi hlt => ?_⟩
      have hi' : alloc.maxCount ≤ i := by
        change a.maxCount = alloc.maxCount at hcount
        rw [← hcount]
        exact hi
      obtain ⟨j, hj, rfl⟩ := h.consistent.object _ hm
      have hb := hb.bitmap
      rw [indexOf_object h.shape] at hb
      change isBitSet a.bitmap i
      rw [hb, isBitSet_bitClear]
      exact ⟨by omega, h.tail i hi' hlt⟩
  | @other _ _ b hb =>
    refine ⟨⟨h.shape.size_pos, h.shape.size_le, h.shape.aligned, h.shape.base_pos, h.shape.fits,
      h.shape.end_lt, hle⟩, ⟨h.consistent.nodup, h.consistent.object, fun i hi => ?_,
      h.consistent.allocated, h.consistent.available⟩, fun i hi hlt => ?_⟩
    · have hi' : i < alloc.maxCount := hi
      exact (isBitSet_congr hb (by omega)).trans (h.consistent.bit i hi)
    · exact (isBitSet_congr hb hlt).mpr (h.tail i hi hlt)

theorem Empty.not_accepted (h : Empty alloc) : ¬ Accepted alloc obj := by
  rintro ⟨hin, -⟩
  unfold Empty at h
  omega

/-- **An empty pool stays empty.** -/
theorem Empty.call {c' : Allocator × List ℕ} (h : Empty alloc) (hcall : Call (alloc, live) c') :
    Empty c'.1 := by
  cases hcall with
  | @kalloc _ a _ p hx =>
    have hg := keeps_kalloc.ok hx
    change a.poolEnd ≤ a.poolBase
    rw [hg.base, hg.poolEnd]
    exact h
  | @kfree _ a _ obj hw hx =>
    rcases Nat.eq_zero_or_pos obj with rfl | hpos
    · cases hx
      exact h
    · exact absurd ((wp_of_eq_ok hx).mp (wp_kfree_any hpos.ne')).1 h.not_accepted
  | other hb => exact h

/-- In a pool that has wrapped around every pointer leads to the first bit. -/
theorem Wrapped.indexOf_eq (h : Wrapped alloc live) (hlt : obj < alloc.poolEnd) :
    indexOf alloc obj = 0 := by
  have hend := h.end_lt
  have hpos : 0 < alloc.objectSizeAligned := Nat.pos_of_ne_zero fun h0 =>
    h.low (by rw [h0, Nat.zero_mod])
  exact Nat.div_eq_of_lt (by omega)

/-- **What `kfree` accepts** is live if it is whole. -/
theorem Wrapped.live_of_whole (h : Wrapped alloc live) (hacc : Accepted alloc obj)
    (hw : Whole alloc obj) : live = [obj] := by
  obtain ⟨⟨h1, h2⟩, hbit⟩ := hacc
  have hobj : obj = alloc.poolBase := by
    rcases hw with hw | hw | hw | ⟨-, he⟩
    · omega
    · omega
    · exact absurd hbit hw
    · rw [he, h.indexOf_eq h2]
      exact Nat.add_eq_left.mpr (Nat.zero_mul _)
  rw [h.indexOf_eq h2] at hbit
  rw [hobj]
  exact h.first hbit

theorem Wrapped.whole_of_live (h : Wrapped alloc live) (hm : obj ∈ live) : Whole alloc obj := by
  have hbit : isBitSet alloc.bitmap 0 := by
    by_contra hno
    rw [h.clear hno] at hm
    exact absurd hm List.not_mem_nil
  rw [h.first hbit, List.mem_singleton] at hm
  subst hm
  refine Or.inr (Or.inr (Or.inr ?_))
  rw [h.indexOf_eq h.base_lt]
  exact ⟨h.count_pos, (Nat.add_eq_left.mpr (Nat.zero_mul _)).symm⟩

/-- **A call keeps a pool that has wrapped around as it is.** -/
theorem Wrapped.call {c' : Allocator × List ℕ} (h : Wrapped alloc live)
    (hcall : Call (alloc, live) c') : Wrapped c'.1 c'.2 := by
  cases hcall with
  | kalloc hx => exact (wp_of_eq_ok hx).mp h.kalloc
  | @kfree _ a _ obj hw hx =>
    rcases Nat.eq_zero_or_pos obj with rfl | hpos
    · -- `NULL`, which is no object
      have hno : 0 ∉ live := fun hm => by
        have hlt := h.base_pos
        have hin : alloc.poolBase ≤ 0 := by
          by_cases hbit : isBitSet alloc.bitmap 0
          · rw [h.first hbit, List.mem_singleton] at hm
            exact hm.ge
          · rw [h.clear hbit] at hm
            exact absurd hm List.not_mem_nil
        omega
      cases hx
      rw [List.erase_of_not_mem hno]
      exact h
    · obtain ⟨hacc, hfreed⟩ := (wp_of_eq_ok hx).mp (wp_kfree_any hpos.ne')
      have hlive := h.live_of_whole hacc hw
      have h0 := h.indexOf_eq hacc.1.2
      unfold Freed at hfreed
      rw [h0] at hfreed
      rw [hlive, List.erase_cons_head, hfreed]
      exact ⟨h.base_pos, h.base_lt, h.pool_lt, h.end_lt, h.wraps, h.size_lt, h.low, h.count_pos,
        fun hbit => absurd rfl ((isBitSet_bitClear _ 0 0).mp hbit).1, fun _ => rfl,
        fun h1 => h.second ((isBitSet_bitClear _ 0 1).mp h1).2⟩
  | other hb =>
    have hbits : ∀ i < 32768, isBitSet _ i ↔ isBitSet alloc.bitmap i := fun i => isBitSet_congr hb
    exact ⟨h.base_pos, h.base_lt, h.pool_lt, h.end_lt, h.wraps, h.size_lt, h.low, h.count_pos,
      fun hbit => h.first ((hbits 0 (by decide)).mp hbit),
      fun hno => h.clear fun hbit => hno ((hbits 0 (by decide)).mpr hbit),
      fun h1 => h.second ((hbits 1 (by decide)).mp h1)⟩

theorem isBitSet_ones (i : ℕ) : isBitSet (fun _ => 0xff) i := by
  have hi : i % 8 < 8 := Nat.mod_lt _ (by decide)
  rw [isBitSet_iff, show (0xff : UInt8).toNat = 2 ^ 8 - 1 by rfl, Nat.testBit_two_pow_sub_one]
  exact decide_eq_true hi

/-- The size of an object is rounded up, or the sum wraps around. -/
theorem roundup_object {objectSize A : ℕ} (hsize : objectSize < 2 ^ 64)
    (hA : ROUNDUP_2N objectSize 16 = A) :
    A % 16 = 0 ∧ A < 2 ^ 64 ∧ (A = 0 ∨ 0 < objectSize ∧ objectSize ≤ A) := by
  rw [← hA]
  unfold ROUNDUP_2N
  omega

theorem roundup_pool {N T : ℕ} (hT : PGROUNDUP (N % 2 ^ 64) = T) :
    T < 2 ^ 64 ∧ (T = 0 ∨ N % 2 ^ 64 ≤ T) := by
  rw [← hT]
  unfold PGROUNDUP
  rw [PGSIZE_eq]
  omega

/-- The bits that `allocator_init` leaves. -/
theorem initBits (count i : ℕ) :
    isBitSet ((List.range count).foldl bitClear fun _ => 0xff) i ↔ count ≤ i := by
  rw [foldl_bitClear, List.mem_range, not_lt]
  exact and_iff_left (isBitSet_ones i)

/-- A size that is a multiple of 2 ^ 32 gives an empty pool, or one that no memory has room for. -/
theorem low_ne_zero {A count T : ℕ} (hT : PGROUNDUP (A * count % 2 ^ 64) = T) (hpos : T ≠ 0)
    (hlt : T < 2 ^ 32) : A % 2 ^ 32 ≠ 0 := by
  intro h0
  have hlow : A * count % 2 ^ 64 % 2 ^ 32 = 0 := by
    rw [Nat.mod_mod_of_dvd _ (by decide : 2 ^ 32 ∣ 2 ^ 64), Nat.mul_mod, h0, Nat.zero_mul,
      Nat.zero_mod]
  rcases Nat.eq_zero_or_pos (A * count % 2 ^ 64) with hN | hN
  · rw [hN] at hT
    exact hpos hT.symm
  · have := (roundup_pool hT).2.resolve_left hpos
    omega

/-- A product that wraps around has a large factor. -/
theorem factor_of_wraps {A count : ℕ} (hcount : count ≤ 32768) (hwrap : 2 ^ 64 ≤ A * count) :
    2 ^ 49 ≤ A ∧ (A < 2 ^ 64 → 2 ≤ count) := by
  have hmul : A * count ≤ A * 32768 := Nat.mul_le_mul_left A hcount
  refine ⟨by omega, fun hA => ?_⟩
  by_contra hc
  have hmul' : A * count ≤ A * 1 := Nat.mul_le_mul_left A (by omega)
  omega

/-- `allocator_init` for any sizes, with no more pages than there are. -/
theorem init_regular {mappedVa pages objectSize count next : ℕ} (hbase : KERNEL_ALLOCATOR_BASE ≤ mappedVa)
    (hva : mappedVa < 2 ^ 64) (hpages : pages * PGSIZE ≤ PHYS_MEM_SIZE) (hsize : objectSize < 2 ^ 64)
    (hinit : allocatorInit mappedVa pages objectSize count = .ok (alloc, next)) :
    Regular alloc [] ∨ Empty alloc ∨ Wrapped alloc [] := by
  unfold allocatorInit at hinit
  dsimp only at hinit
  split_ifs at hinit with hc hroom
  cases hinit
  rw [PGSIZE_eq] at hc hroom hpages
  generalize hA : ROUNDUP_2N objectSize 16 = A at hroom ⊢
  obtain ⟨hal, hAlt, hround⟩ := roundup_object hsize hA
  generalize hT : PGROUNDUP (A * count % 2 ^ 64) = T at hroom ⊢
  have hpool := roundup_pool hT
  unfold KERNEL_ALLOCATOR_BASE at hbase
  unfold PHYS_MEM_SIZE at hpages
  by_cases hempty : (mappedVa + T) % 2 ^ 64 ≤ mappedVa
  · exact Or.inr (Or.inl hempty)
  have hend : (mappedVa + T) % 2 ^ 64 = mappedVa + T := by omega
  have hlt : (mappedVa + T) % 2 ^ 64 < 2 ^ 64 := Nat.mod_lt _ (by decide)
  by_cases hwrap : A * count < 2 ^ 64
  · left
    have hpos : 0 < A := Nat.pos_of_ne_zero fun h0 => by
      rw [h0, Nat.zero_mul] at hT
      have hT0 : T = 0 := hT.symm
      omega
    have hobj := hround.resolve_left hpos.ne'
    have hfits : mappedVa + count * A ≤ (mappedVa + T) % 2 ^ 64 := by
      rw [hend, Nat.mul_comm]
      rw [Nat.mod_eq_of_lt hwrap] at hpool
      omega
    refine ⟨⟨hobj.1, hobj.2, hal, by dsimp only; omega, hfits, hlt, hc⟩,
      ⟨List.nodup_nil, by simp, fun i hi => ?_, rfl, Nat.zero_add _⟩,
      fun i hi _ => (initBits count i).mpr hi⟩
    have hi' : i < count := hi
    refine iff_of_false (fun h => ?_) (by simp)
    have := (initBits count i).mp h
    omega
  · right
    right
    obtain ⟨hlarge, htwo⟩ := factor_of_wraps hc (not_lt.mp hwrap)
    have hcount := htwo hAlt
    have hbit : ∀ i < 2, ¬ isBitSet ((List.range count).foldl bitClear fun _ => 0xff) i :=
      fun i hi h => absurd ((initBits count i).mp h) (by omega)
    have hlow := low_ne_zero hT (by omega) (by omega)
    refine ⟨?_, ?_, hlt, ?_, ?_, hAlt, hlow, ?_, fun h => absurd h (hbit 0 (by decide)), fun _ => rfl,
      hbit 1 (by decide)⟩
    all_goals
      dsimp only
      omega

/-- **The pointers that `kfree` accepts.** In every run in which it was called for whole pointers only,
`kfree` rejects every pointer but the live objects, if the pointer is whole, and only then. -/
theorem kfree_rejects_iff {mappedVa pages objectSize count next : ℕ} {alloc₀ : Allocator}
    (hbase : KERNEL_ALLOCATOR_BASE ≤ mappedVa) (hva : mappedVa < 2 ^ 64)
    (hpages : pages * PGSIZE ≤ PHYS_MEM_SIZE) (hsize : objectSize < 2 ^ 64)
    (hinit : allocatorInit mappedVa pages objectSize count = .ok (alloc₀, next))
    (hrun : Relation.ReflTransGen Call (alloc₀, []) (alloc, live)) (h0 : obj ≠ 0) :
    (obj ∈ live ∨ Rejects alloc obj) ↔ Whole alloc obj := by
  have key : ∀ c, Relation.ReflTransGen Call (alloc₀, []) c →
      Regular c.1 c.2 ∨ Empty c.1 ∨ Wrapped c.1 c.2 := by
    intro c hc
    induction hc with
    | refl => exact init_regular hbase hva hpages hsize hinit
    | tail _ hcall ih => exact ih.imp (·.call hcall) (Or.imp (·.call hcall) (·.call hcall))
  have iff_of (hlive : obj ∈ live → Whole alloc obj)
      (hwhole : Accepted alloc obj → Whole alloc obj → obj ∈ live) :
      (obj ∈ live ∨ ¬ Accepted alloc obj) ↔ Whole alloc obj := by
    refine ⟨fun hor => hor.elim hlive whole_of_not_accepted, fun hw => ?_⟩
    by_cases hacc : Accepted alloc obj
    · exact Or.inl (hwhole hacc hw)
    · exact Or.inr hacc
  rw [rejects_iff h0]
  rcases key _ hrun with h | h | h
  · exact iff_of h.whole_of_live h.live_of_whole
  · exact iff_of_true (Or.inr h.not_accepted) (whole_of_not_accepted h.not_accepted)
  · refine iff_of h.whole_of_live fun hacc hw => ?_
    have hlive : live = [obj] := h.live_of_whole hacc hw
    rw [hlive]
    exact List.mem_singleton_self obj

/-- A pool of three objects of 24 bytes, the first of them live. -/
def threeObjects : Allocator where
  poolBase := KERNEL_ALLOCATOR_BASE
  poolEnd := 0xfffffffd00001000
  bitmap := bitSet ((List.range 3).foldl bitClear fun _ => 0xff) 0
  objectSize := 24
  objectSizeAligned := 32
  allocatedCount := 1
  availableCount := 2
  maxCount := 3

/-- The pool is reached from `allocator_init` by one `kalloc`. -/
theorem threeObjects_reached : ∃ (alloc₀ : Allocator) (next : ℕ),
    allocatorInit KERNEL_ALLOCATOR_BASE 2 24 3 = .ok (alloc₀, next) ∧
    Relation.ReflTransGen Call (alloc₀, []) (threeObjects, [KERNEL_ALLOCATOR_BASE]) :=
  ⟨_, _, rfl, .single (.kalloc rfl)⟩

/-- In that pool `kfree` takes the first object, and rejects the second one, which is not live; a pointer
into the first one it neither finds live nor rejects. -/
theorem kfree_rejects_iff_sample :
    (KERNEL_ALLOCATOR_BASE ∈ [KERNEL_ALLOCATOR_BASE] ∨ Rejects threeObjects KERNEL_ALLOCATOR_BASE) ∧
    (KERNEL_ALLOCATOR_BASE + 32 ∈ [KERNEL_ALLOCATOR_BASE] ∨
      Rejects threeObjects (KERNEL_ALLOCATOR_BASE + 32)) ∧
    ¬ (KERNEL_ALLOCATOR_BASE + 8 ∈ [KERNEL_ALLOCATOR_BASE] ∨
      Rejects threeObjects (KERNEL_ALLOCATOR_BASE + 8)) := by
  obtain ⟨alloc₀, next, hinit, hrun⟩ := threeObjects_reached
  have hiff {obj : ℕ} (h0 : obj ≠ 0) := kfree_rejects_iff (Nat.le_refl KERNEL_ALLOCATOR_BASE) (by decide)
    (by decide) (by decide) hinit hrun h0
  exact ⟨(hiff (by decide)).mpr (by decide), (hiff (by decide)).mpr (by decide),
    fun h => absurd ((hiff (by decide)).mp h) (by decide)⟩

/-- **Stray pointers.** From a pool of three objects of 24 bytes, one of them live at its base, `kfree`
takes a pointer into the middle of it, and one behind the last object. -/
theorem stray_pointers : ∃ (alloc₀ : Allocator) (next : ℕ),
    allocatorInit KERNEL_ALLOCATOR_BASE 2 24 3 = .ok (alloc₀, next) ∧
    Relation.ReflTransGen Call (alloc₀, []) (threeObjects, [KERNEL_ALLOCATOR_BASE]) ∧
    (∃ a, kfree (KERNEL_ALLOCATOR_BASE + 8) threeObjects = .ok () a ∧ ¬ isBitSet a.bitmap 0) ∧
    (∃ a, kfree (KERNEL_ALLOCATOR_BASE + 96) threeObjects = .ok () a ∧ a.availableCount = 3) ∧
    ∀ obj ∈ [KERNEL_ALLOCATOR_BASE + 8, KERNEL_ALLOCATOR_BASE + 96],
      ¬ (obj ∈ [KERNEL_ALLOCATOR_BASE] ∨ Rejects threeObjects obj) := by
  obtain ⟨alloc₀, next, hinit, hrun⟩ := threeObjects_reached
  refine ⟨alloc₀, next, hinit, hrun, ?_, ?_, fun obj hobj => ?_⟩
  · unfold threeObjects
    exact ⟨_, rfl, by decide⟩
  · unfold threeObjects
    exact ⟨_, rfl, by decide⟩
  rcases List.mem_pair.mp hobj with rfl | rfl
  · exact not_or.mpr ⟨by decide, fun h => (rejects_iff (by decide)).mp h ⟨by decide, by decide⟩⟩
  · exact not_or.mpr ⟨by decide, fun h => (rejects_iff (by decide)).mp h ⟨by decide, by decide⟩⟩

end UCore.Mem.Kfree

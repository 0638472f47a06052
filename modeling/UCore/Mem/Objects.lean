import Mathlib.Data.List.Nodup
import Mathlib.Data.List.Perm.Subperm
import Mathlib.Logic.Relation
import UCore.Lib.Hoare
import UCore.Riscv

/-! # The object allocator

`allocator_init`, `kalloc` and `kfree` of `kalloc.c`. An allocator owns the virtual range
`[pool_base, pool_end)` and a page for its bitmap. The code never reads an object, so of the pool
only its bounds are kept: a `memset` that leaves them is a kernel page fault. A set bit marks a live
object; `Consistent` ties the bits and the two counters to the list of live objects, and holds in
every run (`Step.consistent`).

The sizes are 64-bit numbers, and nothing checks that the pool fits: an object size of zero, or one
for which the size of the pool wraps around, gives objects outside of the pool
(`unfit_object_size`). -/

namespace UCore.Mem.Objects

open UCore.Lib.Hoare UCore.Riscv

/-! ### The bitmap -/

abbrev Bitmap := ℕ → UInt8

/-- `1 << (index % 8)`. -/
def bitMask (index : ℕ) : UInt8 := UInt8.ofNat (1 <<< (index % 8))

def bitSet (bitmap : Bitmap) (index : ℕ) : Bitmap :=
  Function.update bitmap (index / 8) (bitmap (index / 8) ||| bitMask index)

def bitClear (bitmap : Bitmap) (index : ℕ) : Bitmap :=
  Function.update bitmap (index / 8) (bitmap (index / 8) &&& ~~~ bitMask index)

def isBitSet (bitmap : Bitmap) (index : ℕ) : Prop := bitmap (index / 8) &&& bitMask index ≠ 0

instance (bitmap : Bitmap) (index : ℕ) : Decidable (isBitSet bitmap index) := by
  unfold isBitSet; infer_instance

theorem toNat_bitMask (i : ℕ) : (bitMask i).toNat = 2 ^ (i % 8) := by
  have h : 2 ^ (i % 8) < 2 ^ 8 := Nat.pow_lt_pow_right (by decide) (Nat.mod_lt _ (by decide))
  rw [bitMask, UInt8.toNat_ofNat', Nat.one_shiftLeft, Nat.mod_eq_of_lt h]

theorem isBitSet_iff (b : Bitmap) (i : ℕ) :
    isBitSet b i ↔ (b (i / 8)).toNat.testBit (i % 8) = true := by
  unfold isBitSet
  rw [ne_eq, ← UInt8.toNat_inj, UInt8.toNat_and, toNat_bitMask, Nat.and_two_pow]
  cases (b (i / 8)).toNat.testBit (i % 8) <;> simp

/-- **`bit_set` sets one bit** and no other. -/
theorem isBitSet_bitSet (b : Bitmap) (i j : ℕ) : isBitSet (bitSet b i) j ↔ j = i ∨ isBitSet b j := by
  rw [isBitSet_iff, isBitSet_iff]
  unfold bitSet
  by_cases hcell : j / 8 = i / 8
  · have hj : j = i ↔ i % 8 = j % 8 := by omega
    rw [hcell, Function.update_self, UInt8.toNat_or, Nat.testBit_or, toNat_bitMask,
      Nat.testBit_two_pow, Bool.or_eq_true, decide_eq_true_eq, hj]
    exact or_comm
  · have hj : j ≠ i := fun h => hcell (by rw [h])
    rw [Function.update_of_ne hcell]
    simp [hj]

/-- **`bit_clear` clears one bit** and no other. -/
theorem isBitSet_bitClear (b : Bitmap) (i j : ℕ) :
    isBitSet (bitClear b i) j ↔ j ≠ i ∧ isBitSet b j := by
  rw [isBitSet_iff, isBitSet_iff]
  unfold bitClear
  by_cases hcell : j / 8 = i / 8
  · have hj : j = i ↔ i % 8 = j % 8 := by omega
    have hlt : j % 8 < 8 := Nat.mod_lt _ (by decide)
    have hmask : (~~~ bitMask i).toNat = 2 ^ 8 - (2 ^ (i % 8) + 1) := by
      rw [UInt8.toNat_not, toNat_bitMask, Nat.sub_sub, Nat.add_comm 1]
      rfl
    have hi : 2 ^ (i % 8) < 2 ^ 8 := Nat.pow_lt_pow_right (by decide) (Nat.mod_lt _ (by decide))
    rw [hcell, Function.update_self, UInt8.toNat_and, Nat.testBit_and, hmask,
      Nat.testBit_two_pow_sub_succ hi, Nat.testBit_two_pow, Bool.and_eq_true, ne_eq, hj]
    simp [hlt, and_comm]
  · have hj : j ≠ i := fun h => hcell (by rw [h])
    rw [Function.update_of_ne hcell]
    simp [hj]

/-! ### The code -/

/-- `struct allocator`. -/
structure Allocator where
  poolBase : ℕ
  poolEnd : ℕ
  bitmap : Bitmap
  objectSize : ℕ
  objectSizeAligned : ℕ
  allocatedCount : ℕ
  availableCount : ℕ
  maxCount : ℕ

inductive AllocPanic
  | unavailable
  | shouldNotHappen
  | doubleFree (obj : ℕ)
  | assertion (text : String)
  | trapFromKernel
  deriving DecidableEq

/-- The format string of the message. -/
def AllocPanic.text : AllocPanic → String
  | .unavailable => "unavailable"
  | .shouldNotHappen => "should not happen"
  | .doubleFree _ => "double free: %p"
  | .assertion _ => "assertion failed: %s"
  | .trapFromKernel => "trap from kernel"

def KERNEL_ALLOCATOR_BASE : ℕ := 0xfffffffd00000000
def KERNEL_ALLOCATOR_GAP : ℕ := 0x1000000

/-- `ROUNDUP_2N(sz, base)` for a power of two `base`. -/
def ROUNDUP_2N (sz base : ℕ) : ℕ := (sz + base - 1) % 2 ^ 64 / base * base

/-- `allocator_init(alloc, name, object_size, count)`, where `mappedVa` is `allocator_mapped_va` and
the page allocator has `pages` pages left; returns `alloc` and the new `allocator_mapped_va`. A page
too few is a `memset` through the translation of the null pointer. -/
def allocatorInit (mappedVa pages objectSize count : ℕ) : Except AllocPanic (Allocator × ℕ) :=
  if ¬ count ≤ PGSIZE * 8 then
    .error (.assertion "count <= PGSIZE * 8")
  else
    let aligned := ROUNDUP_2N objectSize 16
    let totalSize := PGROUNDUP (aligned * count % 2 ^ 64)
    let poolEnd := (mappedVa + totalSize) % 2 ^ 64
    -- a page for each turn of the loop, of which there is none if the sum wraps around, and the bitmap
    if pages < (poolEnd - mappedVa) / PGSIZE + 1 then
      .error .trapFromKernel
    else
      .ok ({  poolBase := mappedVa
              poolEnd := poolEnd
              bitmap := (List.range count).foldl bitClear fun _ => 0xff
              objectSize := objectSize
              objectSizeAligned := aligned
              allocatedCount := 0
              availableCount := count
              maxCount := count },
        (mappedVa + ROUNDUP_2N totalSize KERNEL_ALLOCATOR_GAP) % 2 ^ 64)

abbrev AM := EStateM AllocPanic Allocator

/-- `memset(va, c, size)` in the pool. The length `n` of `memset` is a `uint`; its `int i` reaches the end
of the pool, which has fewer than `2 ^ 31` bytes of memory. -/
def memsetPool (va size : ℕ) : AM Unit := do
  let alloc ← get
  let n := size % 2 ^ 32
  ensure (n = 0 ∨ alloc.poolBase ≤ va ∧ va + n ≤ alloc.poolEnd) .trapFromKernel

/-- The loop of `kalloc`. -/
def kallocScan : List ℕ → AM ℕ
  | [] => throw .shouldNotHappen
  | i :: is => do
    let alloc ← get
    if ¬ isBitSet alloc.bitmap i then
      modify fun alloc => { alloc with
        bitmap := bitSet alloc.bitmap i
        allocatedCount := (alloc.allocatedCount + 1) % 2 ^ 64 }
      let ret := (alloc.poolBase + i * alloc.objectSizeAligned) % 2 ^ 64
      let alloc ← get
      ensure ((alloc.allocatedCount + alloc.availableCount) % 2 ^ 64 = alloc.maxCount)
        (.assertion "alloc->allocated_count + alloc->available_count == alloc->max_count")
      memsetPool ret alloc.objectSizeAligned
      return ret
    else
      kallocScan is

/-- `kalloc(alloc)`. -/
def kalloc : AM ℕ := do
  let alloc ← get
  if alloc.availableCount = 0 then
    throw .unavailable
  else
    modify fun alloc => { alloc with availableCount := alloc.availableCount - 1 }
    kallocScan (List.range alloc.maxCount)

/-- `kfree(alloc, obj)`. -/
def kfree (obj : ℕ) : AM Unit :=
  if obj = 0 then
    pure ()
  else do
    let alloc ← get
    ensure (alloc.poolBase ≤ obj ∧ obj < alloc.poolEnd)
      (.assertion "alloc->pool_base <= (uint64)obj && (uint64)obj < alloc->pool_end")
    let index := (obj - alloc.poolBase) / alloc.objectSizeAligned
    ensure (isBitSet alloc.bitmap index) (.doubleFree obj)
    modify fun alloc => { alloc with
      bitmap := bitClear alloc.bitmap index
      allocatedCount := (alloc.allocatedCount + (2 ^ 64 - 1)) % 2 ^ 64
      availableCount := (alloc.availableCount + 1) % 2 ^ 64 }
    let alloc ← get
    ensure ((alloc.allocatedCount + alloc.availableCount) % 2 ^ 64 = alloc.maxCount)
      (.assertion "alloc->allocated_count + alloc->available_count == alloc->max_count")
    memsetPool obj alloc.objectSizeAligned

/-! ### Consistency -/

variable {alloc alloc' : Allocator} {live : List ℕ}

/-- The address of object `i`. -/
def Allocator.object (alloc : Allocator) (i : ℕ) : ℕ := alloc.poolBase + i * alloc.objectSizeAligned

/-- The pool holds `max_count` objects. -/
structure Shape (alloc : Allocator) : Prop where
  size_pos : 0 < alloc.objectSize
  size_le : alloc.objectSize ≤ alloc.objectSizeAligned
  aligned : alloc.objectSizeAligned % 16 = 0
  base_pos : 0 < alloc.poolBase
  fits : alloc.poolBase + alloc.maxCount * alloc.objectSizeAligned ≤ alloc.poolEnd
  end_lt : alloc.poolEnd < 2 ^ 64
  count_le : alloc.maxCount ≤ 32768

/-- `live` are the live objects. -/
structure Consistent (alloc : Allocator) (live : List ℕ) : Prop where
  nodup : live.Nodup
  object : ∀ p ∈ live, ∃ i < alloc.maxCount, p = alloc.object i
  bit : ∀ i < alloc.maxCount, isBitSet alloc.bitmap i ↔ alloc.object i ∈ live
  allocated : alloc.allocatedCount = live.length
  available : alloc.allocatedCount + alloc.availableCount = alloc.maxCount

theorem Shape.aligned_pos (h : Shape alloc) : 0 < alloc.objectSizeAligned :=
  h.size_pos.trans_le h.size_le

/-- Objects do not overlap. -/
theorem Shape.apart (h : Shape alloc) {i j : ℕ} (hij : i < j) :
    alloc.object i + alloc.objectSize ≤ alloc.object j := by
  have h1 : (i + 1) * alloc.objectSizeAligned ≤ j * alloc.objectSizeAligned :=
    Nat.mul_le_mul_right _ hij
  have h2 := h.size_le
  unfold Allocator.object
  rw [Nat.add_mul, Nat.one_mul] at h1
  omega

theorem Shape.object_inj (h : Shape alloc) {i j : ℕ} (he : alloc.object i = alloc.object j) :
    i = j := by
  have h0 := h.size_pos
  rcases Nat.lt_trichotomy i j with hij | rfl | hij
  · have := h.apart hij; omega
  · rfl
  · have := h.apart hij; omega

/-- Every object lies in the pool. -/
theorem Shape.object_le (h : Shape alloc) {i : ℕ} (hi : i < alloc.maxCount) :
    alloc.object i + alloc.objectSizeAligned ≤ alloc.poolEnd := by
  have h1 : (i + 1) * alloc.objectSizeAligned ≤ alloc.maxCount * alloc.objectSizeAligned :=
    Nat.mul_le_mul_right _ hi
  have h2 := h.fits
  unfold Allocator.object
  rw [Nat.add_mul, Nat.one_mul] at h1
  omega

/-- A set bit for every object means as many live objects. -/
theorem Consistent.full (h : Consistent alloc live) (hs : Shape alloc)
    (hall : ∀ i < alloc.maxCount, isBitSet alloc.bitmap i) : alloc.maxCount ≤ live.length := by
  have hnd : ((List.range alloc.maxCount).map alloc.object).Nodup :=
    List.nodup_range.map fun _ _ he => hs.object_inj he
  have hsub : (List.range alloc.maxCount).map alloc.object ⊆ live := by
    intro p hp
    obtain ⟨i, hi, rfl⟩ := List.mem_map.mp hp
    have hi := List.mem_range.mp hi
    exact (h.bit i hi).mp (hall i hi)
  have := (List.subperm_of_subset hnd hsub).length_le
  rwa [List.length_map, List.length_range] at this

/-! ### `kalloc` -/

/-- What the loop of `kalloc` does at a clear bit. -/
def marked (alloc : Allocator) (i : ℕ) : Allocator :=
  { alloc with bitmap := bitSet alloc.bitmap i, allocatedCount := alloc.allocatedCount + 1 }

/-- The loop of `kalloc` takes the first clear bit. -/
theorem wp_kallocScan (hs : Shape alloc)
    (hcount : alloc.allocatedCount + 1 + alloc.availableCount = alloc.maxCount) :
    ∀ {is : List ℕ}, (∀ i ∈ is, i < alloc.maxCount) →
      wp (kallocScan is) alloc
        (fun p a => ∃ i ∈ is, ¬ isBitSet alloc.bitmap i ∧ p = alloc.object i ∧ a = marked alloc i)
        fun e _ => e = .shouldNotHappen ∧ ∀ i ∈ is, isBitSet alloc.bitmap i
  | [], _ => ⟨rfl, by simp⟩
  | i :: is, his => by
    have hi := his i (by simp)
    have hle := hs.count_le
    rw [kallocScan]
    refine wp_bind.mpr (wp_get.mpr ?_)
    by_cases hbit : isBitSet alloc.bitmap i
    · rw [if_neg (not_not.mpr hbit)]
      refine wp_mono (wp_kallocScan hs hcount fun j hj => his j (by simp [hj])) ?_ ?_
      · rintro p a ⟨j, hj, h⟩
        exact ⟨j, by simp [hj], h⟩
      · rintro e a ⟨rfl, h⟩
        refine ⟨rfl, fun j hj => ?_⟩
        rcases List.mem_cons.mp hj with rfl | hj
        · exact hbit
        · exact h j hj
    · rw [if_pos hbit]
      have hend := hs.object_le hi
      have hlt := hs.end_lt
      have hsize := hs.size_pos.trans_le hs.size_le
      have hret : (alloc.poolBase + i * alloc.objectSizeAligned) % 2 ^ 64 = alloc.object i :=
        Nat.mod_eq_of_lt (by unfold Allocator.object at hend; omega)
      have hadd : (alloc.allocatedCount + 1) % 2 ^ 64 = alloc.allocatedCount + 1 :=
        Nat.mod_eq_of_lt (by omega)
      refine wp_bind.mpr (wp_modify.mpr ?_)
      rw [hret, hadd]
      refine wp_bind.mpr (wp_get.mpr (wp_bind.mpr (wp_ensure_pos ?_ ?_)))
      · change (alloc.allocatedCount + 1 + alloc.availableCount) % 2 ^ 64 = alloc.maxCount
        rw [hcount]
        exact Nat.mod_eq_of_lt (by omega)
      · refine wp_bind.mpr (wp_bind.mpr (wp_get.mpr (wp_ensure_pos ?_ ?_)))
        · exact Or.inr ⟨Nat.le_add_right _ _, (Nat.add_le_add_left (Nat.mod_le _ _) _).trans hend⟩
        · exact ⟨i, by simp, hbit, rfl, rfl⟩

/-- **`kalloc`** returns an object that is not live, or all are live. -/
theorem wp_kalloc (h : Consistent alloc live) (hs : Shape alloc) :
    wp kalloc alloc
      (fun p a => live.length < alloc.maxCount ∧ p ∉ live ∧ Consistent a (p :: live) ∧
        a = { alloc with
          bitmap := a.bitmap, allocatedCount := a.allocatedCount
          availableCount := a.availableCount })
      fun e _ => e = .unavailable ∧ live.length = alloc.maxCount := by
  have hav := h.available
  have hal := h.allocated
  unfold kalloc
  refine wp_bind.mpr (wp_get.mpr ?_)
  by_cases h0 : alloc.availableCount = 0
  · rw [if_pos h0]
    exact ⟨rfl, by omega⟩
  rw [if_neg h0]
  refine wp_bind.mpr (wp_modify.mpr ?_)
  have hs' : Shape { alloc with availableCount := alloc.availableCount - 1 } :=
    ⟨hs.size_pos, hs.size_le, hs.aligned, hs.base_pos, hs.fits, hs.end_lt, hs.count_le⟩
  refine wp_mono (wp_kallocScan hs' ?_ fun i hi => List.mem_range.mp hi) ?_ ?_
  · change alloc.allocatedCount + 1 + (alloc.availableCount - 1) = alloc.maxCount
    omega
  · rintro p a ⟨i, hi, hbit, rfl, rfl⟩
    have hi : i < alloc.maxCount := List.mem_range.mp hi
    have hnew : alloc.object i ∉ live := fun hm => hbit ((h.bit i hi).mpr hm)
    refine ⟨by omega, hnew, ⟨List.nodup_cons.mpr ⟨hnew, h.nodup⟩, fun p hp => ?_, fun j hj => ?_,
      ?_, ?_⟩, rfl⟩
    · rcases List.mem_cons.mp hp with rfl | hp
      · exact ⟨i, hi, rfl⟩
      · exact h.object p hp
    · change isBitSet (bitSet alloc.bitmap i) j ↔ alloc.object j ∈ alloc.object i :: live
      rw [isBitSet_bitSet, List.mem_cons, h.bit j hj]
      refine or_congr_left ⟨fun he => by rw [he], fun he => hs.object_inj he⟩
    · change alloc.allocatedCount + 1 = live.length + 1
      omega
    · change alloc.allocatedCount + 1 + (alloc.availableCount - 1) = alloc.maxCount
      omega
  · rintro e a ⟨-, hall⟩
    have := h.full hs fun i hi => hall i (List.mem_range.mpr hi)
    omega

/-! ### `kfree` -/

/-- **`kfree`** of a live object. -/
theorem wp_kfree (h : Consistent alloc live) (hs : Shape alloc) {p : ℕ} (hp : p ∈ live) :
    wpOk (kfree p) alloc fun _ a => Consistent a (live.erase p) ∧
      a = { alloc with
        bitmap := a.bitmap, allocatedCount := a.allocatedCount
        availableCount := a.availableCount } := by
  obtain ⟨i, hi, rfl⟩ := h.object p hp
  have hend := hs.object_le hi
  have hsize := hs.aligned_pos
  have hbase := hs.base_pos
  have hle := hs.count_le
  have hav := h.available
  have hal := h.allocated
  have hlen : 0 < live.length := List.length_pos_of_mem hp
  have hge : alloc.poolBase ≤ alloc.object i := Nat.le_add_right _ _
  have hindex : (alloc.object i - alloc.poolBase) / alloc.objectSizeAligned = i := by
    unfold Allocator.object
    rw [Nat.add_sub_cancel_left, Nat.mul_div_cancel _ hsize]
  have hdec : (alloc.allocatedCount + (2 ^ 64 - 1)) % 2 ^ 64 = alloc.allocatedCount - 1 := by omega
  have hinc : (alloc.availableCount + 1) % 2 ^ 64 = alloc.availableCount + 1 := by omega
  unfold kfree
  rw [if_neg (by omega)]
  refine wp_bind.mpr (wp_get.mpr (wp_bind.mpr (wp_ensure_pos ⟨hge, by omega⟩ ?_)))
  rw [hindex]
  refine wp_bind.mpr (wp_ensure_pos ((h.bit i hi).mpr hp) (wp_bind.mpr (wp_modify.mpr ?_)))
  rw [hdec, hinc]
  refine wp_bind.mpr (wp_get.mpr (wp_bind.mpr (wp_ensure_pos ?_ ?_)))
  · change (alloc.allocatedCount - 1 + (alloc.availableCount + 1)) % 2 ^ 64 = alloc.maxCount
    omega
  have hin : alloc.object i + alloc.objectSizeAligned % 2 ^ 32 ≤ alloc.poolEnd :=
    (Nat.add_le_add_left (Nat.mod_le _ _) _).trans hend
  refine wp_bind.mpr (wp_get.mpr (wp_ensure_pos (Or.inr ⟨hge, hin⟩) ⟨⟨h.nodup.erase _,
    fun q hq => h.object q (List.mem_of_mem_erase hq), fun j hj => ?_, ?_, ?_⟩, rfl⟩))
  · change isBitSet (bitClear alloc.bitmap i) j ↔ alloc.object j ∈ live.erase (alloc.object i)
    rw [isBitSet_bitClear, h.nodup.mem_erase_iff, h.bit j hj]
    refine and_congr_left fun _ => not_congr ⟨fun he => by rw [he], fun he => hs.object_inj he⟩
  · change alloc.allocatedCount - 1 = _
    rw [List.length_erase_of_mem hp, hal]
  · change alloc.allocatedCount - 1 + (alloc.availableCount + 1) = alloc.maxCount
    omega

/-! ### Runs -/

/-- One call, with the list of the live objects: `kalloc`, or `kfree` of one of them. -/
inductive Step : Allocator × List ℕ → Allocator × List ℕ → Prop
  | kalloc {a a' : Allocator} {l : List ℕ} {p : ℕ} (h : kalloc a = .ok p a') :
      Step (a, l) (a', p :: l)
  | kfree {a a' : Allocator} {l : List ℕ} {p : ℕ} (hp : p ∈ l) (h : kfree p a = .ok () a') :
      Step (a, l) (a', l.erase p)

/-- The pool fits into the address space at `mappedVa`. -/
structure Fits (mappedVa objectSize count : ℕ) : Prop where
  base_le : KERNEL_ALLOCATOR_BASE ≤ mappedVa
  size_lt : objectSize + 15 < 2 ^ 64
  end_le : mappedVa + ROUNDUP_2N objectSize 16 * count + PGSIZE ≤ 2 ^ 64

instance (mappedVa objectSize count : ℕ) : Decidable (Fits mappedVa objectSize count) :=
  decidable_of_iff (KERNEL_ALLOCATOR_BASE ≤ mappedVa ∧ objectSize + 15 < 2 ^ 64 ∧
    mappedVa + ROUNDUP_2N objectSize 16 * count + PGSIZE ≤ 2 ^ 64)
    ⟨fun ⟨h1, h2, h3⟩ => ⟨h1, h2, h3⟩, fun ⟨h1, h2, h3⟩ => ⟨h1, h2, h3⟩⟩

theorem foldl_bitClear (b : Bitmap) (is : List ℕ) (j : ℕ) :
    isBitSet (is.foldl bitClear b) j ↔ j ∉ is ∧ isBitSet b j := by
  induction is generalizing b with
  | nil => simp
  | cons i is ih =>
    rw [List.foldl_cons, ih, isBitSet_bitClear, List.mem_cons, not_or]
    tauto

/-- **`allocator_init`** leaves an allocator without live objects. -/
theorem allocatorInit_ok {mappedVa pages objectSize count next : ℕ} (hsize : 0 < objectSize)
    (hfit : Fits mappedVa objectSize count)
    (hinit : allocatorInit mappedVa pages objectSize count = .ok (alloc, next)) :
    Consistent alloc [] ∧ Shape alloc ∧ alloc.objectSize = objectSize ∧ alloc.maxCount = count := by
  obtain ⟨h1, h2, h3⟩ := hfit
  have hal : ROUNDUP_2N objectSize 16 = (objectSize + 15) / 16 * 16 := by
    unfold ROUNDUP_2N
    rw [Nat.mod_eq_of_lt (by omega)]
    rfl
  unfold allocatorInit at hinit
  dsimp only at hinit
  split_ifs at hinit with hc
  cases hinit
  generalize hN : ROUNDUP_2N objectSize 16 * count = N at h3
  rw [PGSIZE_eq] at h3
  unfold KERNEL_ALLOCATOR_BASE at h1
  have hend : (mappedVa + PGROUNDUP (N % 2 ^ 64)) % 2 ^ 64 = mappedVa + (N + 4095) / 4096 * 4096 := by
    rw [Nat.mod_eq_of_lt (by omega : N < 2 ^ 64), PGROUNDUP_eq (by omega)]
    omega
  refine ⟨⟨List.nodup_nil, by simp, fun i hi => ?_, rfl, Nat.zero_add _⟩, ⟨hsize, ?_, ?_, ?_, ?_, ?_,
    ?_⟩, rfl, rfl⟩
  · rw [foldl_bitClear]
    simp [hi]
  · change objectSize ≤ ROUNDUP_2N objectSize 16
    rw [hal]; omega
  · change ROUNDUP_2N objectSize 16 % 16 = 0
    rw [hal]; omega
  · change 0 < mappedVa; omega
  · change mappedVa + count * ROUNDUP_2N objectSize 16 ≤ (mappedVa + PGROUNDUP (N % 2 ^ 64)) % 2 ^ 64
    rw [Nat.mul_comm, hN, hend]
    omega
  · change (mappedVa + PGROUNDUP (N % 2 ^ 64)) % 2 ^ 64 < 2 ^ 64
    exact Nat.mod_lt _ (by decide)
  · exact hc

/-- **Every call keeps the list of live objects and the allocator consistent.** -/
theorem Step.consistent {c c' : Allocator × List ℕ} (h : Step c c') (hc : Consistent c.1 c.2)
    (hs : Shape c.1) : Consistent c'.1 c'.2 ∧ Shape c'.1 ∧ c'.1.objectSize = c.1.objectSize ∧
      c'.1.maxCount = c.1.maxCount := by
  have key : ∀ {a a' : Allocator}, Shape a → a' = { a with
      bitmap := a'.bitmap, allocatedCount := a'.allocatedCount
      availableCount := a'.availableCount } →
      Shape a' ∧ a'.objectSize = a.objectSize ∧ a'.maxCount = a.maxCount := by
    rintro a a' ha he
    rw [he]
    exact ⟨⟨ha.size_pos, ha.size_le, ha.aligned, ha.base_pos, ha.fits, ha.end_lt, ha.count_le⟩, rfl,
      rfl⟩
  cases h with
  | kalloc h =>
    obtain ⟨-, -, hc', he⟩ := (wp_of_eq_ok h).mp (wp_kalloc hc hs)
    exact ⟨hc', key hs he⟩
  | kfree hp h =>
    obtain ⟨hc', he⟩ := (wp_of_eq_ok h).mp (wp_kfree hc hs hp)
    exact ⟨hc', key hs he⟩

/-- What the clients of an allocator rely on. -/
structure Managed (alloc : Allocator) (live : List ℕ) (objectSize count : ℕ) : Prop where
  disjoint : live.Pairwise fun p q => p + objectSize ≤ q ∨ q + objectSize ≤ p
  inside : ∀ p ∈ live, alloc.poolBase ≤ p ∧ (p - alloc.poolBase) % 16 = 0 ∧
    p + objectSize ≤ alloc.poolEnd
  bit : ∀ i < count, isBitSet alloc.bitmap i ↔ alloc.object i ∈ live
  allocated : alloc.allocatedCount = live.length
  available : alloc.allocatedCount + alloc.availableCount = count
  /-- `kalloc` panics iff all objects are live, and then with "unavailable". -/
  kalloc : (∃ e s, kalloc alloc = .error e s) ↔ live.length = count
  kalloc_panic : ∀ e s, Objects.kalloc alloc = .error e s → e = .unavailable
  kfree : ∀ p ∈ live, ∃ s, kfree p alloc = .ok () s

theorem Consistent.managed (h : Consistent alloc live) (hs : Shape alloc) :
    Managed alloc live alloc.objectSize alloc.maxCount := by
  have hk := wp_kalloc h hs
  refine ⟨?_, fun p hp => ?_, h.bit, h.allocated, h.available, ⟨fun ⟨e, s, he⟩ => ?_, fun hl => ?_⟩,
    fun e s he => ?_, fun p hp => ?_⟩
  · refine (List.nodup_iff_pairwise_ne.mp h.nodup).imp_of_mem fun {p q} hp hq hne => ?_
    obtain ⟨i, -, rfl⟩ := h.object p hp
    obtain ⟨j, -, rfl⟩ := h.object q hq
    rcases Nat.lt_trichotomy i j with hij | rfl | hij
    · exact Or.inl (hs.apart hij)
    · exact absurd rfl hne
    · exact Or.inr (hs.apart hij)
  · obtain ⟨i, hi, rfl⟩ := h.object p hp
    have h1 := hs.object_le hi
    have h2 := hs.size_le
    refine ⟨Nat.le_add_right _ _, ?_, by omega⟩
    unfold Allocator.object
    rw [Nat.add_sub_cancel_left, Nat.mul_mod, hs.aligned, Nat.mul_zero, Nat.zero_mod]
  · exact ((wp_of_eq_error he).mp hk).2
  · cases hx : Objects.kalloc alloc with
    | ok p s =>
      have := ((wp_of_eq_ok hx).mp hk).1
      omega
    | error e s => exact ⟨e, s, rfl⟩
  · exact ((wp_of_eq_error he).mp hk).1
  · obtain ⟨_, s, hx, -⟩ := wpOk_iff.mp (wp_kfree h hs hp)
    exact ⟨s, hx⟩

/-- **The object allocator is sound**: in every run from `allocator_init`, for an object size from
one on and a pool that fits. -/
theorem objects_managed {mappedVa pages objectSize count next : ℕ} {alloc₀ : Allocator}
    (hsize : 0 < objectSize) (hfit : Fits mappedVa objectSize count)
    (hinit : allocatorInit mappedVa pages objectSize count = .ok (alloc₀, next))
    (hrun : Relation.ReflTransGen Step (alloc₀, []) (alloc, live)) :
    Managed alloc live objectSize count := by
  have key : ∀ c, Relation.ReflTransGen Step (alloc₀, []) c → Consistent c.1 c.2 ∧ Shape c.1 ∧
      c.1.objectSize = objectSize ∧ c.1.maxCount = count := by
    intro c hc
    induction hc with
    | refl => exact allocatorInit_ok hsize hfit hinit
    | tail _ hstep ih =>
      obtain ⟨h1, h2, h3, h4⟩ := hstep.consistent ih.1 ih.2.1
      exact ⟨h1, h2, h3.trans ih.2.2.1, h4.trans ih.2.2.2⟩
  obtain ⟨h1, h2, h3, h4⟩ := key _ hrun
  change alloc.objectSize = objectSize at h3
  change alloc.maxCount = count at h4
  rw [← h3, ← h4]
  exact h1.managed h2

/-- Two objects of 24 bytes, one of them freed. -/
theorem objects_managed_sample : ∃ a : Allocator, Managed a [KERNEL_ALLOCATOR_BASE + 32] 24 3 :=
  ⟨_, objects_managed (by decide) (by decide : Fits KERNEL_ALLOCATOR_BASE 24 3)
    (rfl : allocatorInit KERNEL_ALLOCATOR_BASE 2 24 3 = _)
    (((Relation.ReflTransGen.refl.tail (.kalloc rfl)).tail (.kalloc rfl)).tail
      (.kfree (p := KERNEL_ALLOCATOR_BASE) (by decide) rfl))⟩

/-- **Sizes that do not fit**: with an object size of zero, and with one whose multiple wraps around, the
object that `kalloc` returns is outside of the pool and cannot be freed. -/
theorem unfit_object_size :
    (∃ a a' n p e s, allocatorInit KERNEL_ALLOCATOR_BASE 1 0 1 = .ok (a, n) ∧
      kalloc a = .ok p a' ∧ ¬ p < a'.poolEnd ∧ kfree p a' = .error e s) ∧
    ∃ a a' n p e s, allocatorInit KERNEL_ALLOCATOR_BASE 1 (2 ^ 63) 2 = .ok (a, n) ∧
      kalloc a = .ok p a' ∧ ¬ p < a'.poolEnd ∧ kfree p a' = .error e s :=
  ⟨⟨_, _, _, _, _, _, rfl, rfl, by decide, rfl⟩, ⟨_, _, _, _, _, _, rfl, rfl, by decide, rfl⟩⟩

end UCore.Mem.Objects

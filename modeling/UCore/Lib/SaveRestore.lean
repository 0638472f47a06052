import Mathlib.Logic.Function.Basic
import UCore.Lib.Bytes

/-! # Save and restore

The part of a RISC-V hart that trap entries and exits are written for: the registers, the registers
of the supervisor that they use, and byte memory behind an address translation `T`. Code is a list of
instructions without branches, so of the `pc` only the transfers at the end of a list count.

An area (`Slots`) is a range of `n` virtual words that stays mapped to the physical words `pa k`
whatever the area itself holds. The two rules are about lists of stores and loads of any length:
saving the registers `rs` to the slots `slot r` (`exec_saves`) and loading them (`exec_loads`). -/

namespace UCore.Lib.SaveRestore

open UCore.Lib.Bytes

abbrev Word := BitVec 64
abbrev Reg := Fin 32

instance instNeZeroReg : NeZero 32 := ⟨by decide⟩

inductive Csr
  | sstatus
  | stvec
  | sscratch
  | sepc
  | satp
  deriving DecidableEq

structure Hart where
  x : Reg → Word
  csr : Csr → Word
  pc : Word
  /-- User mode, and not supervisor mode. -/
  user : Bool
  mem : Mem

/-- The translation of the data accesses of the supervisor: by `satp` and the memory, from a virtual
address to a physical one, if a load (`false`) or a store (`true`) of it is let through. -/
abbrev Mmu := Word → Mem → Word → Bool → Option ℕ

/-- The bit of `sstatus` that says where a trap came from. -/
def SSTATUS_SPP : Word := 1#64 <<< 8

namespace Hart

/-- Register `0` reads as zero. -/
def get (h : Hart) (r : Reg) : Word := if r = 0 then 0 else h.x r

def set (h : Hart) (r : Reg) (v : Word) : Hart := { h with x := Function.update h.x r v }

def setCsr (h : Hart) (c : Csr) (v : Word) : Hart := { h with csr := Function.update h.csr c v }

/-- What the hardware does on a trap, as far as the code looks at it. -/
def trap (h : Hart) : Hart :=
  let sstatus := h.csr .sstatus
  { (h.setCsr .sepc h.pc).setCsr .sstatus
      (if h.user then sstatus &&& ~~~SSTATUS_SPP else sstatus ||| SSTATUS_SPP) with
    pc := h.csr .stvec
    user := false }

@[simp] theorem get_zero (h : Hart) : h.get 0 = 0 := if_pos rfl
theorem get_of_ne {h : Hart} {r : Reg} (hr : r ≠ 0) : h.get r = h.x r := if_neg hr

@[simp] theorem setCsr_mem (h : Hart) (c : Csr) (v : Word) : (h.setCsr c v).mem = h.mem := rfl

theorem setCsr_csr_self (h : Hart) (c : Csr) (v : Word) : (h.setCsr c v).csr c = v :=
  Function.update_self ..

theorem setCsr_csr_of_ne (h : Hart) {c d : Csr} (hd : d ≠ c) (v : Word) :
    (h.setCsr c v).csr d = h.csr d := Function.update_of_ne hd ..

theorem get_set_self (h : Hart) {r : Reg} (hr : r ≠ 0) (v : Word) : (h.set r v).get r = v :=
  (get_of_ne hr).trans (Function.update_self ..)

theorem get_set_of_ne (h : Hart) {r q : Reg} (hq : q ≠ r) (v : Word) :
    (h.set r v).get q = h.get q := by
  unfold get
  rw [show (h.set r v).x q = h.x q from Function.update_of_ne hq ..]

end Hart

/-! ### Code -/

/-- The word at a physical address. -/
def readWord (m : Mem) (pa : ℕ) : Word := BitVec.ofNat 64 (load m pa 8)

def writeWord (m : Mem) (pa : ℕ) (w : Word) : Mem := store m pa 8 w.toNat

inductive Instr
  | sd (src : Reg) (off : ℕ) (base : Reg)
  | ld (dst : Reg) (off : ℕ) (base : Reg)
  | addi (dst src : Reg) (imm : Word)
  | csrr (dst : Reg) (c : Csr)
  | csrw (c : Csr) (src : Reg)
  | csrrw (dst : Reg) (c : Csr) (src : Reg)
  | sfenceVma
  | jr (src : Reg)
  | sret

/-- The physical address of an access to the word at `off(base)`. -/
def access (T : Mmu) (h : Hart) (off : ℕ) (base : Reg) (st : Bool) : Option ℕ :=
  let va := h.get base + BitVec.ofNat 64 off
  if va.toNat % 8 = 0 then T (h.csr .satp) h.mem va st else none

/-- One instruction; `none` is a trap. -/
def Instr.exec (T : Mmu) (h : Hart) : Instr → Option Hart
  | .sd src off base =>
    (access T h off base true).map fun pa => { h with mem := writeWord h.mem pa (h.get src) }
  | .ld dst off base => (access T h off base false).map fun pa => h.set dst (readWord h.mem pa)
  | .addi dst src imm => some (h.set dst (h.get src + imm))
  | .csrr dst c => some (h.set dst (h.csr c))
  | .csrw c src => some (h.setCsr c (h.get src))
  | .csrrw dst c src => some ((h.setCsr c (h.get src)).set dst (h.csr c))
  | .sfenceVma => some h
  | .jr src => some { h with pc := h.get src }
  | .sret => some { h with pc := h.csr .sepc, user := decide (h.csr .sstatus &&& SSTATUS_SPP = 0) }

def exec (T : Mmu) : List Instr → Hart → Option Hart
  | [], h => some h
  | i :: is, h => (i.exec T h).bind (exec T is)

/-- Stores of the registers `rs` to their slots. -/
def saves (base : Reg) (slot : Reg → ℕ) (rs : List Reg) : List Instr :=
  rs.map fun r => .sd r (8 * slot r) base

/-- Loads of the registers `rs` from their slots. -/
def loads (base : Reg) (slot : Reg → ℕ) (rs : List Reg) : List Instr :=
  rs.map fun r => .ld r (8 * slot r) base

variable {T : Mmu} {h h' : Hart} {satp va : Word} {m m' m'' : Mem} {n : ℕ} {pa : ℕ → ℕ}
  {base : Reg} {slot : Reg → ℕ}

theorem exec_append (is js : List Instr) (h : Hart) :
    exec T (is ++ js) h = (exec T is h).bind (exec T js) := by
  induction is generalizing h with
  | nil => rfl
  | cons i is ih =>
    rw [List.cons_append, exec, exec]
    cases i.exec T h with
    | none => rfl
    | some h' => exact ih h'

/-- One list after another. -/
theorem exec_seq {is js : List Instr} {h₁ h₂ : Hart} (h1 : exec T is h = some h₁)
    (h2 : exec T js h₁ = some h₂) : exec T (is ++ js) h = some h₂ := by
  rw [exec_append, h1]
  exact h2

/-! ### Areas -/

/-- From `m` to `m'` only the words `pa k` may have changed. -/
def Within (n : ℕ) (pa : ℕ → ℕ) (m m' : Mem) : Prop :=
  ∀ x, (∀ k < n, ¬ (pa k ≤ x ∧ x < pa k + 8)) → m' x = m x

theorem Within.refl (n : ℕ) (pa : ℕ → ℕ) (m : Mem) : Within n pa m m := fun _ _ => rfl

theorem Within.trans (h : Within n pa m m') (h' : Within n pa m' m'') : Within n pa m m'' :=
  fun x hx => (h' x hx).trans (h x hx)

/-- The words from `va` on are mapped to the words `pa k` for loads and stores, and stay so whatever
is stored to them. -/
structure Slots (T : Mmu) (satp : Word) (m : Mem) (va : Word) (n : ℕ) (pa : ℕ → ℕ) : Prop where
  aligned : ∀ k < n, (va + BitVec.ofNat 64 (8 * k)).toNat % 8 = 0
  apart : ∀ j < n, ∀ k < n, j ≠ k → pa j + 8 ≤ pa k ∨ pa k + 8 ≤ pa j
  mapped : ∀ m', Within n pa m m' → ∀ k < n, ∀ st,
    T satp m' (va + BitVec.ofNat 64 (8 * k)) st = some (pa k)

theorem Slots.within (h : Slots T satp m va n pa) (hw : Within n pa m m') :
    Slots T satp m' va n pa :=
  ⟨h.aligned, h.apart, fun m'' hm => h.mapped m'' (hw.trans hm)⟩

theorem Slots.access_eq (hs : Slots T (h.csr .satp) h.mem (h.get base) n pa) {k : ℕ} (hk : k < n)
    (st : Bool) : access T h (8 * k) base st = some (pa k) := by
  unfold access
  rw [if_pos (hs.aligned k hk)]
  exact hs.mapped h.mem (Within.refl n pa h.mem) k hk st

theorem readWord_writeWord (m : Mem) (a : ℕ) (w : Word) : readWord (writeWord m a w) a = w := by
  have hw : w.toNat % 256 ^ 8 = w.toNat := Nat.mod_eq_of_lt (by have := w.isLt; norm_num; omega)
  unfold readWord writeWord
  rw [load_store, hw]
  exact BitVec.eq_of_toNat_eq (by simp)

theorem readWord_writeWord_of_apart {a b : ℕ} {w : Word} (hab : a + 8 ≤ b ∨ b + 8 ≤ a) :
    readWord (writeWord m a w) b = readWord m b := by
  unfold readWord writeWord
  rw [load_store_of_disjoint (by omega)]

theorem within_writeWord {k : ℕ} (hk : k < n) (w : Word) : Within n pa m (writeWord m (pa k) w) :=
  fun x hx => by
    unfold writeWord store
    exact blit_of_not_mem (hx k hk)

/-! ### The two rules -/

/-- What saving the registers `rs` leaves in memory. -/
structure Saved (n : ℕ) (pa : ℕ → ℕ) (slot : Reg → ℕ) (rs : List Reg) (h : Hart) (m : Mem) : Prop where
  within : Within n pa h.mem m
  saved : ∀ r ∈ rs, readWord m (pa (slot r)) = h.get r
  rest : ∀ k < n, k ∉ rs.map slot → readWord m (pa k) = readWord h.mem (pa k)

/-- **Saving registers** stores each in its slot, and nothing else. -/
theorem exec_saves (slot : Reg → ℕ) (rs : List Reg) (hs : Slots T (h.csr .satp) h.mem (h.get base) n pa)
    (hslot : ∀ r ∈ rs, slot r < n) (hnd : (rs.map slot).Nodup) :
    ∃ m', exec T (saves base slot rs) h = some { h with mem := m' } ∧ Saved n pa slot rs h m' := by
  induction rs generalizing h with
  | nil => exact ⟨h.mem, rfl, Within.refl n pa h.mem, by simp, fun _ _ _ => rfl⟩
  | cons r rs ih =>
    have hr := hslot r (by simp)
    rw [List.map_cons, List.nodup_cons] at hnd
    let h₁ : Hart := { h with mem := writeWord h.mem (pa (slot r)) (h.get r) }
    have hw : Within n pa h.mem h₁.mem := within_writeWord hr (h.get r)
    have hs₁ : Slots T (h₁.csr .satp) h₁.mem (h₁.get base) n pa := hs.within hw
    obtain ⟨m', hx, hm⟩ := ih hs₁ (fun q hq => hslot q (by simp [hq])) hnd.2
    refine ⟨m', ?_, hw.trans hm.within, fun q hq => ?_, fun k hk hkn => ?_⟩
    · rw [saves, List.map_cons, exec, Instr.exec, hs.access_eq hr]
      exact hx
    · rcases List.mem_cons.mp hq with rfl | hq
      · rw [hm.rest _ hr hnd.1]
        exact readWord_writeWord h.mem _ _
      · exact hm.saved q hq
    · rw [List.map_cons, List.mem_cons, not_or] at hkn
      rw [hm.rest k hk hkn.2]
      exact readWord_writeWord_of_apart (hs.apart _ hr k hk (Ne.symm hkn.1))

/-- The hart after the registers `rs` were loaded. -/
def Hart.loaded (h : Hart) (pa : ℕ → ℕ) (slot : Reg → ℕ) (rs : List Reg) : Hart :=
  { h with x := fun r => if r ∈ rs then readWord h.mem (pa (slot r)) else h.x r }

theorem Hart.loaded_get {rs : List Reg} {r : Reg} (hr : r ≠ 0) (hm : r ∈ rs) :
    (h.loaded pa slot rs).get r = readWord h.mem (pa (slot r)) := by
  rw [get_of_ne hr]
  exact if_pos hm

theorem Hart.loaded_get_of_not_mem {rs : List Reg} {r : Reg} (hm : r ∉ rs) :
    (h.loaded pa slot rs).get r = h.get r := by
  unfold get
  rw [show (h.loaded pa slot rs).x r = h.x r from if_neg hm]

/-- **Loading registers** gives each the word of its slot. The base may be among them if its slot
holds it. -/
theorem exec_loads (slot : Reg → ℕ) (rs : List Reg) (hs : Slots T (h.csr .satp) h.mem (h.get base) n pa)
    (hslot : ∀ r ∈ rs, slot r < n)
    (hbase : base ∈ rs → readWord h.mem (pa (slot base)) = h.get base) :
    exec T (loads base slot rs) h = some (h.loaded pa slot rs) := by
  induction rs generalizing h with
  | nil => simp [loads, exec, Hart.loaded]
  | cons r rs ih =>
    let h₁ : Hart := h.set r (readWord h.mem (pa (slot r)))
    have hb : h₁.get base = h.get base := by
      by_cases h0 : base = 0
      · rw [h0, Hart.get_zero, Hart.get_zero]
      by_cases hr : base = r
      · subst hr
        exact (h.get_set_self h0 _).trans (hbase (by simp))
      · exact h.get_set_of_ne hr _
    have hs₁ : Slots T (h₁.csr .satp) h₁.mem (h₁.get base) n pa := by
      rw [hb]
      exact hs
    have hx := ih hs₁ (fun q hq => hslot q (by simp [hq])) fun hm => by
      rw [hb]
      exact hbase (by simp [hm])
    rw [loads, List.map_cons, exec, Instr.exec, hs.access_eq (hslot r (by simp))]
    refine hx.trans (congrArg some ?_)
    unfold Hart.loaded
    have hreg : (fun q => if q ∈ rs then readWord h₁.mem (pa (slot q)) else h₁.x q) =
        fun q => if q ∈ r :: rs then readWord h.mem (pa (slot q)) else h.x q := by
      funext q
      by_cases hq : q ∈ rs
      · rw [if_pos hq, if_pos (by simp [hq])]
        rfl
      · by_cases hqr : q = r
        · subst hqr
          rw [if_neg hq, if_pos (by simp)]
          exact Function.update_self ..
        · rw [if_neg hq, if_neg (by simp [hq, hqr])]
          exact Function.update_of_ne hqr ..
    rw [hreg]
    rfl

end UCore.Lib.SaveRestore

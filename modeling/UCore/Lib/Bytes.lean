import Mathlib.Data.Nat.Bitwise
import Mathlib.Tactic.Ring

/-! # Byte memories

A memory is a function from addresses to bytes. Every bulk operation is a `blit`: the bytes of a
range are replaced by those of a function of the offset. `fill` (one byte), `copyIn` (from another
range of the same memory) and `store` (a little-endian number) are blits; `load` reads a
little-endian number back. `SameOff D m m'` says that only the pages starting at a member of `D`
may have changed. -/

namespace UCore.Lib.Bytes

/-- A byte-addressed memory. -/
abbrev Mem := ℕ → UInt8

/-- The bytes of `[a, a + n)` replaced by `f 0, …, f (n - 1)`. -/
def blit (m : Mem) (a n : ℕ) (f : ℕ → UInt8) : Mem :=
  fun x => if a ≤ x ∧ x < a + n then f (x - a) else m x

/-- The bytes of `[a, a + n)` replaced by `c`. -/
def fill (m : Mem) (a n : ℕ) (c : UInt8) : Mem := blit m a n fun _ => c

/-- The bytes of `[d, d + n)` replaced by those of `[a, a + n)`, all read before any is written. -/
def copyIn (m : Mem) (d a n : ℕ) : Mem := blit m d n fun k => m (a + k)

/-- The number spelled by the `n` bytes at `a`, least significant first. -/
def load (m : Mem) (a : ℕ) : ℕ → ℕ
  | 0 => 0
  | n + 1 => (m a).toNat + 256 * load m (a + 1) n

/-- The `n` bytes at `a` replaced by those of `v`, least significant first. -/
def store (m : Mem) (a n v : ℕ) : Mem := blit m a n fun k => UInt8.ofNat (v / 256 ^ k)

theorem blit_of_mem {m : Mem} {a n x : ℕ} {f : ℕ → UInt8} (h1 : a ≤ x) (h2 : x < a + n) :
    blit m a n f x = f (x - a) := if_pos ⟨h1, h2⟩

theorem blit_of_not_mem {m : Mem} {a n x : ℕ} {f : ℕ → UInt8} (h : ¬ (a ≤ x ∧ x < a + n)) :
    blit m a n f x = m x := if_neg h

@[simp] theorem blit_zero (m : Mem) (a : ℕ) (f : ℕ → UInt8) : blit m a 0 f = m := by
  funext x; exact blit_of_not_mem (by omega)

/-! ### Numbers -/

theorem load_lt (m : Mem) : ∀ (n a : ℕ), load m a n < 256 ^ n
  | 0, _ => by simp [load]
  | n + 1, a => by
    have h1 := load_lt m n (a + 1)
    have h2 := (m a).toNat_lt
    rw [load, pow_succ]
    omega

/-- A load in two parts. -/
theorem load_add (m : Mem) (n : ℕ) : ∀ (k a : ℕ),
    load m a (k + n) = load m a k + 256 ^ k * load m (a + k) n
  | 0, a => by simp [load]
  | k + 1, a => by
    rw [show k + 1 + n = k + n + 1 by ring, load, load, load_add m n k (a + 1),
      show a + (k + 1) = a + 1 + k by ring]
    ring

/-- A load depends only on the bytes it reads. -/
theorem load_congr {m m' : Mem} : ∀ (n a : ℕ), (∀ x, a ≤ x → x < a + n → m' x = m x) →
    load m' a n = load m a n
  | 0, _, _ => rfl
  | n + 1, a, h => by
    rw [load, load, h a le_rfl (by omega),
      load_congr n (a + 1) fun x h1 h2 => h x (by omega) (by omega)]

theorem load_blit_of_disjoint {m : Mem} {a n b k : ℕ} {f : ℕ → UInt8}
    (h : b + k ≤ a ∨ a + n ≤ b) : load (blit m a n f) b k = load m b k :=
  load_congr k b fun _ h1 h2 => blit_of_not_mem (by omega)

theorem load_store_of_disjoint {m : Mem} {a n v b k : ℕ} (h : b + k ≤ a ∨ a + n ≤ b) :
    load (store m a n v) b k = load m b k := load_blit_of_disjoint h

theorem load_store_aux {m : Mem} (v : ℕ) : ∀ (n a : ℕ),
    (∀ k < n, m (a + k) = UInt8.ofNat (v / 256 ^ k)) → load m a n = v % 256 ^ n
  | 0, _, _ => by simp [load, Nat.mod_one]
  | n + 1, a, h => by
    have h0 := h 0 (by omega)
    have hrest : load m (a + 1) n = v / 256 % 256 ^ n := by
      refine load_store_aux (v / 256) n (a + 1) fun k hk => ?_
      have := h (k + 1) (by omega)
      rw [show a + 1 + k = a + (k + 1) by ring, this, Nat.div_div_eq_div_mul, pow_succ']
    rw [load, hrest]
    simp only [Nat.add_zero, pow_zero, Nat.div_one] at h0
    have hmod : v % 256 ^ (n + 1) = v % 256 + 256 * (v / 256 % 256 ^ n) := by
      rw [pow_succ' 256 n, Nat.mod_mul]
    rw [h0, hmod, UInt8.toNat_ofNat']

/-- **A number stored is the number loaded**, up to the width. -/
theorem load_store (m : Mem) (a n v : ℕ) : load (store m a n v) a n = v % 256 ^ n :=
  load_store_aux v n a fun k hk => by
    rw [store, blit_of_mem (by omega) (by omega), Nat.add_sub_cancel_left]

theorem load_fill_zero {m : Mem} {a n : ℕ} : ∀ (k b : ℕ), a ≤ b → b + k ≤ a + n →
    load (fill m a n 0) b k = 0
  | 0, _, _, _ => rfl
  | k + 1, b, h1, h2 => by
    rw [load, load_fill_zero k (b + 1) (by omega) (by omega), fill,
      blit_of_mem (by omega) (by omega)]
    rfl

/-! ### Pages -/

/-- The address `x` lies in the page that starts at `f`. -/
def InPage (f x : ℕ) : Prop := f ≤ x ∧ x < f + 4096

instance (f x : ℕ) : Decidable (InPage f x) := by unfold InPage; infer_instance

/-- Two page starts with a common address are equal. -/
theorem InPage.unique {f g x : ℕ} (hf : f % 4096 = 0) (hg : g % 4096 = 0) (h : InPage f x)
    (h' : InPage g x) : f = g := by
  unfold InPage at h h'; omega

/-- Only pages starting at a member of `D` differ. -/
def SameOff (D : Set ℕ) (m m' : Mem) : Prop := ∀ x, (∀ f ∈ D, ¬ InPage f x) → m' x = m x

theorem SameOff.refl (D : Set ℕ) (m : Mem) : SameOff D m m := fun _ _ => rfl

theorem SameOff.mono {D E : Set ℕ} {m m' : Mem} (h : SameOff D m m') (hE : D ⊆ E) :
    SameOff E m m' := fun x hx => h x fun f hf => hx f (hE hf)

theorem SameOff.trans {D : Set ℕ} {m m' m'' : Mem} (h : SameOff D m m') (h' : SameOff D m' m'') :
    SameOff D m m'' := fun x hx => (h' x hx).trans (h x hx)

/-- A blit inside one page changes only that page. -/
theorem sameOff_blit {D : Set ℕ} {m : Mem} {a n g : ℕ} {f : ℕ → UInt8} (hg : g ∈ D) (h1 : g ≤ a)
    (h2 : a + n ≤ g + 4096) : SameOff D m (blit m a n f) := fun x hx =>
  blit_of_not_mem fun hx' => hx g hg ⟨by omega, by omega⟩

/-- A page that starts outside `D` is unchanged. -/
theorem SameOff.page {D : Set ℕ} {m m' : Mem} (h : SameOff D m m') (hD : ∀ g ∈ D, g % 4096 = 0)
    {f x : ℕ} (hf : f % 4096 = 0) (hfD : f ∉ D) (hx : InPage f x) : m' x = m x :=
  h x fun g hg hgx => hfD (by rw [hx.unique hf (hD g hg) hgx]; exact hg)

end UCore.Lib.Bytes

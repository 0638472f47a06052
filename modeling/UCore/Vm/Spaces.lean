import Mathlib.Data.Set.Insert
import UCore.Mem.State

/-! # Address spaces, abstractly

A `View` is what a family of address spaces `ι` looks like from outside: the list of free frames,
the frames the kernel holds for itself, whether the allocator ever found its list empty, the frame
of every page-table page by its path (`[]` is the root, paths have at most two indices), and the
page-table entry of every page number. An `Owner` is a use of a frame: the free list, the kernel's
hands, a page-table page, or the target of a leaf. In a good view (`View.Ok`) a frame has one owner,
and an entry that is not valid is `0`.

The operations move one frame each: `hang` puts a free frame into a tree, `hold` takes one out of
the list, `setPte` makes one the target of a leaf, `give` puts one back, `newRoot` and `dropRoot`
start and end an address space. Every one keeps `Ok`, by the same lemma (`Ok.move`). -/

namespace UCore.Vm.Spaces

open UCore.Riscv UCore.Mem.State

variable {ι : Type}

structure View (ι : Type) where
  free : List ℕ
  held : Set ℕ
  dry : Prop
  tbl : ι → List Idx → Option ℕ
  pte : ι → ℕ → ℕ

/-- A use of a frame. -/
inductive Owner (ι : Type)
  | free
  | held
  | table (i : ι) (p : List Idx)
  | leaf (i : ι) (v : ℕ)

/-- The path of the last page-table page that serves page number `v`. -/
def path (v : ℕ) : List Idx := [px 2 v, px 1 v]

theorem path_length (v : ℕ) : (path v).length ≤ 2 := le_rfl

theorem path_px0_inj {v w : ℕ} (hv : v < NVPN) (hw : w < NVPN) (h : path v = path w)
    (h0 : px 0 v = px 0 w) : v = w := by
  simp only [path, List.cons.injEq, and_true] at h
  exact px_inj hv hw h.1 h.2 h0

namespace View
variable (L : Layout) (A : View ι)

/-- The frame `f` has the use `o`. A leaf counts when its target is a frame of the allocator. -/
def Owns : Owner ι → ℕ → Prop
  | .free, f => f ∈ A.free
  | .held, f => f ∈ A.held ∧ L.Frame f
  | .table i p, f => p.length ≤ 2 ∧ A.tbl i p = some f
  | .leaf i v, f => v < NVPN ∧ Has (A.pte i v) PTE_V ∧ PTE2PA (A.pte i v) = f ∧ L.Frame f

/-- A good view: no frame has two uses. -/
structure Ok : Prop where
  nodup : A.free.Nodup
  frame : ∀ o f, A.Owns L o f → L.Frame f
  uniq : ∀ o o' f, A.Owns L o f → A.Owns L o' f → o = o'
  clear : ∀ i v, v < NVPN → ¬ Has (A.pte i v) PTE_V → A.pte i v = 0

variable {L A}

theorem Ok.frame_free (h : A.Ok L) {f : ℕ} (hf : f ∈ A.free) : L.Frame f := h.frame .free f hf

theorem Ok.frame_tbl (h : A.Ok L) {i : ι} {p : List Idx} {f : ℕ} (hp : p.length ≤ 2)
    (hf : A.tbl i p = some f) : L.Frame f := h.frame (.table i p) f ⟨hp, hf⟩

theorem Ok.tbl_inj (h : A.Ok L) {i j : ι} {p q : List Idx} {f : ℕ} (hp : p.length ≤ 2)
    (hq : q.length ≤ 2) (hi : A.tbl i p = some f) (hj : A.tbl j q = some f) : i = j ∧ p = q := by
  have := h.uniq (.table i p) (.table j q) f ⟨hp, hi⟩ ⟨hq, hj⟩
  injection this with h1 h2
  exact ⟨h1, h2⟩

theorem Ok.free_ne_tbl (h : A.Ok L) {i : ι} {p : List Idx} {f g : ℕ} (hp : p.length ≤ 2)
    (hf : f ∈ A.free) (hg : A.tbl i p = some g) : f ≠ g := by
  rintro rfl
  have := h.uniq .free (.table i p) f hf ⟨hp, hg⟩
  cases this

/-- **One frame moves.** If in the new view every use but `o₀` of `g` is an old use of another
frame, the new view is good. -/
theorem Ok.move {A' : View ι} (h : A.Ok L) {g : ℕ} {q : Owner ι} (hg : L.Frame g)
    (hmove : ∀ o f, A'.Owns L o f → (A.Owns L o f ∧ f ≠ g) ∨ (o = q ∧ f = g))
    (hnodup : A'.free.Nodup)
    (hclear : ∀ i v, v < NVPN → ¬ Has (A'.pte i v) PTE_V → A'.pte i v = 0) : A'.Ok L := by
  refine ⟨hnodup, fun o f ho => ?_, fun o o' f ho ho' => ?_, hclear⟩
  · rcases hmove o f ho with ⟨ho, -⟩ | ⟨-, rfl⟩
    · exact h.frame o f ho
    · exact hg
  · rcases hmove o f ho with ⟨ho, hne⟩ | ⟨he, hg⟩ <;>
      rcases hmove o' f ho' with ⟨ho', hne'⟩ | ⟨he', hg'⟩
    · exact h.uniq o o' f ho ho'
    · exact absurd hg' hne
    · exact absurd hg hne'
    · rw [he, he']

/-- Fewer uses. -/
theorem Ok.shrink {A' : View ι} (h : A.Ok L) (hsub : ∀ o f, A'.Owns L o f → A.Owns L o f)
    (hnodup : A'.free.Nodup)
    (hclear : ∀ i v, v < NVPN → ¬ Has (A'.pte i v) PTE_V → A'.pte i v = 0) : A'.Ok L :=
  ⟨hnodup, fun o f ho => h.frame o f (hsub o f ho),
    fun o o' f ho ho' => h.uniq o o' f (hsub o f ho) (hsub o' f ho'), hclear⟩

/-! ### Operations -/

variable (A)

/-- The free list without its first frame. -/
def take : View ι := { A with free := A.free.tail }

/-- The frame `f` goes back to the free list. -/
def give (f : ℕ) : View ι := { A with free := f :: A.free }

/-- The first free frame, `f`, is taken into the kernel's hands. -/
def hold (f : ℕ) : View ι := { A with free := A.free.tail, held := insert f A.held }

/-- The kernel lets go of the frame `f`. -/
def letGo (f : ℕ) : View ι := { A with held := A.held \ {f} }

/-- The allocator found its list empty. -/
def starve : View ι := { A with dry := True }

variable {A}

@[simp] theorem take_tbl : A.take.tbl = A.tbl := rfl
@[simp] theorem take_pte : A.take.pte = A.pte := rfl
@[simp] theorem take_free : A.take.free = A.free.tail := rfl
@[simp] theorem take_held : A.take.held = A.held := rfl
@[simp] theorem take_dry : A.take.dry = A.dry := rfl
@[simp] theorem give_tbl (f : ℕ) : (A.give f).tbl = A.tbl := rfl
@[simp] theorem give_pte (f : ℕ) : (A.give f).pte = A.pte := rfl
@[simp] theorem give_free (f : ℕ) : (A.give f).free = f :: A.free := rfl
@[simp] theorem give_held (f : ℕ) : (A.give f).held = A.held := rfl
@[simp] theorem give_dry (f : ℕ) : (A.give f).dry = A.dry := rfl
@[simp] theorem hold_tbl (f : ℕ) : (A.hold f).tbl = A.tbl := rfl
@[simp] theorem hold_pte (f : ℕ) : (A.hold f).pte = A.pte := rfl
@[simp] theorem hold_free (f : ℕ) : (A.hold f).free = A.free.tail := rfl
@[simp] theorem hold_held (f : ℕ) : (A.hold f).held = insert f A.held := rfl
@[simp] theorem hold_dry (f : ℕ) : (A.hold f).dry = A.dry := rfl
@[simp] theorem letGo_tbl (f : ℕ) : (A.letGo f).tbl = A.tbl := rfl
@[simp] theorem letGo_pte (f : ℕ) : (A.letGo f).pte = A.pte := rfl
@[simp] theorem letGo_free (f : ℕ) : (A.letGo f).free = A.free := rfl
@[simp] theorem letGo_held (f : ℕ) : (A.letGo f).held = A.held \ {f} := rfl
@[simp] theorem letGo_dry (f : ℕ) : (A.letGo f).dry = A.dry := rfl
@[simp] theorem starve_tbl : A.starve.tbl = A.tbl := rfl
@[simp] theorem starve_pte : A.starve.pte = A.pte := rfl
@[simp] theorem starve_free : A.starve.free = A.free := rfl
@[simp] theorem starve_held : A.starve.held = A.held := rfl
@[simp] theorem starve_dry : A.starve.dry := trivial

theorem Ok.starve (h : A.Ok L) : A.starve.Ok L :=
  h.shrink (fun o f ho => by cases o <;> exact ho) h.nodup h.clear

/-- Taking a free frame without using it. -/
theorem Ok.take (h : A.Ok L) : A.take.Ok L :=
  h.shrink (fun o f ho => by
    cases o with
    | free => exact List.mem_of_mem_tail ho
    | held => exact ho
    | table i p => exact ho
    | leaf i v => exact ho) (h.nodup.sublist (List.tail_sublist _)) h.clear

/-- A frame without a use goes to the free list. -/
theorem Ok.give (h : A.Ok L) {f : ℕ} (hf : L.Frame f) (hno : ∀ o, ¬ A.Owns L o f) :
    (A.give f).Ok L := by
  refine h.move (g := f) (q := .free) hf (fun o g ho => ?_)
    (List.nodup_cons.mpr ⟨hno .free, h.nodup⟩) h.clear
  have key : A.Owns L o g → (A.Owns L o g ∧ g ≠ f) ∨ (o = .free ∧ g = f) := fun hog =>
    Or.inl ⟨hog, fun he => hno o (he ▸ hog)⟩
  cases o with
  | free =>
    rcases List.mem_cons.mp ho with rfl | ho
    · exact Or.inr ⟨rfl, rfl⟩
    · exact key ho
  | held => exact key ho
  | table j q => exact key ho
  | leaf j w => exact key ho

/-- The first free frame goes into the kernel's hands. -/
theorem Ok.hold (h : A.Ok L) {f : ℕ} {fs : List ℕ} (hfree : A.free = f :: fs) :
    (A.hold f).Ok L := by
  have hf : f ∈ A.free := by rw [hfree]; simp
  have hnd := h.nodup
  rw [hfree, List.nodup_cons] at hnd
  refine h.move (g := f) (q := .held) (h.frame_free hf) (fun o g ho => ?_)
    (by rw [hold_free, hfree]; exact hnd.2) h.clear
  have key : A.Owns L o g → o ≠ .free → (A.Owns L o g ∧ g ≠ f) ∨ (o = .held ∧ g = f) := by
    intro hog hne
    refine Or.inl ⟨hog, ?_⟩
    rintro rfl
    exact hne (h.uniq o .free g hog hf)
  cases o with
  | free =>
    have hg : g ∈ A.free.tail := ho
    refine Or.inl ⟨List.mem_of_mem_tail hg, ?_⟩
    rintro rfl
    rw [hfree] at hg
    exact hnd.1 hg
  | held =>
    obtain ⟨hg, hF⟩ := ho
    rcases Set.mem_insert_iff.mp hg with rfl | hg
    · exact Or.inr ⟨rfl, rfl⟩
    · exact key ⟨hg, hF⟩ (by simp)
  | table j q => exact key ho (by simp)
  | leaf j w => exact key ho (by simp)

theorem Ok.letGo (h : A.Ok L) (f : ℕ) : (A.letGo f).Ok L :=
  h.shrink (fun o g ho => by
    cases o with
    | held => exact ⟨ho.1.1, ho.2⟩
    | free => exact ho
    | table i p => exact ho
    | leaf i v => exact ho) h.nodup h.clear

/-- A frame taken from the free list has no use. -/
theorem Ok.unowned_take (h : A.Ok L) {f : ℕ} {fs : List ℕ} (hfree : A.free = f :: fs) :
    ∀ o, ¬ A.take.Owns L o f := by
  have hf : f ∈ A.free := by rw [hfree]; simp
  have hnd := h.nodup
  rw [hfree, List.nodup_cons] at hnd
  intro o ho
  cases o with
  | free =>
    have : f ∈ A.free.tail := ho
    rw [hfree] at this
    exact hnd.1 this
  | held => cases h.uniq .free .held f hf ho
  | table i p => cases h.uniq .free (.table i p) f hf ho
  | leaf i v => cases h.uniq .free (.leaf i v) f hf ho

variable [DecidableEq ι]

/-- The function `f` changed at the pair `(i, k)`. -/
def set₂ {κ α : Type} [DecidableEq κ] (f : ι → κ → α) (i : ι) (k : κ) (a : α) : ι → κ → α :=
  fun j l => if j = i ∧ l = k then a else f j l

@[simp] theorem set₂_self {κ α : Type} [DecidableEq κ] (f : ι → κ → α) (i : ι) (k : κ) (a : α) :
    set₂ f i k a i k = a := if_pos ⟨rfl, rfl⟩

theorem set₂_of_ne {κ α : Type} [DecidableEq κ] {f : ι → κ → α} {i j : ι} {k l : κ} {a : α}
    (h : ¬ (j = i ∧ l = k)) : set₂ f i k a j l = f j l := if_neg h

variable (A)

/-- The first free frame, `f`, becomes the page-table page at path `p` of `i`. -/
def hang (i : ι) (p : List Idx) (f : ℕ) : View ι :=
  { A with free := A.free.tail, tbl := set₂ A.tbl i p (some f) }

/-- The entry of page number `v` set to `e`. -/
def setPte (i : ι) (v e : ℕ) : View ι := { A with pte := set₂ A.pte i v e }

/-- The address space `i` starts with the root page-table page `f`. -/
def newRoot (i : ι) (f : ℕ) : View ι :=
  { A with
    tbl := fun j p => if j = i then if p = [] then some f else none else A.tbl j p
    pte := fun j v => if j = i then 0 else A.pte j v }

/-- The address space `i` ends; its page-table pages are forgotten. -/
def dropRoot (i : ι) : View ι :=
  { A with
    tbl := fun j p => if j = i then none else A.tbl j p
    pte := fun j v => if j = i then 0 else A.pte j v }

variable {A}

@[simp] theorem hang_free (i : ι) (p : List Idx) (f : ℕ) : (A.hang i p f).free = A.free.tail := rfl
@[simp] theorem hang_pte (i : ι) (p : List Idx) (f : ℕ) : (A.hang i p f).pte = A.pte := rfl
@[simp] theorem hang_held (i : ι) (p : List Idx) (f : ℕ) : (A.hang i p f).held = A.held := rfl
@[simp] theorem hang_dry (i : ι) (p : List Idx) (f : ℕ) : (A.hang i p f).dry = A.dry := rfl
@[simp] theorem hang_tbl_self (i : ι) (p : List Idx) (f : ℕ) :
    (A.hang i p f).tbl i p = some f := set₂_self ..

theorem hang_tbl_of_ne {i j : ι} {p q : List Idx} {f : ℕ} (h : ¬ (j = i ∧ q = p)) :
    (A.hang i p f).tbl j q = A.tbl j q := set₂_of_ne h

@[simp] theorem setPte_held (i : ι) (v e : ℕ) : (A.setPte i v e).held = A.held := rfl
@[simp] theorem setPte_dry (i : ι) (v e : ℕ) : (A.setPte i v e).dry = A.dry := rfl
@[simp] theorem setPte_free (i : ι) (v e : ℕ) : (A.setPte i v e).free = A.free := rfl
@[simp] theorem setPte_tbl (i : ι) (v e : ℕ) : (A.setPte i v e).tbl = A.tbl := rfl
@[simp] theorem setPte_pte_self (i : ι) (v e : ℕ) : (A.setPte i v e).pte i v = e := set₂_self ..

theorem setPte_pte_of_ne {i j : ι} {v w e : ℕ} (h : ¬ (j = i ∧ w = v)) :
    (A.setPte i v e).pte j w = A.pte j w := set₂_of_ne h

/-- A new page-table page. -/
theorem Ok.hang (h : A.Ok L) {i : ι} {p : List Idx} (hp : p.length ≤ 2) {f : ℕ} {fs : List ℕ}
    (hfree : A.free = f :: fs) : (A.hang i p f).Ok L := by
  have hnd := h.nodup
  rw [hfree, List.nodup_cons] at hnd
  have hf : f ∈ A.free := by rw [hfree]; simp
  refine h.move (g := f) (q := .table i p) (h.frame_free hf) (fun o g ho => ?_)
    (by rw [hang_free, hfree]; exact hnd.2) h.clear
  have key : A.Owns L o g → o ≠ .free → (A.Owns L o g ∧ g ≠ f) ∨ (o = .table i p ∧ g = f) := by
    intro hog hne
    refine Or.inl ⟨hog, ?_⟩
    rintro rfl
    exact hne (h.uniq o .free g hog hf)
  cases o with
  | free =>
    have hg : g ∈ A.free.tail := ho
    refine Or.inl ⟨List.mem_of_mem_tail hg, ?_⟩
    rintro rfl
    rw [hfree] at hg
    exact hnd.1 hg
  | held => exact key ho (by simp)
  | table j q =>
    obtain ⟨hq, ho⟩ := ho
    by_cases hjq : j = i ∧ q = p
    · obtain ⟨rfl, rfl⟩ := hjq
      rw [hang_tbl_self, Option.some.injEq] at ho
      exact Or.inr ⟨rfl, ho.symm⟩
    · rw [hang_tbl_of_ne hjq] at ho
      exact key ⟨hq, ho⟩ (by simp)
  | leaf j w => exact key ho (by simp)

/-- An entry that does not point to a frame with another use. -/
theorem Ok.setPte (h : A.Ok L) {i : ι} {v e : ℕ} (hv : v < NVPN)
    (he : Has e PTE_V → L.Frame (PTE2PA e) →
      ∀ o, A.Owns L o (PTE2PA e) → o = .leaf i v)
    (hclear : ¬ Has e PTE_V → e = 0) : (A.setPte i v e).Ok L := by
  have hcl : ∀ j w, w < NVPN → ¬ Has ((A.setPte i v e).pte j w) PTE_V →
      (A.setPte i v e).pte j w = 0 := by
    intro j w hw hn
    by_cases hjw : j = i ∧ w = v
    · obtain ⟨rfl, rfl⟩ := hjw
      rw [setPte_pte_self] at hn ⊢
      exact hclear hn
    · rw [setPte_pte_of_ne hjw] at hn ⊢
      exact h.clear j w hw hn
  by_cases hval : Has e PTE_V ∧ L.Frame (PTE2PA e)
  · refine h.move (g := PTE2PA e) (q := .leaf i v) hval.2 (fun o g ho => ?_) h.nodup hcl
    have key : A.Owns L o g → o ≠ .leaf i v →
        (A.Owns L o g ∧ g ≠ PTE2PA e) ∨ (o = .leaf i v ∧ g = PTE2PA e) := by
      intro hog hne
      refine Or.inl ⟨hog, ?_⟩
      rintro rfl
      exact hne (he hval.1 hval.2 o hog)
    cases o with
    | free => exact key ho (by simp)
    | held => exact key ho (by simp)
    | table j q => exact key ho (by simp)
    | leaf j w =>
      obtain ⟨hw, hV, hpa, hF⟩ := ho
      by_cases hjw : j = i ∧ w = v
      · obtain ⟨rfl, rfl⟩ := hjw
        rw [setPte_pte_self] at hpa
        exact Or.inr ⟨rfl, hpa.symm⟩
      · rw [setPte_pte_of_ne hjw] at hV hpa
        exact key ⟨hw, hV, hpa, hF⟩ fun hc => hjw (by cases hc; exact ⟨rfl, rfl⟩)
  · refine h.shrink (fun o g ho => ?_) h.nodup hcl
    cases o with
    | free => exact ho
    | held => exact ho
    | table j q => exact ho
    | leaf j w =>
      obtain ⟨hw, hV, hpa, hF⟩ := ho
      by_cases hjw : j = i ∧ w = v
      · obtain ⟨rfl, rfl⟩ := hjw
        rw [setPte_pte_self] at hV hpa
        exact absurd ⟨hV, hpa ▸ hF⟩ hval
      · rw [setPte_pte_of_ne hjw] at hV hpa
        exact ⟨hw, hV, hpa, hF⟩

/-- A fresh address space. -/
theorem Ok.newRoot (h : A.Ok L) {i : ι} {f : ℕ} (hf : L.Frame f) (hno : ∀ o, ¬ A.Owns L o f) :
    (A.newRoot i f).Ok L := by
  refine h.move (g := f) (q := .table i []) hf (fun o g ho => ?_) h.nodup (fun j v hv hn => ?_)
  · have key : A.Owns L o g → (A.Owns L o g ∧ g ≠ f) ∨ (o = .table i [] ∧ g = f) := fun hog =>
      Or.inl ⟨hog, fun he => hno o (he ▸ hog)⟩
    cases o with
    | free => exact key ho
    | held => exact key ho
    | table j q =>
      obtain ⟨hq, ho⟩ := ho
      simp only [View.newRoot] at ho
      split_ifs at ho with hj hq'
      · subst hj hq'; cases ho; exact Or.inr ⟨rfl, rfl⟩
      · exact key ⟨hq, ho⟩
    | leaf j w =>
      obtain ⟨hw, hV, hpa, hF⟩ := ho
      simp only [View.newRoot] at hV hpa
      split_ifs at hV hpa with hj
      · exact absurd hV (not_has_zero _)
      · exact key ⟨hw, hV, hpa, hF⟩
  · simp only [View.newRoot] at hn ⊢
    split_ifs at hn ⊢ with hj
    · rfl
    · exact h.clear j v hv hn

theorem Ok.dropRoot (h : A.Ok L) (i : ι) : (A.dropRoot i).Ok L := by
  refine h.shrink (fun o g ho => ?_) h.nodup (fun j v hv hn => ?_)
  · cases o with
    | free => exact ho
    | held => exact ho
    | table j q =>
      obtain ⟨hq, ho⟩ := ho
      simp only [View.dropRoot] at ho
      split_ifs at ho with hj
      exact ⟨hq, ho⟩
    | leaf j w =>
      obtain ⟨hw, hV, hpa, hF⟩ := ho
      simp only [View.dropRoot] at hV hpa
      split_ifs at hV hpa with hj
      · exact absurd hV (not_has_zero _)
      · exact ⟨hw, hV, hpa, hF⟩
  · simp only [View.dropRoot] at hn ⊢
    split_ifs at hn ⊢ with hj
    · rfl
    · exact h.clear j v hv hn

end View

end UCore.Vm.Spaces

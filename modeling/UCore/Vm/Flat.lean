import UCore.Vm.Lives
import UCore.Vm.UserCopy

/-! # The memory that a process sees

`UserMem` is the memory of a process without page tables and frames: the permissions of each page,
and a byte for each address. `Shows m mm u` says that this is what the table of `mm` makes of the
memory `m`. In a good view it is `Sees`, and each thing that is done to the tables is an operation on
flat memories: new pages (`UserMem.map`), a store (`UserMem.write`), a copy, the end of all mappings.

`Stays` is the other half: what one process does leaves the pages of the others, and the trapframes,
as they are. -/

namespace UCore.Vm.Flat

open UCore.Lib.Bytes UCore.Lib.Hoare UCore.Riscv UCore.Mem.State UCore.Mem.Kalloc
open UCore.Vm.Spaces UCore.Vm.Tables UCore.Vm.Growth UCore.Vm.Walk UCore.Vm.Map UCore.Vm.Refine
open UCore.Vm.VmaList UCore.Vm.Count UCore.Vm.Fill UCore.Vm.Copy UCore.Vm.Process UCore.Vm.Family
open UCore.Vm.Uaccess UCore.Vm.UserCopy

/-! ### Flat memories -/

/-- The flags of each page that is mapped, by page number, and the bytes, by address. The bytes of a
page that is not mapped have no meaning. -/
structure UserMem where
  perm : ℕ → Option ℕ
  byte : ℕ → UInt8

namespace UserMem

/-- Nothing is mapped. -/
def empty : UserMem := ⟨fun _ => none, fun _ => 0⟩

/-- The pages of `vma` are mapped with the bytes `c`. -/
def map (u : UserMem) (vma : Vma) (c : ℕ → UInt8) : UserMem where
  perm v := if v ∈ vpns vma then some vma.pteFlags else u.perm v
  byte a := if a / 4096 ∈ vpns vma then c a else u.byte a

/-- The `n` bytes at `a` are those of `src`. -/
def write (u : UserMem) (a n : ℕ) (src : ℕ → UInt8) : UserMem :=
  { u with byte := blit u.byte a n src }

/-- How many of the `len` bytes at `a` come before a page that is not mapped. -/
def reach (u : UserMem) : ℕ → ℕ → ℕ
  | _, 0 => 0
  | a, len + 1 => if (u.perm (a / 4096)).isSome then u.reach (a + 1) len + 1 else 0

theorem write_zero (u : UserMem) (a : ℕ) (src : ℕ → UInt8) : u.write a 0 src = u := by
  unfold write
  rw [blit_zero]

theorem map_of_empty (u : UserMem) {vma : Vma} (h : vpns vma = []) (c : ℕ → UInt8) :
    u.map vma c = u := by
  unfold map
  simp [h]

end UserMem

/-- What the table of `mm` makes of the memory `m`. The flags of an entry are those of the page, up to
the accessed and dirty bits. -/
structure Shows (m : Mem) (mm : Mm) (u : UserMem) : Prop where
  mapped : ∀ v < NVPN, ∀ fl, u.perm v = some fl →
    UserPte (pteAt m mm v) ∧ SameAD (PTE_FLAGS (pteAt m mm v)) (fl ||| PTE_V)
  unmapped : ∀ v < NVPN, u.perm v = none → ¬ UserPte (pteAt m mm v)
  byte : ∀ a, a / 4096 < NVPN → Mapped m mm a → m (UserCopy.translate m mm a) = u.byte a

variable {L : Layout} {ι : Type} {s s₁ s' : KState} {A B C : View ι} {i j : ι} {mm : Mm}
  {u u' : UserMem}

/-! ### By views -/

/-- `Shows`, by the view. -/
structure Sees (L : Layout) (m : Mem) (A : View ι) (i : ι) (u : UserMem) : Prop where
  mapped : ∀ v fl, u.perm v = some fl →
    UserFrame L A i v (PTE2PA (A.pte i v)) ∧ SameAD (PTE_FLAGS (A.pte i v)) (fl ||| PTE_V)
  unmapped : ∀ v < NVPN, u.perm v = none → ¬ UserPte (A.pte i v)
  byte : ∀ v, (u.perm v).isSome → ∀ o < 4096,
    m (PTE2PA (A.pte i v) + o) = u.byte (4096 * v + o)

theorem Sees.frame (h : Sees L s.mem A i u) {v : ℕ} (hv : (u.perm v).isSome) :
    UserFrame L A i v (PTE2PA (A.pte i v)) := by
  obtain ⟨fl, hfl⟩ := Option.isSome_iff_exists.mp hv
  exact (h.mapped v fl hfl).1

theorem Sees.isSome_iff (h : Sees L s.mem A i u) {v : ℕ} (hv : v < NVPN) :
    (u.perm v).isSome ↔ UserPte (A.pte i v) := by
  constructor
  · exact fun hs => userPte_of_frame (h.frame hs)
  · intro hu
    by_contra hn
    rw [Bool.not_eq_true, Option.isSome_eq_false_iff, Option.isNone_iff_eq_none] at hn
    exact h.unmapped v hv hn hu

/-- Equal pages show equal memories. -/
theorem Sees.congr (h : Sees L s.mem A i u) (hperm : u'.perm = u.perm)
    (hbyte : ∀ a, (u.perm (a / 4096)).isSome → u'.byte a = u.byte a) : Sees L s.mem A i u' := by
  refine ⟨fun v fl hv => h.mapped v fl (by rw [← hperm]; exact hv),
    fun v hv hn => h.unmapped v hv (by rw [← hperm]; exact hn), fun v hv o ho => ?_⟩
  rw [hperm] at hv
  rw [h.byte v hv o ho, hbyte]
  rwa [show (4096 * v + o) / 4096 = v by omega]

/-! ### What stays -/

/-- What an owner keeps while the pages in `P` stay: these, and the frames in the kernel's hands. -/
def Kept (P : ι → ℕ → Prop) : Owner ι → Prop
  | .leaf j v => P j v
  | .held => True
  | _ => False

/-- From `m` with the view `A` to `m'` with `B`, the pages in `P` stay: the entries, up to the accessed
and dirty bits, and the bytes of the frames they lead to. So do the frames in the kernel's hands. -/
structure Stays (L : Layout) (P : ι → ℕ → Prop) (m : Mem) (A : View ι) (m' : Mem)
    (B : View ι) : Prop where
  root : ∀ j, (∀ v, P j v) → B.tbl j [] = A.tbl j []
  held : B.held = A.held
  pte : ∀ j v, P j v → SameAD (B.pte j v) (A.pte j v)
  byte : ∀ o f, Kept P o → A.Owns L o f → ∀ k < 4096, m' (f + k) = m (f + k)

/-- The pages that are not user memory of `i`: those of the others, and its trapframe. -/
def Foreign (i j : ι) (v : ℕ) : Prop := j ≠ i ∨ v = trapframeVpn

theorem SameAD.owns {v f : ℕ} (h : SameAD (B.pte j v) (A.pte j v))
    (hf : A.Owns L (.leaf j v) f) : B.Owns L (.leaf j v) f :=
  ⟨hf.1, h.has_V.mpr hf.2.1, h.target.trans hf.2.2.1, hf.2.2.2⟩

variable {P : ι → ℕ → Prop}

theorem Stays.owns {o : Owner ι} {f : ℕ} (h : Stays L P s.mem A s'.mem B) (ho : Kept P o)
    (hf : A.Owns L o f) : B.Owns L o f := by
  cases o with
  | leaf j v => exact SameAD.owns (h.pte j v ho) hf
  | held => exact ⟨h.held ▸ hf.1, hf.2⟩
  | free => exact ho.elim
  | table j p => exact ho.elim

theorem not_kernel_of_kept {o : Owner ι} {f : ℕ} (h : A.Ok L) (ho : Kept P o)
    (hf : A.Owns L o f) : f ∉ Kernel A := by
  rintro (hf' | ⟨j, p, hp, hf'⟩)
  · cases h.uniq o .free f hf hf'
    exact ho
  · cases h.uniq o (.table j p) f hf ⟨hp, hf'⟩
    exact ho

theorem Stays.refl (P : ι → ℕ → Prop) (m : Mem) (A : View ι) : Stays L P m A m A :=
  ⟨fun _ _ => rfl, rfl, fun _ _ _ => SameAD.refl _, fun _ _ _ _ _ _ => rfl⟩

theorem Stays.trans (h : Stays L P s.mem A s₁.mem B) (h' : Stays L P s₁.mem B s'.mem C) :
    Stays L P s.mem A s'.mem C := by
  refine ⟨fun j hj => (h'.root j hj).trans (h.root j hj), h'.held.trans h.held, fun j v hv =>
    (h'.pte j v hv).trans (h.pte j v hv), fun o f ho hf k hk => ?_⟩
  rw [h'.byte o f ho (h.owns ho hf) k hk, h.byte o f ho hf k hk]

theorem Stays.mono {Q : ι → ℕ → Prop} (h : Stays L P s.mem A s'.mem B)
    (hPQ : ∀ j v, Q j v → P j v) : Stays L Q s.mem A s'.mem B := by
  refine ⟨fun j hj => h.root j fun v => hPQ j v (hj v), h.held, fun j v hv => h.pte j v (hPQ j v hv),
    fun o f ho hf => h.byte o f ?_ hf⟩
  cases o with
  | leaf j v => exact hPQ j v ho
  | held => trivial
  | free => exact ho.elim
  | table j p => exact ho.elim

theorem Stays.userMm (h : Stays L P s.mem A s'.mem B) (hj : ∀ v, P j v) (hmm : UserMm L A j mm) :
    UserMm L B j mm := hmm.sameAD (h.root j hj) fun v => h.pte j v (hj v)

theorem PTE_FLAGS_sameAD {e e' : ℕ} (h : SameAD e e') : SameAD (PTE_FLAGS e) (PTE_FLAGS e') := by
  have h1 := congrArg PTE_FLAGS (show e ||| PTE_AD = e' ||| PTE_AD from h)
  rw [PTE_FLAGS_or, PTE_FLAGS_or] at h1
  exact h1

/-- **The memory of a process whose pages stay.** -/
theorem Stays.sees (h : Stays L P s.mem A s'.mem B) (hj : ∀ v, P j v) (hu : Sees L s.mem A j u) :
    Sees L s'.mem B j u := by
  refine ⟨fun v fl hv => ?_, fun v hv hn => ?_, fun v hv o ho => ?_⟩
  · have hp := h.pte j v (hj v)
    obtain ⟨hf, hfl⟩ := hu.mapped v fl hv
    exact ⟨⟨hf.lt, hp.has_V.mpr hf.valid, hp.has_U.mpr hf.user, rfl, hp.target ▸ hf.frame⟩,
      (PTE_FLAGS_sameAD hp).trans hfl⟩
  · have hp := h.pte j v (hj v)
    exact fun hc => hu.unmapped v hv hn ⟨hp.has_V.mp hc.1, hp.has_U.mp hc.2⟩
  · rw [(h.pte j v (hj v)).target, h.byte (.leaf j v) _ (hj v) (hu.frame hv).owns o ho,
      hu.byte v hv o ho]

/-- **A change of entries and of the kernel's own pages.** -/
theorem stays_of_kernel (hA : Reps L s A) (hB : Reps L s' B)
    (hroot : ∀ j, (∀ v, P j v) → B.tbl j [] = A.tbl j []) (hheld : B.held = A.held)
    (hpte : ∀ j v, P j v → SameAD (B.pte j v) (A.pte j v))
    (hm : SameOff (Kernel A ∪ Kernel B) s.mem s'.mem) : Stays L P s.mem A s'.mem B := by
  refine ⟨hroot, hheld, hpte, fun o f ho hf k hk => ?_⟩
  have hfB : B.Owns L o f := by
    cases o with
    | leaf j v => exact SameAD.owns (hpte j v ho) hf
    | held => exact ⟨hheld.symm ▸ hf.1, hf.2⟩
    | free => exact ho.elim
    | table j p => exact ho.elim
  refine hm.page (fun g hg => ?_) (hA.ok.frame o f hf).aligned (fun hc => ?_) ⟨by omega, by omega⟩
  · exact hg.elim (fun h => hA.kernel_aligned h) fun h => hB.kernel_aligned h
  · exact hc.elim (not_kernel_of_kept hA.ok ho hf) (not_kernel_of_kept hB.ok ho hfB)

theorem stays_of_grew (hA : Reps L s A) (hB : Reps L s' B) (hG : Grew A B i)
    (htf : Has (A.pte i trapframeVpn) PTE_V) (hm : SameOff (Kernel A) s.mem s'.mem) :
    Stays L (Foreign i) s.mem A s'.mem B := by
  refine stays_of_kernel hA hB (fun j _ => hG.root j) hG.held (fun j v hP => ?_)
    (hm.mono Set.subset_union_left)
  by_cases hji : j = i
  · subst hji
    rw [hP.resolve_left fun hc => hc rfl, hG.valid _ htf]
    exact SameAD.refl _
  · rw [hG.other j v hji]
    exact SameAD.refl _

/-- Bytes of user pages of one process. -/
theorem stays_of_user (hA : Reps L s A) (hmm : UserMm L A i mm)
    (hm : ∀ x, s'.mem x ≠ s.mem x → ∃ v f, UserFrame L A i v f ∧ InPage f x) :
    Stays L (Foreign i) s.mem A s'.mem A := by
  refine ⟨fun _ _ => rfl, rfl, fun _ _ _ => SameAD.refl _, fun o f ho hf k hk => ?_⟩
  by_contra hne
  obtain ⟨w, g, hg, hx⟩ := hm _ hne
  have hfg : f = g := InPage.unique (hA.ok.frame o f hf).aligned hg.frame.aligned
    ⟨by omega, by omega⟩ hx
  subst hfg
  cases hA.ok.uniq o (.leaf i w) f hf hg.owns
  refine hmm.trapframe.1.2.1 ?_
  rw [← Or.resolve_left ho fun hc => hc rfl]
  exact hg.user

theorem wrote_user {va len : ℕ} (hw : Wrote L A i va len s s') (x : ℕ)
    (hx : s'.mem x ≠ s.mem x) : ∃ v f, UserFrame L A i v f ∧ InPage f x := by
  obtain ⟨k, -, f, hf, rfl⟩ := hw.only x hx
  exact ⟨_, f, hf, by omega, by omega⟩

/-- The address space `i` has the `mm` and shows `u`. -/
structure Space (L : Layout) (s : KState) (A : View ι) (i : ι) (mm : Mm) (u : UserMem) : Prop where
  reps : Reps L s A
  user : UserMm L A i mm
  sees : Sees L s.mem A i u

/-- From `m` with the view `A` to `s'` the address space `i` came to have the `mm` and show `u`, and the
rest stays. -/
def Turned (L : Layout) (i : ι) (m : Mem) (A : View ι) (s' : KState) (mm : Mm) (u : UserMem) : Prop :=
  ∃ B : View ι, Space L s' B i mm u ∧ Stays L (Foreign i) m A s'.mem B

theorem Space.turned (h : Space L s A i mm u) : Turned L i s.mem A s mm u :=
  ⟨A, h, Stays.refl _ s.mem A⟩

theorem Stays.turned {mm' : Mm} (h : Stays L (Foreign i) s.mem A s₁.mem B)
    (h' : Turned L i s₁.mem B s' mm' u') : Turned L i s.mem A s' mm' u' := by
  obtain ⟨C, hC, hs⟩ := h'
  exact ⟨C, hC, h.trans hs⟩

/-- The numbers of objects do not matter. -/
theorem Space.objs (h : Space L s A i mm u) (m n : ℕ) :
    Space L { s with mmObjs := m, vmaObjs := n } A i mm u :=
  ⟨Reps.objs h.reps m n, h.user, h.sees⟩

/-- A page below the trapframe that is not mapped has no valid entry. -/
theorem Space.not_valid (h : Space L s A i mm u) {v : ℕ} (hnone : u.perm v = none)
    (hlt : v < trapframeVpn) : ¬ Has (A.pte i v) PTE_V := by
  have hlt' : v < NVPN := by
    rw [NVPN_eq]
    unfold trapframeVpn at hlt
    omega
  intro hV
  rcases h.user.only v hlt' hV with hl | rfl | rfl
  · obtain ⟨-, hV, hU, -⟩ := h.user.listed.valid_leaf hl
    exact h.sees.unmapped v hlt' hnone ⟨hV, hU⟩
  · exact absurd hlt (by decide)
  · exact absurd hlt (lt_irrefl _)

/-! ### New pages -/

/-- The bits of the flags, when two permissions are those of one entry. -/
theorem sameAD_flags {e f g fl fl' : ℕ} (h : SameAD (PTE_FLAGS e) (fl ||| PTE_V))
    (h' : Maps e f fl') (hf : L.Frame f) (hg : L.Frame g) (hfl' : fl' < 1024) :
    SameAD (PTE_FLAGS (mkPte g fl')) (fl ||| PTE_V) := by
  rw [PTE_FLAGS_mkPte (by have := hg.lt; omega) hfl']
  exact (Maps.flags h' hf hfl').symm.trans h

/-- **Pages that are mapped and filled.** -/
theorem Sees.filled {vma : Vma} {c : ℕ → UInt8} (h : Sees L s.mem A i u) (hA : Reps L s A)
    (hvma : Vma.Valid vma) (hU : Has vma.pteFlags PTE_U) (hf : Filled L s s' A B i [(vma, c)]) :
    Sees L s'.mem B i (u.map vma c) := by
  have hin : ∀ v, v ∈ vpns vma → ∃ f, UserFrame L B i v f ∧ B.pte i v = mkPte f vma.pteFlags ∧
      ∀ o < 4096, s'.mem (f + o) = c (4096 * v + o) := fun v hv => by
    obtain ⟨-, f, hff, hpte, hb⟩ := hf.page (vma, c) (by simp) v hv
    exact ⟨f, userFrame_of_pte hvma hU hv (hA.ok.frame_free hff) hpte, hpte, hb⟩
  have hout : ∀ v, v ∉ vpns vma → B.pte i v = A.pte i v := fun v hv =>
    hf.other v (by simpa [listVpns] using hv)
  have hpage : ∀ v o, o < 4096 → (4096 * v + o) / 4096 = v := fun v o ho => by omega
  refine ⟨fun v fl hv => ?_, fun v hlt hn => ?_, fun v hv o ho => ?_⟩
  · change (if v ∈ vpns vma then some vma.pteFlags else u.perm v) = some fl at hv
    split_ifs at hv with hmem
    · cases hv
      obtain ⟨f, hfu, hpte, -⟩ := hin v hmem
      have hlt := hfu.frame.lt
      rw [hfu.target]
      refine ⟨hfu, ?_⟩
      rw [hpte, PTE_FLAGS_mkPte (by omega) hvma.flags]
      exact SameAD.refl _
    · obtain ⟨hfu, hfl⟩ := h.mapped v fl hv
      rw [hout v hmem]
      exact ⟨hfu.congr (hout v hmem), hfl⟩
  · change (if v ∈ vpns vma then some vma.pteFlags else u.perm v) = none at hn
    split_ifs at hn with hmem
    rw [hout v hmem]
    exact h.unmapped v hlt hn
  · change (if v ∈ vpns vma then some vma.pteFlags else u.perm v).isSome = true at hv
    change _ = if (4096 * v + o) / 4096 ∈ vpns vma then c (4096 * v + o) else u.byte (4096 * v + o)
    rw [hpage v o ho]
    split_ifs at hv ⊢ with hmem
    · obtain ⟨f, hfu, -, hb⟩ := hin v hmem
      rw [hfu.target, hb o ho]
    · rw [hout v hmem, (h.frame hv).same hA hf.mem ho, h.byte v hv o ho]

/-- **The copy of an address space in a new one.** -/
theorem Sees.copied {parent child : Mm} (h : Sees L s.mem A i u) (hp : UserMm L A i parent)
    (hc : UserMm L A j child) (hnil : child.vma = []) (hA : Reps L s A)
    (hcopy : Copied L s s' A B i j parent.vma) : Sees L s'.mem B j u := by
  have hin : ∀ v fl, u.perm v = some fl → ∃ f, UserFrame L B j v f ∧
      SameAD (PTE_FLAGS (B.pte j v)) (fl ||| PTE_V) ∧
      ∀ o < 4096, s'.mem (f + o) = u.byte (4096 * v + o) := by
    intro v fl hv
    obtain ⟨hfu, hfl⟩ := h.mapped v fl hv
    have hlt := hfu.lt
    obtain ⟨vma, hvma, hmem⟩ := mem_listVpns.mp
      (hp.covered (by rw [NVPN_eq]; omega) hfu.valid hfu.user)
    obtain ⟨hval, hU⟩ := hp.listed.valid vma hvma
    obtain ⟨g, hg, hmaps⟩ := hp.listed.leaf vma hvma v hmem
    obtain ⟨-, f, hff, hpte, hb⟩ := hcopy.page hvma hmem
    have hF := hA.ok.frame_free hff
    refine ⟨f, userFrame_of_pte hval hU hmem hF hpte, ?_, fun o ho => ?_⟩
    · rw [hpte]
      exact sameAD_flags hfl hmaps hg hF hval.flags
    · rw [hb o ho, h.byte v (by rw [hv]; rfl) o ho]
  refine ⟨fun v fl hv => ?_, fun v hlt hn hu => ?_, fun v hv o ho => ?_⟩
  · obtain ⟨f, hfu, hfl, -⟩ := hin v fl hv
    rw [hfu.target]
    exact ⟨hfu, hfl⟩
  · by_cases hmem : v ∈ listVpns parent.vma
    · obtain ⟨-, hV, hU, -⟩ := hp.listed.valid_leaf hmem
      exact h.unmapped v hlt hn ⟨hV, hU⟩
    · rw [hcopy.other hmem] at hu
      have := hc.covered hlt hu.1 hu.2
      rw [hnil] at this
      simp [listVpns] at this
  · obtain ⟨fl, hfl⟩ := Option.isSome_iff_exists.mp hv
    obtain ⟨f, hfu, -, hb⟩ := hin v fl hfl
    rw [hfu.target, hb o ho]

/-- An address space with an empty list shows nothing. -/
theorem sees_empty (h : UserMm L A i mm) (hnil : mm.vma = []) : Sees L s.mem A i .empty where
  mapped v fl hv := by cases hv
  unmapped v hlt _ hu := by
    have := h.covered hlt hu.1 hu.2
    rw [hnil] at this
    simp [listVpns] at this
  byte v hv := by cases hv

/-! ### Stores -/

/-- **A store of bytes that are all in user pages.** -/
theorem Sees.write {va n : ℕ} {src : ℕ → UInt8} (h : Sees L s.mem A i u) (hok : A.Ok L)
    (hst : Stored L A i s'.mem va n src) (hw : Wrote L A i va n s s') :
    Sees L s'.mem A i (u.write va n src) := by
  refine ⟨h.mapped, h.unmapped, fun v hv o ho => ?_⟩
  change _ = blit u.byte va n src (4096 * v + o)
  have hfu := h.frame hv
  by_cases hin : va ≤ 4096 * v + o ∧ 4096 * v + o < va + n
  · obtain ⟨f, hf, hb⟩ := hst (4096 * v + o - va) (by omega)
    rw [show va + (4096 * v + o - va) = 4096 * v + o by omega,
      show (4096 * v + o) / 4096 = v by omega, show (4096 * v + o) % 4096 = o by omega] at *
    rw [hf.target, hb, blit_of_mem hin.1 hin.2]
  · rw [blit_of_not_mem hin, ← h.byte v hv o ho]
    by_contra hne
    obtain ⟨k, hk, f, hf, he⟩ := hw.only _ hne
    have h1 := hfu.frame.aligned
    have h2 := hf.frame.aligned
    have hff : PTE2PA (A.pte i v) = f := by omega
    rw [hff] at hfu
    have := (hfu.unique hf hok).2
    omega

/-- The bytes that `copy_to_user` reaches. -/
theorem Sees.reach (h : Sees L s.mem A i u) (hmm : UserTable L A i mm) : ∀ {len va n : ℕ},
    va / 4096 ≤ 2 ^ 26 → Reaches A i va len n → n = u.reach va len
  | 0, _, n, _, hr => Nat.le_zero.mp hr.1
  | len + 1, va, n, hva, hr => by
    obtain ⟨hle, hin, hout⟩ := hr
    have hpage : (u.perm (va / 4096)).isSome ↔ UserPte (A.pte i (va / 4096)) :=
      h.isSome_iff (by rw [NVPN_eq]; omega)
    cases n with
    | zero =>
      rw [UserMem.reach, if_neg]
      exact fun hc => hout (Nat.succ_pos _) (hpage.mp hc)
    | succ n =>
      have h0 := hin 0 (Nat.succ_pos _)
      rw [Nat.add_zero] at h0
      have hlt := (hmm.frame _ (by rw [NVPN_eq]; omega) h0).lt
      rw [UserMem.reach, if_pos (hpage.mpr h0)]
      congr 1
      refine Sees.reach h hmm (by omega) ⟨by omega, fun k hk => ?_, fun hn => ?_⟩
      · rw [show va + 1 + k = va + (k + 1) by omega]
        exact hin (k + 1) (by omega)
      · rw [show va + 1 + n = va + (n + 1) by omega]
        exact hout (by omega)

/-- A store into one page. -/
theorem stored_page {va f n : ℕ} (src : ℕ → UInt8) (hA : Reps L s A)
    (hf : UserFrame L A i (va / 4096) f) (hn : va % 4096 + n ≤ 4096) :
    Stored L A i (blit s.mem (f + va % 4096) n src) va n src ∧
      Wrote L A i va n s { s with mem := blit s.mem (f + va % 4096) n src } := by
  have hpage : ∀ k < n, (va + k) / 4096 = va / 4096 ∧ (va + k) % 4096 = va % 4096 + k :=
    fun k hk => by omega
  refine ⟨fun k hk => ⟨f, by rw [(hpage k hk).1]; exact hf, ?_⟩, rfl,
    hA.blit hf.frame.aligned (hf.not_kernel hA.ok) (by omega) (by omega), fun x hx => ?_⟩
  · rw [(hpage k hk).2, blit_of_mem (by omega) (by omega)]
    congr 1
    omega
  · by_cases hmem : f + va % 4096 ≤ x ∧ x < f + va % 4096 + n
    · have hk := hpage (x - (f + va % 4096)) (by omega)
      exact ⟨x - (f + va % 4096), by omega, f, by rw [hk.1]; exact hf, by omega⟩
    · exact absurd (blit_of_not_mem hmem) hx

variable [DecidableEq ι]

/-! ### The end of all mappings -/

theorem stays_of_freed {vs : List ℕ} (hA : Reps L s A) (hB : Reps L s' (unmapPages i true vs A))
    (htf : trapframeVpn ∉ vs)
    (hm : SameOff (Kernel (unmapPages i true vs A)) s.mem s'.mem) :
    Stays L (Foreign i) s.mem A s'.mem (unmapPages i true vs A) := by
  refine stays_of_kernel hA hB (fun j _ => by rw [unmapPages_tbl]) (unmapPages_held _ _ _)
    (fun j v hP => ?_) (hm.mono Set.subset_union_right)
  rw [unmapPages_pte_of_ne fun hc => htf (hP.resolve_left (fun h => h hc.1) ▸ hc.2)]
  exact SameAD.refl _

/-- What the page-fault handler does to an entry. -/
theorem stays_of_fault (hA : Reps L s A) (P : ι → ℕ → Prop) {v : ℕ} {store : Bool}
    (hB : Reps L s' (A.setPte i v (faultPte store (A.pte i v))))
    (hm : SameOff (Kernel A) s.mem s'.mem) :
    Stays L P s.mem A s'.mem (A.setPte i v (faultPte store (A.pte i v))) := by
  refine stays_of_kernel hA hB (fun _ _ => rfl) rfl (fun j w _ => ?_)
    (hm.mono Set.subset_union_left)
  by_cases hjw : j = i ∧ w = v
  · obtain ⟨rfl, rfl⟩ := hjw
    rw [View.setPte_pte_self]
    exact faultPte_sameAD _ _
  · rw [View.setPte_pte_of_ne hjw]
    exact SameAD.refl _

/-- A new address space. -/
theorem stays_of_newRoot {f : ℕ} (hA : Reps L s A) (hB : Reps L s' B) (hG : Grew (A.newRoot i f) B i)
    (hm : SameOff (Kernel A) s.mem s'.mem) : Stays L (fun j _ => j ≠ i) s.mem A s'.mem B := by
  refine stays_of_kernel hA hB (fun j hj => ?_) hG.held (fun j v hji => ?_)
    (hm.mono Set.subset_union_left)
  · rw [hG.root, newRoot_tbl_of_ne (hj 0)]
  · rw [hG.other j v hji, newRoot_pte_of_ne hji]
    exact SameAD.refl _

end UCore.Vm.Flat

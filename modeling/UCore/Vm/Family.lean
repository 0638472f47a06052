import Mathlib.Logic.Function.Basic
import Mathlib.Logic.Relation
import UCore.Mem.Boot
import UCore.Vm.Process

/-! # A family of address spaces

The address spaces of many processes in one memory. `Step` is one call of `vm.c` on one of them, or
the making of a new one; every reachable state has a view in which each of them is a `UserMm`
(`invariant`). It follows that the vma list of each describes its table, and that `mm_free_pages`
gives back each frame once (`list_describes_table`). -/

namespace UCore.Vm.Family

open UCore.Lib.Bytes UCore.Lib.Hoare UCore.Riscv UCore.Mem.State UCore.Mem.Kalloc UCore.Mem.Boot
open UCore.Vm.Spaces UCore.Vm.Tables UCore.Vm.Growth UCore.Vm.Walk UCore.Vm.Map UCore.Vm.Refine
open UCore.Vm.VmaList UCore.Vm.Count UCore.Vm.Fill UCore.Vm.History UCore.Vm.Copy UCore.Vm.Process

variable {ι : Type} {L : Layout} {s s' : KState} {A B : View ι} {i j : ι} {mm : Mm}

/-! ### Reading a table -/

/-- The entry of page number `v` in the table of `mm`; `0` if its page-table page is missing. -/
def pteAt (m : Mem) (mm : Mm) (v : ℕ) : ℕ := pteOf m (some (KVA_TO_PA mm.pgt)) v

/-- The entry is a valid one for the user. -/
def UserPte (e : ℕ) : Prop := Has e PTE_V ∧ Has e PTE_U

/-- The flags of an entry that maps a frame, up to the accessed and dirty bits. -/
theorem Maps.flags {e f fl : ℕ} (h : Maps e f fl) (hf : L.Frame f) (hfl : fl < 1024) :
    SameAD (PTE_FLAGS e) (fl ||| PTE_V) := by
  have h1 := congrArg PTE_FLAGS (show e ||| PTE_AD = mkPte f fl ||| PTE_AD from h)
  rw [PTE_FLAGS_or, PTE_FLAGS_or, PTE_FLAGS_mkPte (by have := hf.lt; omega) hfl] at h1
  exact h1

theorem pteAt_eq (h : Reps L s A) {r : ℕ} (hr : A.tbl i [] = some r) (hpgt : mm.pgt = PA_TO_KVA r)
    {v : ℕ} (hv : v < NVPN) : pteAt s.mem mm v = A.pte i v := by
  have hF := h.ok.frame_tbl (i := i) (p := []) (by simp) hr
  have hpa : KVA_TO_PA mm.pgt = r := by
    rw [hpgt]; exact KVA_TO_PA_PA_TO_KVA (by have := hF.lt; omega)
  rw [pteAt, hpa, h.pte i v hv, hr]

theorem pteAt_user (h : UserMm L A i mm) (hA : Reps L s A) {v : ℕ} (hv : v < NVPN) :
    pteAt s.mem mm v = A.pte i v := by
  obtain ⟨r, hr, hpgt⟩ := h.listed.root
  exact pteAt_eq hA hr hpgt hv

variable [DecidableEq ι]

/-! ### Runs -/

/-- The memory, and the `mm` of every process that has one. -/
abbrev Machine (ι : Type) := KState × (ι → Option Mm)

/-- One call, without shortage. -/
inductive Step (L : Layout) : Machine ι → Machine ι → Prop
  | create {s s' : KState} {mms : ι → Option Mm} {o : NewMm} (i : ι) :
    allocMm L s = .ok o s' → PageEvent.empty ∉ s'.log →
    Step L (s, mms) (s', Function.update mms i (some o.mm))
  | mappages {s s' : KState} {mms : ι → Option Mm} {mm mm' : Mm} (i : ι) (vma : Vma) :
    mms i = some mm → vma.vmStart ≤ vma.vmEnd → Has vma.pteFlags PTE_U → vma.pteFlags < 1024 →
    mmMappages L mm vma s = .ok (0, mm') s' → PageEvent.empty ∉ s'.log →
    Step L (s, mms) (s', Function.update mms i (some mm'))
  | copy {s s' : KState} {mms : ι → Option Mm} {old new new' : Mm} (i j : ι) :
    i ≠ j → mms i = some old → mms j = some new →
    mmCopy L old new s = .ok (0, new') s' → PageEvent.empty ∉ s'.log →
    Step L (s, mms) (s', Function.update mms j (some new'))
  | freePages {s s' : KState} {mms : ι → Option Mm} {mm mm' : Mm} (i : ι) :
    mms i = some mm → mmFreePages L mm s = .ok mm' s' →
    Step L (s, mms) (s', Function.update mms i (some mm'))
  | fault {s s' : KState} {mms : ι → Option Mm} {mm : Mm} {b : Bool} (i : ι) (addr : ℕ)
    (store : Bool) : mms i = some mm → pageFault L mm addr store s = .ok b s' →
    Step L (s, mms) (s', mms)

/-- Every `mm` of the machine is the address space of a process. -/
def Inv (L : Layout) (c : Machine ι) : Prop :=
  ∃ A : View ι, Reps L c.1 A ∧ ∀ i mm, c.2 i = some mm → UserMm L A i mm

/-- From `A` to `B` the root and the entries of `k` stay. -/
def Untouched (A B : View ι) (k : ι) : Prop := B.tbl k [] = A.tbl k [] ∧ ∀ v, B.pte k v = A.pte k v

/-- From a machine with the view `A` and the address spaces `mms` to `c`: the invariant, and the tables
of those that have no `mm` of the machine stay as they are. -/
def Next (L : Layout) (A : View ι) (mms : ι → Option Mm) (c : Machine ι) : Prop :=
  ∃ B : View ι, Reps L c.1 B ∧ (∀ i mm, c.2 i = some mm → UserMm L B i mm) ∧
    ∀ k, mms k = none → c.2 k = none → Untouched A B k

omit [DecidableEq ι] in
theorem Untouched.userMm (h : Untouched A B i) (hmm : UserMm L A i mm) : UserMm L B i mm :=
  hmm.congr h.1 h.2

omit [DecidableEq ι] in
theorem Grew.untouched (h : Grew A B i) (hji : j ≠ i) : Untouched A B j :=
  ⟨h.root j, fun v => h.other j v hji⟩

/-- The frames that have a use, other than as the target of a trapframe's mapping. -/
def Elsewhere (L : Layout) (A : View ι) : Set ℕ :=
  {f | ∃ o, A.Owns L o f ∧ ∀ k, o ≠ .leaf k trapframeVpn}

/-- From the memory `m` with the view `A` and the address spaces `mms` to `c` with the view `B`: the
invariant, the tables of those that have no `mm` of the machine stay, no page is written but those
with a use elsewhere than as a trapframe, and an address space that keeps its table keeps its
trapframe, up to what the page-fault handler does to the entry. -/
structure Moved (L : Layout) (m : Mem) (A : View ι) (mms : ι → Option Mm) (c : Machine ι)
    (B : View ι) : Prop where
  reps : Reps L c.1 B
  user : ∀ i mm, c.2 i = some mm → UserMm L B i mm
  hidden : ∀ k, mms k = none → c.2 k = none → Untouched A B k
  held : B.held = A.held
  mem : SameOff (Elsewhere L A ∪ Elsewhere L B) m c.1.mem
  trapframe : ∀ k mm mm', mms k = some mm → c.2 k = some mm' → mm'.pgt = mm.pgt →
    B.pte k trapframeVpn = A.pte k trapframeVpn ∨
      ∃ store, B.pte k trapframeVpn = faultPte store (A.pte k trapframeVpn)

omit [DecidableEq ι] in
theorem Moved.next {m : Mem} {mms : ι → Option Mm} {c : Machine ι} (h : Moved L m A mms c B) :
    Next L A mms c := ⟨B, h.reps, h.user, h.hidden⟩

omit [DecidableEq ι] in
/-- The kernel's own pages have their use. -/
theorem kernel_elsewhere : Kernel A ⊆ Elsewhere L A := by
  rintro f (hf | ⟨i, p, hp, hf⟩)
  · exact ⟨.free, hf, by simp⟩
  · exact ⟨.table i p, ⟨hp, hf⟩, by simp⟩

omit [DecidableEq ι] in
theorem kernel_before : Kernel A ⊆ Elsewhere L A ∪ Elsewhere L B :=
  kernel_elsewhere.trans Set.subset_union_left

omit [DecidableEq ι] in
theorem kernel_after : Kernel B ⊆ Elsewhere L A ∪ Elsewhere L B :=
  kernel_elsewhere.trans Set.subset_union_right

omit [DecidableEq ι] in
/-- Nothing happened to the tables. -/
theorem moved_refl {mms : ι → Option Mm} {m' : Mem} (hA : Reps L { s with mem := m' } A)
    (hmm : ∀ i mm, mms i = some mm → UserMm L A i mm) (hm : SameOff (Elsewhere L A) s.mem m') :
    Moved L s.mem A mms ({ s with mem := m' }, mms) A :=
  ⟨hA, hmm, fun _ _ _ => ⟨rfl, fun _ => rfl⟩, rfl, hm.mono Set.subset_union_left,
    fun _ _ _ _ _ _ => Or.inl rfl⟩

/-- The others stay, the changed one is given. -/
theorem moved_update {m : Mem} {mms : ι → Option Mm} {mm' : Mm} (hB : Reps L s' B)
    (hmm : ∀ j mm, mms j = some mm → UserMm L A j mm) (hi : UserMm L B i mm')
    (hk : ∀ k, k ≠ i → Untouched A B k) (hheld : B.held = A.held)
    (hm : SameOff (Elsewhere L A ∪ Elsewhere L B) m s'.mem)
    (htf : ∀ mm, mms i = some mm → mm'.pgt = mm.pgt → B.pte i trapframeVpn = A.pte i trapframeVpn) :
    Moved L m A mms (s', Function.update mms i (some mm')) B := by
  refine ⟨hB, fun j mm hj => ?_, fun k _ hnone => hk k ?_, hheld, hm,
    fun k mm mm'' hm' hk' hpgt => ?_⟩
  · change Function.update mms i (some mm') j = some mm at hj
    by_cases hji : j = i
    · subst hji
      rw [Function.update_self, Option.some.injEq] at hj
      exact hj ▸ hi
    · rw [Function.update_of_ne hji] at hj
      exact (hk j hji).userMm (hmm j mm hj)
  · rintro rfl
    change Function.update mms k (some mm') k = none at hnone
    rw [Function.update_self] at hnone
    cases hnone
  · refine Or.inl ?_
    by_cases hki : k = i
    · subst hki
      change Function.update mms k (some mm') k = some mm'' at hk'
      rw [Function.update_self, Option.some.injEq] at hk'
      exact htf mm hm' (by rw [hk']; exact hpgt)
    · exact (hk k hki).2 _

/-- What `wet` says of a call that returned. -/
theorem wet.elim {α : Type} {x : KM α} {Q : α → KState → Prop} {a : α} (h : wet x s Q)
    (hx : x s = .ok a s') (hd : PageEvent.empty ∉ s'.log) : Q a s' :=
  (wp_of_eq_ok hx).mp h hd

/-- One call, by views. -/
theorem Step.moved {c c' : Machine ι} (hstep : Step L c c') (hA : Reps L c.1 A)
    (hmm : ∀ i mm, c.2 i = some mm → UserMm L A i mm) : ∃ B, Moved L c.1.mem A c.2 c' B := by
  cases hstep with
  | @create s s' mms o i hx hd =>
    obtain ⟨B, f, hf, hB, hG, hfresh, -, -, -, -, hm⟩ := wet.elim (wet_allocMm hA i) hx hd
    have hroot : B.tbl i [] = some f := (hG.root i).trans (by rw [newRoot_tbl, if_pos rfl])
    refine ⟨B, moved_update hB hmm hfresh.userMm (fun j hji => ⟨?_, fun v => ?_⟩) hG.held
      (hm.mono kernel_before) fun mm hi hpgt => ?_⟩
    · rw [hG.root, newRoot_tbl_of_ne hji]
    · rw [hG.other j v hji, newRoot_pte_of_ne hji]
    · -- the new root was free, the old one was not
      obtain ⟨r, hr, hr'⟩ := (hmm i mm hi).listed.root
      obtain ⟨q, hq, hq'⟩ := hfresh.root
      rw [hroot, Option.some.injEq] at hq
      have hrF := hA.ok.frame_tbl (i := i) (p := []) (by simp) hr
      have hfF := hA.ok.frame_free hf
      have he : PA_TO_KVA f = PA_TO_KVA r := by rw [hq, ← hq', hpgt, hr']
      rw [PA_TO_KVA_eq hfF.lt_pow, PA_TO_KVA_eq hrF.lt_pow] at he
      exact absurd (Nat.add_right_cancel he) (hA.ok.free_ne_tbl (by simp) hf hr)
  | @mappages s s' mms mm mm' i vma hm hle hU hfl hx hd =>
    have hi := hmm i mm hm
    obtain ⟨r, hr, hpgt⟩ := hi.listed.root
    by_cases hvma : Vma.Valid vma
    swap
    · have : wp (mmMappages L mm vma) s (fun _ _ => False) fun _ s' => s' = s :=
        wp_mmMappages_invalid hfl hvma
      exact ((wp_of_eq_ok hx).mp this).elim
    obtain ⟨hs', ho⟩ := (wp_of_eq_ok hx).mp (wp_mmMappages hA hr hpgt hvma)
    have hdry : ¬ (mapPages i vma.pteFlags (vpns vma) A).1.dry := fun hc => hd (hs'.reps.dry.mp hc)
    have hG := mapPages_grew (i := i) vma.pteFlags (vpns vma) A
    cases hmap : (mapPages i vma.pteFlags (vpns vma) A).2 with
    | false =>
      rw [hmap] at ho
      have h0 : (0 : ℤ) = -1 := congrArg Prod.fst ho
      exact absurd h0 (by decide)
    | true =>
      rw [hmap] at ho
      cases ho
      exact ⟨_, moved_update hs'.reps hmm (hi.mapped hA.ok hvma hU (supplied_of_wet hmap hdry))
        (fun j hji => Grew.untouched hG hji) hG.held
        (hs'.mem.mono kernel_before)
        fun _ _ _ => hG.valid _ hi.trapframe.1.1⟩
  | @copy s s' mms old new new' i j hij ho hn hx hd =>
    have hi := hmm i old ho
    have hj := hmm j new hn
    obtain ⟨B, hc, hl, he⟩ := wet.elim (wet_mmCopyLoop hij hA hi.listed (fun _ => id) hj.listed)
      hx hd rfl
    change new' = _ at he
    change Listed L B j new' at hl
    rw [he] at hl ⊢
    exact ⟨B, moved_update hc.reps hmm (hj.copied hc hl) (fun k hkj => Grew.untouched hc.grew hkj)
      hc.grew.held (hc.mem.mono kernel_before)
      fun _ _ _ => hc.grew.valid _ hj.trapframe.1.1⟩
  | @freePages s s' mms mm mm' i hm hx =>
    have hi := hmm i mm hm
    have hpost := (wp_of_eq_ok hx).mp (wp_mmFreePages hA hi.listed)
    rw [hpost.1]
    refine ⟨_, moved_update hpost.2.1 hmm (hi.freed hA)
      (fun j hji => ⟨by rw [unmapPages_tbl], fun v => unmapPages_pte_of_ne fun hc => hji hc.1⟩)
      (unmapPages_held _ _ _) (hpost.2.2.1.mono kernel_after) fun _ _ _ => ?_⟩
    exact unmapPages_pte_of_ne fun hc => hi.not_listed hi.trapframe.1 hc.2
  | @fault s s' mms mm b i addr store hm hx =>
    have hi := hmm i mm hm
    obtain ⟨r, hr, hpgt⟩ := hi.listed.root
    by_cases ha : addr ≤ MAXVA
    swap
    · exfalso
      have : wp (pageFault L mm addr store) s (fun _ _ => False) fun _ _ => True := by
        unfold pageFault Walk.walk
        exact wp_bind.mpr (wp_bind.mpr (wp_ensure.mpr ⟨fun hc => absurd hc ha, fun _ => trivial⟩))
      exact (wp_of_eq_ok hx).mp this
    obtain ⟨hb, hd, hs'⟩ := (wp_of_eq_ok hx).mp (wp_pageFault hA hr hpgt ha)
    cases b with
    | false =>
      rw [if_neg (by simp)] at hs'
      exact ⟨A, hs', hmm, fun _ _ _ => ⟨rfl, fun _ => rfl⟩, rfl, hd.mono kernel_before,
        fun _ _ _ _ _ _ => Or.inl rfl⟩
    | true =>
      rw [if_pos rfl] at hs'
      refine ⟨_, hs', fun j mm hm => (hmm j mm hm).sameAD rfl fun v => ?_,
        fun k hk _ => ⟨rfl, fun v => ?_⟩, rfl, hd.mono kernel_before, fun k _ _ _ _ _ => ?_⟩
      · by_cases hjv : j = i ∧ v = addr / 4096
        · obtain ⟨rfl, rfl⟩ := hjv
          rw [View.setPte_pte_self]
          exact faultPte_sameAD _ _
        · rw [View.setPte_pte_of_ne hjv]
          exact SameAD.refl _
      · refine View.setPte_pte_of_ne fun hc => ?_
        rw [hc.1] at hk
        exact absurd (hk.symm.trans hm) (by simp)
      · by_cases hjv : k = i ∧ trapframeVpn = addr / 4096
        · rw [hjv.1, hjv.2, View.setPte_pte_self]
          exact Or.inr ⟨store, rfl⟩
        · exact Or.inl (View.setPte_pte_of_ne hjv)

/-- **One call keeps the invariant.** -/
theorem Step.inv {c c' : Machine ι} (hstep : Step L c c') (hinv : Inv L c) : Inv L c' := by
  obtain ⟨A, hA, hmm⟩ := hinv
  obtain ⟨B, h⟩ := hstep.moved hA hmm
  exact ⟨B, h.reps, h.user⟩

/-! ### The start -/

/-- The view of a machine without address spaces: the frames `fs` are free. -/
def bootView (ι : Type) (s : KState) (fs : List ℕ) (held : Set ℕ) : View ι where
  free := fs
  held := held
  dry := PageEvent.empty ∈ s.log
  tbl := fun _ _ => none
  pte := fun _ _ => 0

omit [DecidableEq ι] in
theorem reps_boot {fs : List ℕ} {held : Set ℕ} (hfree : FreeOk L s fs) (hlog : LogOk s.log fs)
    (hheld : ∀ f ∈ fs, f ∉ held) : Reps L s (bootView ι s fs held) := by
  refine ⟨⟨hfree.nodup, fun o f ho => ?_, fun o o' f ho ho' => ?_, fun _ _ _ _ => rfl⟩,
    hfree.chain, hlog, Iff.rfl, fun i p _ => rfl, fun i v _ => rfl⟩
  · cases o with
    | free => exact hfree.frame f ho
    | held => exact ho.2
    | table i p => cases ho.2
    | leaf i v => exact absurd ho.2.1 (not_has_zero _)
  · cases o with
    | free =>
      cases o' with
      | free => rfl
      | held => exact absurd ho'.1 (hheld f ho)
      | table i p => cases ho'.2
      | leaf i v => exact absurd ho'.2.1 (not_has_zero _)
    | held =>
      cases o' with
      | free => exact absurd ho.1 (hheld f ho')
      | held => rfl
      | table i p => cases ho'.2
      | leaf i v => exact absurd ho'.2.1 (not_has_zero _)
    | table i p => cases ho.2
    | leaf i v => exact absurd ho.2.1 (not_has_zero _)

/-- **The invariant of every run.** -/
theorem invariant {fs : List ℕ} (hfree : FreeOk L s fs) (hlog : LogOk s.log fs) {c : Machine ι}
    (hrun : Relation.ReflTransGen (Step L) (s, fun _ => none) c) : Inv L c := by
  induction hrun with
  | refl => exact ⟨bootView ι s fs ∅, reps_boot hfree hlog (by simp), fun i mm hm => by cases hm⟩
  | tail _ hstep ih => exact hstep.inv ih

/-! ### Progress -/

/-- Room for `n` more frames and objects, and no shortage so far. -/
structure Room (L : Layout) (s : KState) (n : ℕ) : Prop where
  frames : ∃ fs, FreeOk L s fs ∧ n ≤ fs.length
  wet : PageEvent.empty ∉ s.log
  mmObjs : s.mmObjs + n ≤ objectCount
  vmaObjs : s.vmaObjs + n ≤ objectCount

omit [DecidableEq ι] in
theorem Room.view {n : ℕ} (h : Room L s n) (hA : Reps L s A) : ¬ A.dry ∧ n ≤ A.free.length := by
  obtain ⟨fs, hfs, hlen⟩ := h.frames
  rw [hfs.unique hA.freeOk] at hlen
  exact ⟨fun hd => h.wet (hA.dry.mp hd), hlen⟩

omit [DecidableEq ι] in
theorem room_of_view {n : ℕ} (hA : Reps L s A) (hdry : ¬ A.dry) (hlen : n ≤ A.free.length)
    (hm : s.mmObjs + n ≤ objectCount) (hv : s.vmaObjs + n ≤ objectCount) : Room L s n :=
  ⟨⟨A.free, hA.freeOk, hlen⟩, fun hd => hdry (hA.dry.mpr hd), hm, hv⟩

/-- **With room a new address space can be made.** -/
theorem create_enabled {c : Machine ι} {n : ℕ} (hinv : Inv L c) (hroom : Room L c.1 (n + 4)) (i : ι) :
    ∃ o s', allocMm L c.1 = .ok o s' ∧ Room L s' n ∧ o.mm.vma = [] ∧
      ∀ v < NVPN, v ≠ trampolineVpn → v ≠ trapframeVpn → pteAt s'.mem o.mm v = 0 := by
  obtain ⟨A, hA, -⟩ := hinv
  obtain ⟨hdry, hlen⟩ := hroom.view hA
  obtain ⟨o, s', hx, hm, hv, B, hB, hBdry, hBlen⟩ := wpOk_iff.mp (wp_allocMm_enough hA i hdry
    (by omega) (by have := hroom.mmObjs; omega) (by have := hroom.vmaObjs; omega))
  have hroom' : Room L s' n := room_of_view hB hBdry (by omega)
    (by have := hroom.mmObjs; omega) (by have := hroom.vmaObjs; omega)
  obtain ⟨C, f, -, hC, -, hfresh, -⟩ := wet.elim (wet_allocMm hA i) hx hroom'.wet
  refine ⟨o, s', hx, hroom', hfresh.list, fun v hv h1 h2 => ?_⟩
  rw [pteAt_user hfresh.userMm hC hv, hfresh.unmapped v h1 h2]

/-- **With room new page numbers can be mapped.** -/
theorem mappages_enabled {r n : ℕ} {vma : Vma} (hA : Reps L s A) (hr : A.tbl i [] = some r)
    (hpgt : mm.pgt = PA_TO_KVA r) (hvma : Vma.Valid vma)
    (hnew : ∀ v ∈ vpns vma, pteAt s.mem mm v = 0) (hroom : Room L s (n + 3 * (vpns vma).length)) :
    ∃ s', mmMappages L mm vma s = .ok (0, { mm with vma := vma :: mm.vma }) s' ∧ Room L s' n := by
  obtain ⟨hdry, hlen⟩ := hroom.view hA
  have hle := missing_le (A.tbl i) (vpns vma)
  have hnew' : ∀ v ∈ vpns vma, ¬ Has (A.pte i v) PTE_V := fun v hv => by
    rw [← pteAt_eq hA hr hpgt (hvma.vpn_lt' hv), hnew v hv]
    exact not_has_zero _
  obtain ⟨hmap, hdry', hok⟩ := wp_mmMappages_enough hA hr hpgt hvma hdry hnew'
    (by unfold needed; omega)
  obtain ⟨o, s', hx, ho, hs'⟩ := wpOk_iff.mp hok
  have hcount := (mapPages_count hmap hdry').1
  rw [ho] at hx
  refine ⟨s', hx, room_of_view hs'.reps hdry' (by omega) ?_ ?_⟩
  · have := hroom.mmObjs; rw [hs'.mmObjs]; omega
  · have := hroom.vmaObjs; rw [hs'.vmaObjs]; omega

/-- A run that makes an address space and maps one vma in it. -/
theorem exists_run {vma : Vma} {n : ℕ} {fs : List ℕ} (hvma : Vma.Valid vma)
    (hend : vma.vmEnd ≤ TRAPFRAME) (hU : Has vma.pteFlags PTE_U) (hle : vma.vmStart ≤ vma.vmEnd)
    (hfree : FreeOk L s fs) (hlog : LogOk s.log fs)
    (hroom : Room L s (n + 3 * (vpns vma).length + 4)) (i : ι) :
    ∃ s' mm, Relation.ReflTransGen (Step L) (s, fun _ : ι => none)
      (s', Function.update (fun _ => none) i (some mm)) ∧ mm.vma = [vma] ∧ Room L s' n := by
  have hinv := invariant (ι := ι) hfree hlog Relation.ReflTransGen.refl
  obtain ⟨o, s₁, hx, hroom₁, hlist, hzero⟩ := create_enabled hinv hroom i
  have h₁ : Step L (s, fun _ : ι => none) (s₁, Function.update (fun _ => none) i (some o.mm)) :=
    Step.create i hx hroom₁.wet
  have hnew : ∀ v ∈ vpns vma, pteAt s₁.mem o.mm v = 0 := fun v hv => by
    have hlt := ((mem_vpns hvma.start_al hvma.end_al).mp hv).2
    rw [TRAPFRAME_eq] at hend
    have hlt' : v < 2 ^ 26 - 2 := by omega
    refine hzero v (hvma.vpn_lt' hv) ?_ ?_
    · unfold trampolineVpn; omega
    · unfold trapframeVpn; omega
  have hmm : Function.update (fun _ : ι => none) i (some o.mm) i = some o.mm :=
    Function.update_self ..
  obtain ⟨A, hA, hall⟩ := h₁.inv hinv
  obtain ⟨r, hr, hpgt⟩ := (hall i o.mm hmm).listed.root
  obtain ⟨s₂, hx₂, hroom₂⟩ := mappages_enabled hA hr hpgt hvma hnew hroom₁
  have h₂ := Step.mappages i vma hmm hle hU hvma.flags hx₂ hroom₂.wet
  rw [Function.update_idem] at h₂
  exact ⟨s₂, _, (Relation.ReflTransGen.single h₁).tail h₂, by rw [hlist], hroom₂⟩

omit [DecidableEq ι] in
theorem Room.mono {m n : ℕ} (h : Room L s n) (hle : m ≤ n) : Room L s m := by
  obtain ⟨fs, hfs, hlen⟩ := h.frames
  exact ⟨⟨fs, hfs, by omega⟩, h.wet, by have := h.mmObjs; omega, by have := h.vmaObjs; omega⟩

/-- The machine of `sample_boot` has room. -/
theorem sample_room : ∃ s, kpgmgrinit sampleLayout zeroState = .ok () s ∧
    FreeOk sampleLayout s (framesFrom sampleLayout 0 15360) ∧
    LogOk s.log (framesFrom sampleLayout 0 15360) ∧ Room sampleLayout s 15360 := by
  obtain ⟨s, hx, hb, hm, hv⟩ := sample_boot
  have hcount : 15360 ≤ objectCount := by decide
  refine ⟨s, hx, hb.freeOk, hb.logOk, ⟨_, hb.freeOk, ?_⟩, hb.wet, by omega, by omega⟩
  rw [length_framesFrom]

/-! ### The list and the table -/

/-- The vmas of a list that hold page number `v`. -/
def holders (vmas : List Vma) (v : ℕ) : List Vma := vmas.filter fun vma => v ∈ vpns vma

theorem mem_holders {vmas : List Vma} {vma : Vma} {v : ℕ} :
    vma ∈ holders vmas v ↔ vma ∈ vmas ∧ v ∈ vpns vma := by
  simp [holders]

/-- In a disjoint list a page number has at most one holder. -/
theorem holders_of_mem {v : ℕ} : ∀ {vmas : List Vma},
    vmas.Pairwise (fun a b => (vpns a).Disjoint (vpns b)) → ∀ vma ∈ vmas, v ∈ vpns vma →
      holders vmas v = [vma]
  | w :: vmas, hd, vma, hmem, hv => by
    rw [List.pairwise_cons] at hd
    unfold holders
    rw [List.filter_cons]
    rcases List.mem_cons.mp hmem with rfl | hmem
    · rw [if_pos (by simpa using hv), List.filter_eq_nil_iff.mpr fun u hu => ?_]
      simpa using hd.1 u hu hv
    · rw [if_neg (by simpa using fun hw => hd.1 vma hmem hw hv)]
      exact holders_of_mem hd.2 vma hmem hv

/-- The frames that the user mappings of `mm` lead to. -/
def userFrames (m : Mem) (mm : Mm) : Set ℕ :=
  {f | ∃ v < NVPN, UserPte (pteAt m mm v) ∧ PTE2PA (pteAt m mm v) = f}

/-- What the vma list of `mm` says about its table, in the state `s`. -/
structure Describes (L : Layout) (s : KState) (mm : Mm) : Prop where
  /-- The vmas are pairwise disjoint. -/
  disjoint : mm.vma.Pairwise fun a b => (vpns a).Disjoint (vpns b)
  /-- A page number is mapped for the user iff exactly one vma holds it. -/
  user_iff : ∀ v < NVPN, UserPte (pteAt s.mem mm v) ↔ ∃ vma, holders mm.vma v = [vma]
  /-- The flags are those of the vma, with `V`, up to the accessed and dirty bits. -/
  flags : ∀ v < NVPN, ∀ vma, holders mm.vma v = [vma] →
    SameAD (PTE_FLAGS (pteAt s.mem mm v)) (vma.pteFlags ||| PTE_V)
  /-- `mm_free_pages` gives back the frame of every user mapping once, in a list without
  repetition, is refused none, and leaves no user mapping. -/
  freed : wpOk (mmFreePages L mm) s fun mm' s' =>
    (∃ frames : List ℕ, s'.log = (frames.map PageEvent.free).reverse ++ s.log ∧ frames.Nodup ∧
      ∀ f, f ∈ frames ↔ f ∈ userFrames s.mem mm) ∧
    ∀ v < NVPN, ¬ UserPte (pteAt s'.mem mm' v)

omit [DecidableEq ι] in
/-- The user mappings of an address space are those of the list. -/
theorem UserMm.userPte_iff (h : UserMm L A i mm) {v : ℕ} (hv : v < NVPN) :
    UserPte (A.pte i v) ↔ v ∈ listVpns mm.vma :=
  ⟨fun hu => h.covered hv hu.1 hu.2, fun hm =>
    ⟨(h.listed.valid_leaf hm).2.1, (h.listed.valid_leaf hm).2.2.1⟩⟩

omit [DecidableEq ι] in
/-- The history of giving back the list. -/
theorem unmapLogs_eq (hA : Reps L s A) (hl : Listed L A i mm) :
    unmapLogs A i true (listVpns mm.vma) =
      (((listVpns mm.vma).map fun v => PTE2PA (A.pte i v)).map PageEvent.free).reverse := by
  unfold unmapLogs
  have hone : ∀ v ∈ listVpns mm.vma, unmapLog A i true v = [PageEvent.free (PTE2PA (A.pte i v))] := by
    intro v hv
    obtain ⟨hlt, hV, -⟩ := hl.valid_leaf hv
    obtain ⟨t, ht⟩ := hA.tbl_isSome (by rw [NVPN_eq]; omega) hV
    unfold unmapLog
    rw [if_pos ⟨by rw [ht]; rfl, rfl⟩]
  rw [List.flatMap_congr hone, List.map_map]
  congr 1
  exact List.flatMap_pure_eq_map _ _

theorem UserMm.describes (h : UserMm L A i mm) (hA : Reps L s A) : Describes L s mm := by
  have hpte : ∀ v < NVPN, pteAt s.mem mm v = A.pte i v := fun v hv => pteAt_user h hA hv
  have hhold : ∀ v vma, holders mm.vma v = [vma] → vma ∈ mm.vma ∧ v ∈ vpns vma := fun v vma he =>
    mem_holders.mp (by rw [he]; simp)
  refine ⟨h.listed.disjoint, fun v hv => ?_, fun v hv vma he => ?_, ?_⟩
  · rw [hpte v hv, UserMm.userPte_iff h hv, mem_listVpns]
    constructor
    · rintro ⟨vma, hvma, hm⟩
      exact ⟨vma, holders_of_mem h.listed.disjoint vma hvma hm⟩
    · rintro ⟨vma, he⟩
      exact ⟨vma, hhold v vma he⟩
  · obtain ⟨hvma, hm⟩ := hhold v vma he
    obtain ⟨f, hf, hmaps⟩ := h.listed.leaf vma hvma v hm
    rw [hpte v hv]
    exact Maps.flags hmaps hf (h.listed.valid vma hvma).1.flags
  · refine (wp_mmFreePages hA h.listed).imp ?_
    intro mm' s' hpost
    obtain ⟨hmm, hs', -, hlog, -⟩ := hpost
    have hfreed := h.freed hA
    rw [hmm]
    refine ⟨⟨(listVpns mm.vma).map fun v => PTE2PA (A.pte i v), ?_, ?_, fun f => ?_⟩, fun v hv => ?_⟩
    · rw [hlog, unmapLogs_eq hA h.listed]
    · refine List.Nodup.map_on (fun v hv w hw he => ?_) h.listed.nodup
      have hu := h.listed.userFrame hw
      rw [← he] at hu
      exact ((h.listed.userFrame hv).unique hu hA.ok).2
    · rw [List.mem_map]
      constructor
      · rintro ⟨v, hv, he⟩
        have hlt : v < NVPN := by have := (h.listed.valid_leaf hv).1; rw [NVPN_eq]; omega
        refine ⟨v, hlt, ?_⟩
        rw [hpte v hlt]
        exact ⟨(UserMm.userPte_iff h hlt).mpr hv, he⟩
      · rintro ⟨v, hlt, hu, he⟩
        rw [hpte v hlt] at hu he
        exact ⟨v, (UserMm.userPte_iff h hlt).mp hu, he⟩
    · rw [pteAt_user hfreed hs' hv, UserMm.userPte_iff hfreed hv]
      simp [listVpns]

/-- **The vma list of every process describes its page table**, in every run without shortage of
makings, mappings, copies, teardowns and page faults, in any order. -/
theorem list_describes_table {fs : List ℕ} {mms : ι → Option Mm} (hfree : FreeOk L s fs)
    (hlog : LogOk s.log fs)
    (hrun : Relation.ReflTransGen (Step L) (s, fun _ => none) (s', mms)) (hmm : mms i = some mm) :
    Describes L s' mm := by
  obtain ⟨A, hA, hinv⟩ := invariant hfree hlog hrun
  exact UserMm.describes (hinv i mm hmm) hA

/-- A vma of one page, readable and writable for the user. -/
def sampleVma : Vma := ⟨0x1000, 0x2000, PTE_R ||| PTE_W ||| PTE_U⟩

theorem sampleVma_valid : Vma.Valid sampleVma where
  start_le := by decide
  end_le := by decide
  start_al := by decide
  end_al := by decide
  perm := by decide
  flags := by decide

theorem list_describes_table_sample : ∃ (s s' : KState) (mms : Bool → Option Mm) (mm : Mm),
    kpgmgrinit sampleLayout zeroState = .ok () s ∧
    Relation.ReflTransGen (Step sampleLayout) (s, fun _ => none) (s', mms) ∧
    mms true = some mm ∧ mm.vma = [sampleVma] ∧ Describes sampleLayout s' mm := by
  obtain ⟨s, hboot, hfree, hlog, hroom⟩ := sample_room
  obtain ⟨s', mm, hrun, hlist, -⟩ := exists_run (n := 0) sampleVma_valid (by decide) (by decide)
    (by decide) hfree hlog (hroom.mono (by decide)) true
  have hmm := Function.update_self true (some mm) fun _ => none
  exact ⟨s, s', _, mm, hboot, hrun, hmm, hlist, list_describes_table hfree hlog hrun hmm⟩

end UCore.Vm.Family

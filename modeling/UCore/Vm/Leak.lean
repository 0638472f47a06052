import UCore.Vm.Lives
import UCore.Vm.PageMap

/-! # Page-table pages are not given back

The life of one `mm`: `allocMm` makes it with its trampoline and its trapframe, calls on it follow,
in any order and with any outcome, then come the two `freevma` of `freeproc` and `mm_free`. The
mapping of the trampoline took frames for page-table pages below the root; no call ever drops one
(`Call.keeps`), and `mm_free` gives back the pages of the list and the root only. So every life of a
process costs frames (`mm_free_leaks`). -/

namespace UCore.Vm.Leak

open UCore.Lib.Bytes UCore.Lib.Hoare UCore.Riscv UCore.Mem.State UCore.Mem.Kalloc UCore.Mem.Boot
open UCore.Vm.Spaces UCore.Vm.Tables UCore.Vm.Growth UCore.Vm.Walk UCore.Vm.Map UCore.Vm.Refine
open UCore.Vm.VmaList UCore.Vm.Count UCore.Vm.History UCore.Vm.Process UCore.Vm.Family
open UCore.Vm.PageMap

variable {L : Layout} {s s' s₀ s₁ s₂ s₃ s₄ s₅ : KState} {mm mm' : Mm} {t : ℕ}

/-- One call on the `mm` that came back, whatever it returned. -/
inductive Call (L : Layout) : KState × Mm → KState × Mm → Prop
  | mappages {s s' : KState} {mm mm' : Mm} {r : ℤ} (vma : Vma) :
    vma.pteFlags < 1024 → mmMappages L mm vma s = .ok (r, mm') s' → Call L (s, mm) (s', mm')
  | mappagesat {s s' : KState} {mm mm' : Mm} {o : Option Vma} (va pa flags : ℕ) (add : Bool) :
    (Op.mappagesat va pa flags add).Proper L s mm →
    mmMappagesat L mm va pa flags add s = .ok (o, mm') s' → Call L (s, mm) (s', mm')
  | freevma {s s' : KState} {mm : Mm} (vma : Vma) (free : Bool) :
    freevma L mm vma free s = .ok () s' → Call L (s, mm) (s', mm)
  | freePages {s s' : KState} {mm mm' : Mm} :
    mmFreePages L mm s = .ok mm' s' → Call L (s, mm) (s', mm')
  | kallocpage {s s' : KState} {mm : Mm} {pa : ℕ} :
    kallocpage L s = .ok pa s' → Call L (s, mm) (s', mm)

/-- Every frame that was free is free again, and as many are. -/
def GivesBack (L : Layout) (s s' : KState) : Prop :=
  ∀ fs fs', FreeOk L s fs → FreeOk L s' fs' → (∀ f ∈ fs, f ∈ fs') ∧ fs'.length = fs.length

/-- The frame `t` is a page-table page of the `mm` below the root. -/
def Table (L : Layout) (t : ℕ) (c : KState × Mm) : Prop :=
  ∃ A : View Unit, Inv L c.1 c.2 A ∧ A.held = ∅ ∧ ∃ p, p ≠ [] ∧ p.length ≤ 2 ∧ A.tbl () p = some t

/-! ### Calls keep the page-table pages -/

theorem Table.grew {A B : View Unit} (hinv : Inv L s mm A) (hheld : A.held = ∅)
    (ht : ∃ p, p ≠ [] ∧ p.length ≤ 2 ∧ A.tbl () p = some t) (hB : Reps L s' B) (hG : Grew A B ())
    (hpgt : mm'.pgt = mm.pgt) : Table L t (s', mm') := by
  obtain ⟨p, h1, h2, h3⟩ := ht
  exact ⟨B, hinv.grew hB hG hpgt, hG.held.trans hheld, p, h1, h2, hG.tbl _ _ _ h3⟩

theorem wp_kread64_same {k : ℕ} : wp (kread64 L k) s (fun _ s' => s' = s) fun _ _ => True := by
  unfold kread64
  exact wp_bind.mpr (wp_ensure.mpr ⟨fun _ => wp_bind.mpr (wp_get.mpr rfl), fun _ => trivial⟩)

theorem wp_vmPrintWalk (n pgt : ℕ) (s : KState) :
    wp (vmPrintWalk L n pgt) s (fun _ s' => s' = s) fun _ _ => True := by
  induction n generalizing pgt with
  | zero =>
    rw [vmPrintWalk]
    exact wp_pure.mpr rfl
  | succ n ih =>
    rw [vmPrintWalk]
    generalize List.range 512 = is
    refine wp_forM (fun _ s' => s' = s) (fun i _ s₁ hs₁ => ?_) is s rfl
    refine wp_seq wp_kread64_same fun pte s₂ hs₂ => ?_
    rw [hs₂, hs₁]
    split_ifs
    · exact wp_bind.mpr (wp_ensure.mpr ⟨fun _ => ih _, fun _ => trivial⟩)
    · exact wp_pure.mpr rfl

/-- The printer changes nothing. -/
theorem wp_vmPrint_seq {α : Type} {pgt : ℕ} {x : KM Unit} {y : KM α} {Q : α → KState → Prop}
    (hx : vmPrint L pgt = x) (h : wp y s Q fun _ _ => True) :
    wp (x >>= fun _ => y) s Q fun _ _ => True := by
  rw [← hx]
  unfold vmPrint
  generalize 3 = n
  refine wp_seq (wp_vmPrintWalk n pgt s) fun _ s' hs' => ?_
  rw [hs']
  exact h

theorem Table.mappages {vma : Vma} {r : ℤ} (h : Table L t (s, mm)) (hfl : vma.pteFlags < 1024)
    (hx : mmMappages L mm vma s = .ok (r, mm') s') : Table L t (s', mm') := by
  obtain ⟨A, hinv, hheld, ht⟩ := h
  obtain ⟨hA, q, hq, hpgt⟩ := hinv
  by_cases hvma : Vma.Valid vma
  swap
  · have : wp (mmMappages L mm vma) s (fun _ _ => False) fun _ s' => s' = s :=
      wp_mmMappages_invalid hfl hvma
    exact ((wp_of_eq_ok hx).mp this).elim
  obtain ⟨hs', ho⟩ := (wp_of_eq_ok hx).mp (wp_mmMappages hA hq hpgt hvma)
  refine Table.grew ⟨hA, q, hq, hpgt⟩ hheld ht hs'.reps (mapPages_grew _ _ _) ?_
  have hmm : mm' = listed mm vma (mapPages () vma.pteFlags (vpns vma) A).2 := congrArg Prod.snd ho
  rw [hmm, listed_pgt]

theorem Table.mappagesat {va pa fl : ℕ} {add : Bool} {o : Option Vma} (h : Table L t (s, mm))
    (hpr : (Op.mappagesat va pa fl add).Proper L s mm)
    (hx : mmMappagesat L mm va pa fl add s = .ok (o, mm') s') : Table L t (s', mm') := by
  obtain ⟨A, hinv, hheld, ht⟩ := h
  obtain ⟨hfl, hpa, hal, hno⟩ := hpr
  have hinv' := hinv
  obtain ⟨hA, q, hq, hpgt⟩ := hinv'
  by_cases hva : va ≤ MAXVA
  swap
  · exfalso
    have : wp (mmMappagesat L mm va pa fl add) s (fun _ _ => False) fun _ _ => True := by
      unfold mmMappagesat Walk.walk
      refine wp_seq (wp_trivial) fun _ s₁ _ => ?_
      exact wp_bind.mpr (wp_bind.mpr (wp_ensure.mpr ⟨fun hc => absurd hc hva, fun _ => trivial⟩))
    exact (wp_of_eq_ok hx).mp this
  by_cases hV : Has (A.pte () (va / 4096)) PTE_V
  · -- the remap is reported; the walk may have grown the tree
    have : wp (mmMappagesat L mm va pa fl add) s (fun o s' => Table L t (s', o.2))
        fun _ _ => True := by
      unfold mmMappagesat
      refine wp_bind.mpr (wp_kallocVma (fun _ => ?_) fun _ => trivial)
      have h' := Reps.objs hA s.mmObjs (s.vmaObjs + 1)
      refine (wp_walk_alloc h' hq hpgt hva).seq ?_
      rintro o s₁ ⟨hs₁, ho, -⟩
      have hT : Table L t (s₁, mm) := Table.grew hinv hheld ht hs₁.reps (walk_grew _) rfl
      cases o with
      | none => exact wp_pure.mpr hT
      | some ptep =>
        refine wp_bind.mpr (wp_readSlot hs₁.reps (vpn_lt hva) ho.symm ?_)
        rw [if_pos (by rw [walk_pte]; exact hV)]
        generalize hx : vmPrint L mm.pgt = x
        exact wp_vmPrint_seq hx (wp_pure.mpr hT)
    exact (wp_of_eq_ok hx).mp this
  · have hspec := wp_mmMappagesat (Q := fun o s' => Table L t (s', o.2)) (E := fun _ _ => True) hA hq
      hpgt add hva hpa hal hfl (fun hF => hinv.unowned hheld (hno hF)) hV (fun _ => trivial)
      fun s₂ hs₂ _ _ _ => Table.grew hinv hheld ht hs₂ (mapAt_grew _ _ _ _) ?_
    · exact (wp_of_eq_ok hx).mp hspec
    · split_ifs <;> simp [listed_pgt]

theorem Table.freevma {vma : Vma} {free : Bool} (h : Table L t (s, mm))
    (hx : Map.freevma L mm vma free s = .ok () s') : Table L t (s', mm) := by
  obtain ⟨A, hinv, hheld, p, h1, h2, h3⟩ := h
  exact ⟨_, (hinv.freevma hx).1, by rw [unmapPages_held, hheld], p, h1, h2,
    by rw [unmapPages_tbl, h3]⟩

/-- The loop of `mm_free_pages` over any vmas. -/
theorem Table.freeVmas : ∀ (vmas : List Vma) (s : KState), Table L t (s, mm) →
    wp (forM vmas fun vma => do Map.freevma L mm vma true; kfreeVma) s
      (fun _ s' => Table L t (s', mm)) fun _ _ => True
  | [], _, h => h
  | vma :: vmas, s, h => by
    rw [List.forM_cons]
    refine wp_seq (wp_seq (Q := fun _ s' => Table L t (s', mm)) ?_ fun _ s₁ h₁ => ?_)
      fun _ s₂ h₂ => Table.freeVmas vmas s₂ h₂
    · cases hx : Map.freevma L mm vma true s with
      | ok u s₁ => exact (wp_of_eq_ok hx).mpr (h.freevma hx)
      | error e s₁ => exact (wp_of_eq_error hx).mpr trivial
    · obtain ⟨A, ⟨hA, hroot⟩, h⟩ := h₁
      exact wp_modify.mpr ⟨A, ⟨Reps.objs hA _ _, hroot⟩, h⟩

theorem Table.wp_freePages (h : Table L t (s, mm)) :
    wp (mmFreePages L mm) s (fun mm' s' => Table L t (s', mm') ∧ mm' = { mm with vma := [] })
      fun _ _ => True := by
  unfold mmFreePages
  refine wp_seq (Table.freeVmas mm.vma s h) fun _ s₁ h₁ => wp_pure.mpr ⟨?_, rfl⟩
  obtain ⟨A, ⟨hA, q, hq, hpgt⟩, h⟩ := h₁
  exact ⟨A, ⟨hA, q, hq, hpgt⟩, h⟩

/-- **No call drops a page-table page.** -/
theorem Call.keeps {c c' : KState × Mm} (hcall : Call L c c') (h : Table L t c) : Table L t c' := by
  cases hcall with
  | mappages vma hfl hx => exact h.mappages hfl hx
  | mappagesat va pa flags add hpr hx => exact h.mappagesat hpr hx
  | freevma vma free hx => exact h.freevma hx
  | freePages hx => exact ((wp_of_eq_ok hx).mp h.wp_freePages).1
  | @kallocpage s s' mm pa hx =>
    obtain ⟨A, ⟨hA, q, hq, hpgt⟩, hheld, p, h1, h2, h3⟩ := h
    have hG := grab_grew A ()
    have : wp (Mem.Kalloc.kallocpage L) s (fun _ s' => Reps L s' (grab A).1) fun _ _ => True :=
      wp_grab hA fun s' hs' _ _ _ => hs'
    exact ⟨_, ⟨(wp_of_eq_ok hx).mp this, q, (hG.root ()).trans hq, hpgt⟩, hG.held.trans hheld, p, h1,
      h2, hG.tbl _ _ _ h3⟩

/-! ### The end -/

/-- Giving back the root does not give back another page-table page. -/
theorem Table.wp_kfreepage {k : ℕ} (h : Table L t (s, mm)) (hk : KVA_TO_PA mm.pgt = k) :
    wp (kfreepage L k) s (fun _ s' => ∃ fs', FreeOk L s' fs' ∧ t ∉ fs') fun _ _ => True := by
  obtain ⟨A, ⟨hA, q, hq, hpgt⟩, -, p, hp, hp2, hpt⟩ := h
  have hqF : L.Frame q := hA.ok.frame_tbl (i := ()) (p := []) (by simp) hq
  have htq : t ≠ q := by
    rintro rfl
    exact hp (hA.ok.tbl_inj hp2 (by simp) hpt hq).2
  have htfree : t ∉ A.free := fun hm => hA.ok.free_ne_tbl hp2 hm hpt rfl
  have hnot : t ∉ ((A.dropRoot ()).give q).free := by
    rw [View.give_free]
    exact fun hm => (List.mem_cons.mp hm).elim htq htfree
  have hroot : k = q := by
    rw [← hk, hpgt]
    exact KVA_TO_PA_PA_TO_KVA (by have := hqF.lt; omega)
  rw [hroot]
  have hgive := (hA.dropRoot ()).give hqF (unowned_dropRoot hA.ok hq)
  exact Mem.Kalloc.wp_kfreepage hqF ⟨_, hgive.freeOk, hnot⟩

/-- **`mm_free` leaves the page-table pages below the root where they are.** -/
theorem Table.leaks {fs : List ℕ} (h : Table L t (s, mm)) (hx : mmFree L mm s = .ok () s')
    (hfs : FreeOk L s₀ fs) (ht : t ∈ fs) : ¬ GivesBack L s₀ s' := by
  have hpost : wp (mmFree L mm) s (fun _ s' => ∃ fs', FreeOk L s' fs' ∧ t ∉ fs')
      fun _ _ => True := by
    unfold mmFree
    refine wp_seq h.wp_freePages fun mm' s₁ h₁ => ?_
    generalize hk : KVA_TO_PA mm'.pgt = k
    refine wp_seq (h₁.1.wp_kfreepage hk) fun _ s₂ h₂ => ?_
    split_ifs
    · refine wp_modify.mpr (h₂.imp fun fs' hfs' => ⟨?_, hfs'.2⟩)
      exact ⟨hfs'.1.chain, hfs'.1.nodup, hfs'.1.frame⟩
    · exact wp_pure.mpr h₂
  obtain ⟨fs', hfs', hnot⟩ := (wp_of_eq_ok hx).mp hpost
  exact fun hg => hnot ((hg fs fs' hfs hfs').1 t ht)

/-! ### The start -/

/-- A trampoline that is mapped has a page-table page below the root. -/
theorem trampoline_table {A : View Unit} {f : ℕ} (hok : (trampolineView L A () f).2 = true) :
    ∃ t, (trapframeView L A () f).1.tbl () (path trampolineVpn) = some t := by
  obtain ⟨hwalk, -, he⟩ := andThen_true hok
  obtain ⟨t, ht⟩ := Option.isSome_iff_exists.mp (walk_isSome hwalk)
  have hG : Grew (Growth.walk (A.take.newRoot () f) () trampolineVpn).1
      (trampolineView L A () f).1 () := by
    unfold trampolineView mapAt
    rw [he]
    split_ifs with hV
    · exact Grew.refl _ _
    · exact Grew.setPte hV
  have hG' : Grew (trampolineView L A () f).1 (trapframeView L A () f).1 () :=
    (grab_grew _ ()).trans (mapAt_grew _ _ _ _)
  exact ⟨t, hG'.tbl _ _ _ (hG.tbl _ _ _ ht)⟩

/-- The trampoline takes a page-table page below the root. -/
theorem table_allocMm {fs : List ℕ} {o : NewMm} {vma : Vma} (hfree : FreeOk L s₀ fs)
    (hlog : LogOk s₀.log fs) (hx : allocMm L s₀ = .ok o s₁) (ho : o.vmaTrampoline = some vma) :
    ∃ t ∈ fs, Table L t (s₁, o.mm) := by
  have hA : Reps L s₀ (bootView Unit s₀ fs ∅) := reps_boot hfree hlog (by simp)
  have hspec : wp (allocMm L) s₀ (fun o s₁ => ∀ vma, o.vmaTrampoline = some vma →
      ∃ t ∈ fs, Table L t (s₁, o.mm)) fun _ _ => True := by
    refine wp_allocMm hA () (fun _ => trivial) (fun _ _ _ _ _ _ => trivial)
      (fun _ _ _ _ _ _ => trivial) (fun _ _ _ => trivial) fun f gs hgs _ _ s' hs' _ _ _ vma hsome => ?_
    have hok : (trampolineView L (bootView Unit s₀ fs ∅) () f).2 = true := by
      by_contra hc
      change (if _ then _ else _) = _ at hsome
      rw [if_neg hc] at hsome
      cases hsome
    have hG := trapframeView_grew (L := L) (A := bootView Unit s₀ fs ∅) (i := ()) f
    obtain ⟨t, ht⟩ := trampoline_table hok
    refine ⟨t, ?_, _, ⟨hs', f, ?_, rfl⟩, hG.held, path trampolineVpn, path_ne_nil _, path_length _, ht⟩
    · rcases hG.tbl_new _ _ _ ht with hold | ⟨-, hnew⟩
      · rw [newRoot_tbl, if_neg (path_ne_nil _)] at hold
        cases hold
      · exact hnew
    · rw [hG.root, newRoot_tbl, if_pos rfl]
  exact (wp_of_eq_ok hx).mp hspec vma ho

/-! ### The life of a process -/

/-- **`mm_free` never gives back all frames**: whatever is called on an `mm` between its making in
`allocproc` and its end in `freeproc`. -/
theorem mm_free_leaks {fs : List ℕ} {o : NewMm} {vt vf : Vma} (hfree : FreeOk L s₀ fs)
    (hlog : LogOk s₀.log fs) (hx : allocMm L s₀ = .ok o s₁) (hvt : o.vmaTrampoline = some vt)
    (_hvf : o.vmaTrapframe = some vf) (hrun : Relation.ReflTransGen (Call L) (s₁, o.mm) (s₂, mm))
    (h₃ : freevma L mm vt false s₂ = .ok () s₃) (h₄ : freevma L mm vf true s₃ = .ok () s₄)
    (h₅ : mmFree L mm s₄ = .ok () s₅) : ¬ GivesBack L s₀ s₅ := by
  obtain ⟨t, ht, htab⟩ := table_allocMm hfree hlog hx hvt
  have hrun' : ∀ c, Relation.ReflTransGen (Call L) (s₁, o.mm) c → Table L t c := by
    intro c hc
    induction hc with
    | refl => exact htab
    | tail _ hcall ih => exact hcall.keeps ih
  exact (((hrun' _ hrun).freevma h₃).freevma h₄).leaks h₅ hfree ht

/-- A process that is made and reaped at once. -/
theorem exists_life : ∃ s₀ s₁ s₂ s₃ s₄ o vt vf,
    FreeOk sampleLayout s₀ (framesFrom sampleLayout 0 15360) ∧
    LogOk s₀.log (framesFrom sampleLayout 0 15360) ∧
    allocMm sampleLayout s₀ = .ok o s₁ ∧ o.vmaTrampoline = some vt ∧ o.vmaTrapframe = some vf ∧
    freevma sampleLayout o.mm vt false s₁ = .ok () s₂ ∧
    freevma sampleLayout o.mm vf true s₂ = .ok () s₃ ∧ mmFree sampleLayout o.mm s₃ = .ok () s₄ := by
  obtain ⟨s₀, -, hfree, hlog, hroom⟩ := sample_room
  have hA : Reps sampleLayout s₀ (bootView Unit s₀ (framesFrom sampleLayout 0 15360) ∅) :=
    reps_boot hfree hlog (by simp)
  have hinv : Family.Inv (ι := Unit) sampleLayout (s₀, fun _ => none) :=
    ⟨_, hA, fun i mm hm => by cases hm⟩
  obtain ⟨o, s₁, hx, hroom₁, -⟩ := create_enabled (n := 0) hinv (hroom.mono (by decide)) ()
  obtain ⟨B, f, -, hB, -, hfresh, hvt, hvf, -⟩ := wet.elim (wet_allocMm hA ()) hx hroom₁.wet
  obtain ⟨s₂, s₃, s₄, hx₂, hx₃, hx₄⟩ := Lives.reap_enabled hB hfresh.userMm
  exact ⟨s₀, s₁, s₂, s₃, s₄, o, _, _, hfree, hlog, hx, hvt, hvf, hx₂, hx₃, hx₄⟩

theorem mm_free_leaks_sample : ∃ s₀ s₁ o, allocMm sampleLayout s₀ = .ok o s₁ ∧
    ∃ s₂ s₃ s₄ vt vf, freevma sampleLayout o.mm vt false s₁ = .ok () s₂ ∧
      freevma sampleLayout o.mm vf true s₂ = .ok () s₃ ∧ mmFree sampleLayout o.mm s₃ = .ok () s₄ ∧
      ¬ GivesBack sampleLayout s₀ s₄ := by
  obtain ⟨s₀, s₁, s₂, s₃, s₄, o, vt, vf, hfree, hlog, hx, hvt, hvf, hx₂, hx₃, hx₄⟩ := exists_life
  exact ⟨s₀, s₁, o, hx, s₂, s₃, s₄, vt, vf, hx₂, hx₃, hx₄,
    mm_free_leaks hfree hlog hx hvt hvf Relation.ReflTransGen.refl hx₂ hx₃ hx₄⟩

/-- **Not every life gives back its frames.** -/
theorem not_givesBack : ¬ ∀ (L : Layout) (s₀ s₁ s₂ s₃ s₄ s₅ : KState) (fs : List ℕ) (o : NewMm) (mm : Mm)
    (vt vf : Vma), FreeOk L s₀ fs → LogOk s₀.log fs → allocMm L s₀ = .ok o s₁ →
    o.vmaTrampoline = some vt → o.vmaTrapframe = some vf →
    Relation.ReflTransGen (Call L) (s₁, o.mm) (s₂, mm) → freevma L mm vt false s₂ = .ok () s₃ →
    freevma L mm vf true s₃ = .ok () s₄ → mmFree L mm s₄ = .ok () s₅ → GivesBack L s₀ s₅ := by
  intro h
  obtain ⟨s₀, s₁, s₂, s₃, s₄, o, vt, vf, hfree, hlog, hx, hvt, hvf, hx₂, hx₃, hx₄⟩ := exists_life
  obtain ⟨t, ht, htab⟩ := table_allocMm hfree hlog hx hvt
  exact ((htab.freevma hx₂).freevma hx₃).leaks hx₄ hfree ht
    (h _ _ _ _ _ _ _ _ _ _ _ _ hfree hlog hx hvt hvf .refl hx₂ hx₃ hx₄)

end UCore.Vm.Leak

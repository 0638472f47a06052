import UCore.Vm.Uaccess

/-! # What a failed mapping leaves

`mm_mappages` returns `-1` from the middle of its loop and undoes nothing: the page-table pages, the
frames and the entries of the pages before stay. So the `mm` is as before exactly where nothing was
done yet (`mappages_undone_iff`). -/

namespace UCore.Vm.Rollback

open UCore.Lib.Bytes UCore.Lib.Hoare UCore.Riscv UCore.Mem.State UCore.Mem.Kalloc UCore.Mem.Boot
open UCore.Vm.Spaces UCore.Vm.Tables UCore.Vm.Growth UCore.Vm.Walk UCore.Vm.Map UCore.Vm.Refine
open UCore.Vm.VmaList UCore.Vm.Count UCore.Vm.Fill UCore.Vm.Copy UCore.Vm.Process UCore.Vm.Family

variable {ι : Type} {L : Layout} {s s' : KState} {A B : View ι} {i j : ι} {mm mm' : Mm}
  {fl r v w : ℕ} {vs : List ℕ}

/-! ### What it should do -/

/-- The `mm` is as it was in the state `s`: the same translations, the same list, and every frame that
was free is free. -/
structure Undone (L : Layout) (s s' : KState) (mm mm' : Mm) : Prop where
  walkaddr : ∀ va pa, walkaddr L mm va s = .ok pa s ↔ walkaddr L mm' va s' = .ok pa s'
  vma : mm'.vma = mm.vma
  frames : ∀ fs fs', FreeOk L s fs → FreeOk L s' fs' → ∀ f ∈ fs, f ∈ fs'

/-- Nothing is done at the first page: it is mapped, or there is no frame, and its page-table page is
missing or the vma is not one for the user. -/
def NothingDone (s : KState) (mm : Mm) (vma : Vma) : Prop :=
  Has (pteAt s.mem mm (vma.vmStart / 4096)) PTE_V ∨
    s.freelist = 0 ∧ (tblOf s.mem (some (KVA_TO_PA mm.pgt)) (path (vma.vmStart / 4096)) = none ∨
      ¬ Has vma.pteFlags PTE_U)

/-! ### The first page -/

theorem missing_eq_zero (h : Reps L s A) (v : ℕ) :
    missing (A.tbl i) [v] = 0 ↔ A.tbl i (path v) ≠ none := by
  have hup : A.tbl i [px 2 v] = none → A.tbl i (path v) = none := fun hn => by
    have hcon := h.tbl_concat (i := i) (p := [px 2 v]) (k := px 1 v) (by simp)
    rw [hn] at hcon
    exact hcon
  rw [missing_single]
  constructor
  · intro h0 hn
    rw [if_pos hn] at h0
    omega
  · intro hn
    rw [if_neg hn, if_neg fun hc => hn (hup hc)]

variable [DecidableEq ι]

/-- An entry after the mapping is the old one, or a new one for what the free list supplied. -/
theorem mapPage_pte (A : View ι) (i : ι) (fl v w : ℕ) :
    (mapPage A i fl v).1.pte i w = A.pte i w ∨ ¬ Has (A.pte i w) PTE_V ∧
      ∃ f, (f = 2 ^ 38 ∨ f ∈ A.free) ∧ (mapPage A i fl v).1.pte i w = mkPte f fl := by
  by_cases hwv : w = v
  swap
  · exact Or.inl (mapPage_pte_of_ne hwv)
  subst hwv
  obtain ⟨-, -, e⟩ | ⟨-, -, -, e⟩ | ⟨-, -, hV, e⟩ := mapPage_cases A i fl w
  · rw [e, walk_pte]
    exact Or.inl rfl
  · rw [e, walk_pte]
    exact Or.inl rfl
  · rw [e]
    refine Or.inr ⟨hV, ?_⟩
    show ∃ f, _ ∧ (supply _ i fl w).pte i w = _
    unfold supply
    cases hfree : (Growth.walk A i w).1.free with
    | nil => exact ⟨2 ^ 38, Or.inl rfl, View.setPte_pte_self ..⟩
    | cons f fs =>
      have hf : f ∈ A.free := (walk_grew (A := A) (i := i) w).free.subset (by rw [hfree]; simp)
      exact ⟨f, Or.inr hf, View.setPte_pte_self ..⟩

theorem mapPages_pte : ∀ (vs : List ℕ) (A : View ι) (w : ℕ),
    (mapPages i fl vs A).1.pte i w = A.pte i w ∨ ¬ Has (A.pte i w) PTE_V ∧
      ∃ f, (f = 2 ^ 38 ∨ f ∈ A.free) ∧ (mapPages i fl vs A).1.pte i w = mkPte f fl
  | [], _, _ => Or.inl rfl
  | v :: vs, A, w => by
    rw [mapPages]
    have hG := mapPage_grew (A := A) (i := i) fl v
    refine andThen_induct (P := fun B => B.pte i w = A.pte i w ∨ ¬ Has (A.pte i w) PTE_V ∧
      ∃ f, (f = 2 ^ 38 ∨ f ∈ A.free) ∧ B.pte i w = mkPte f fl) (mapPage_pte A i fl v w) fun _ => ?_
    have hrest := mapPages_pte vs (mapPage A i fl v).1 w
    rcases hrest with hsame | ⟨hV, f, hf, he⟩
    · rw [hsame]
      exact mapPage_pte A i fl v w
    · refine Or.inr ⟨fun hc => hV ?_, f, hf.imp_right fun hm => hG.free.subset hm, he⟩
      rw [hG.valid w hc]
      exact hc

omit [DecidableEq ι] in
theorem userTarget_limit (hU : Has fl PTE_U) (hfl : fl < 1024) :
    userTarget (mkPte (2 ^ 38) fl) = 2 ^ 38 := by
  unfold userTarget
  rw [if_pos ⟨has_mkPte_V _ _, (has_mkPte_U (by norm_num)).mpr hU⟩, PTE2PA_mkPte (by norm_num) hfl]
  norm_num

/-- Without a free frame the pages that a vma not for the user maps are not for the user. -/
theorem userTarget_mapPages (hfree : A.free = []) (hU : ¬ Has fl PTE_U) (w : ℕ) :
    userTarget ((mapPages i fl vs A).1.pte i w) = userTarget (A.pte i w) := by
  rcases (mapPages_pte vs A w : (mapPages i fl vs A).1.pte i w = _ ∨ _) with hsame | ⟨hV, f, hf, he⟩
  · rw [hsame]
  · have hf' : f = 2 ^ 38 := hf.resolve_right (by rw [hfree]; simp)
    have hn : ¬ Has (mkPte f fl) PTE_U := by
      rw [has_mkPte_U (by rw [hf']; norm_num)]
      exact hU
    unfold userTarget
    rw [he, if_neg fun hc => hn hc.2, if_neg fun hc => hV hc.1]

/-- Views that agree on the translations and the free frames. -/
def SameUse (A B : View ι) (i : ι) : Prop :=
  (∀ w ≤ 2 ^ 26, userTarget (B.pte i w) = userTarget (A.pte i w)) ∧ ∀ f ∈ A.free, f ∈ B.free

/-- **Where nothing is done**: at the first page, or with no frame for no user. -/
theorem sameUse_iff (h : Reps L s A) (hv : v < 2 ^ 26) (hfl : fl < 1024) :
    SameUse A (mapPages i fl (v :: vs) A).1 i ↔ Has (A.pte i v) PTE_V ∨
      A.free = [] ∧ (A.tbl i (path v) = none ∨ ¬ Has fl PTE_U) := by
  have hnv : v < NVPN := by rw [NVPN_eq]; omega
  obtain ⟨hlt, hw, e⟩ | ⟨hle, hw, hV, e⟩ | ⟨hle, hw, hV, e⟩ := mapPage_cases A i fl v
  · -- the walk of the first page took what was left
    have hB : (mapPages i fl (v :: vs) A).1 = (Growth.walk A i v).1 := by
      rw [mapPages, andThen_of_false (by rw [e]), e]
    have hmiss : A.tbl i (path v) = none := by
      by_contra hc
      have := (missing_eq_zero h v).mpr hc
      omega
    have hnV : ¬ Has (A.pte i v) PTE_V := by
      rw [h.pte_eq_zero hnv hmiss]
      exact not_has_zero _
    rw [hB]
    constructor
    · rintro ⟨-, hfree⟩
      refine Or.inr ⟨List.eq_nil_iff_forall_not_mem.mpr fun f hf => ?_, Or.inl hmiss⟩
      have hf' := hfree f hf
      rw [walk_short_free hw] at hf'
      cases hf'
    · rintro (hc | ⟨hfree, -⟩)
      · exact absurd hc hnV
      · refine ⟨fun w _ => by rw [walk_pte], fun f hf => ?_⟩
        rw [hfree] at hf
        cases hf
  · -- the first page is mapped, so its page-table pages are there
    have hB : (mapPages i fl (v :: vs) A).1 = (Growth.walk A i v).1 := by
      rw [mapPages, andThen_of_false (by rw [e]), e]
    rw [hB]
    refine iff_of_true ⟨fun w _ => by rw [walk_pte], fun f hf => ?_⟩ (Or.inl hV)
    have hsuf := (walk_grew (A := A) (i := i) v).free
    have hlen := walk_free hw
    obtain ⟨t, ht⟩ := h.tbl_isSome hnv hV
    rw [(missing_eq_zero h v).mpr (by rw [ht]; simp)] at hlen
    rw [hsuf.eq_of_length (by omega)]
    exact hf
  · -- the first page is given something
    have h1 : (mapPage A i fl v).2 = true := by rw [e]
    have hB : (mapPages i fl (v :: vs) A).1 = (mapPages i fl vs (mapPage A i fl v).1).1 := by
      rw [mapPages, andThen_of_true h1]
    have hG := mapPages_grew (i := i) fl vs (mapPage A i fl v).1
    obtain ⟨-, hlen, -⟩ := mapPage_true_dry h1
    obtain ⟨-, hVC, -⟩ := mapPage_true h1
    constructor
    · rintro ⟨htarget, hfree⟩
      have hnil : A.free = [] := by
        by_contra hne
        have hpos := List.length_pos_iff.mpr hne
        have hle' := hG.free.length_le
        rw [hB] at hfree
        have hsub := (h.freeOk.nodup.subperm hfree).length_le
        omega
      refine Or.inr ⟨hnil, Or.inr fun hU => ?_⟩
      have hwalk : (Growth.walk A i v).1.free = [] := by
        have := (walk_grew (A := A) (i := i) v).free
        rw [hnil] at this
        exact List.suffix_nil.mp this
      have hpte : (mapPages i fl (v :: vs) A).1.pte i v = mkPte (2 ^ 38) fl := by
        rw [hB, hG.valid v hVC, e]
        show (supply _ i fl v).pte i v = _
        unfold supply
        rw [hwalk]
        exact View.setPte_pte_self ..
      have ht := htarget v (by omega)
      rw [hpte, userTarget_limit hU hfl] at ht
      unfold userTarget at ht
      rw [if_neg fun hc => hV hc.1] at ht
      norm_num at ht
    · rintro (hc | ⟨hfree, hc | hU⟩)
      · exact absurd hc hV
      · have := (missing_eq_zero (i := i) h v).not.mpr (not_not.mpr hc)
        rw [hfree] at hle
        exact absurd hle (by simpa using this)
      · refine ⟨fun w _ => userTarget_mapPages hfree hU w, fun f hf => ?_⟩
        rw [hfree] at hf
        cases hf

/-! ### mm_mappages -/

/-- What `walkaddr` returns, and where it panics. -/
theorem walkaddr_eq (h : Reps L s A) (hr : A.tbl i [] = some r) (hpgt : mm.pgt = PA_TO_KVA r)
    (va pa : ℕ) : walkaddr L mm va s = .ok pa s ↔
      va ≤ MAXVA ∧ PGALIGNED va ∧ pa = userTarget (A.pte i (va / 4096)) := by
  by_cases hva : va ≤ MAXVA ∧ PGALIGNED va
  · obtain ⟨o, s₁, hx, rfl, rfl⟩ := wpOk_iff.mp (wp_walkaddr h hr hpgt hva.1 hva.2)
    rw [hx]
    constructor
    · intro he
      cases he
      exact ⟨hva.1, hva.2, rfl⟩
    · rintro ⟨-, -, rfl⟩
      rfl
  · refine iff_of_false (fun hx => ?_) fun hc => hva ⟨hc.1, hc.2.1⟩
    have hno : wp (walkaddr L mm va) s (fun _ _ => False) fun _ _ => True := by
      unfold walkaddr
      refine wp_bind.mpr (wp_ensure.mpr ⟨fun h1 => ?_, fun _ => trivial⟩)
      exact wp_bind.mpr (wp_ensure.mpr ⟨fun h2 => absurd ⟨h1, h2⟩ hva, fun _ => trivial⟩)
    exact (wp_of_eq_ok hx).mp hno

/-- The states by their views. -/
theorem undone_iff (hA : Reps L s A) (hB : Reps L s' B) (hr : A.tbl i [] = some r)
    (hr' : B.tbl i [] = some r) (hpgt : mm.pgt = PA_TO_KVA r) :
    Undone L s s' mm mm ↔ SameUse A B i := by
  constructor
  · intro hu
    refine ⟨fun w hw => ?_, hu.frames A.free B.free hA.freeOk hB.freeOk⟩
    have hva : 4096 * w ≤ MAXVA := by rw [MAXVA_eq]; omega
    have hal : PGALIGNED (4096 * w) := by rw [PGALIGNED_iff]; omega
    have hdiv : 4096 * w / 4096 = w := by omega
    have ha := (walkaddr_eq hA hr hpgt (4096 * w) _).mpr ⟨hva, hal, rfl⟩
    have hb := (walkaddr_eq hB hr' hpgt (4096 * w) _).mp ((hu.walkaddr _ _).mp ha)
    rw [hdiv] at hb
    exact hb.2.2.symm
  · rintro ⟨htarget, hfree⟩
    refine ⟨fun va pa => ?_, rfl, fun fs fs' hfs hfs' f hf => ?_⟩
    · rw [walkaddr_eq hA hr hpgt, walkaddr_eq hB hr' hpgt]
      refine and_congr_right fun hva => and_congr_right fun _ => ?_
      rw [MAXVA_eq] at hva
      rw [htarget (va / 4096) (by omega)]
    · rw [hfs.unique hA.freeOk] at hf
      rw [hfs'.unique hB.freeOk]
      exact hfree f hf

omit [DecidableEq ι] in
theorem freelist_eq_zero (h : Reps L s A) : s.freelist = 0 ↔ A.free = [] := by
  have hchain := h.chain
  cases hfree : A.free with
  | nil =>
    rw [hfree] at hchain
    exact iff_of_true hchain rfl
  | cons f fs =>
    rw [hfree] at hchain
    have hF := h.ok.frame_free (f := f) (by rw [hfree]; simp)
    refine iff_of_false (fun h0 => hF.kva_ne_zero ?_) (by simp)
    rw [← hchain.1, h0]

omit [DecidableEq ι] in
/-- The root page of an `mm` of the view. -/
theorem root_eq (h : Reps L s A) (hr : A.tbl i [] = some r) (hpgt : mm.pgt = PA_TO_KVA r) :
    KVA_TO_PA mm.pgt = r := by
  have hF := h.ok.frame_tbl (i := i) (p := []) (by simp) hr
  rw [hpgt]
  exact KVA_TO_PA_PA_TO_KVA (by have := hF.lt; omega)

/-- **A failed `mm_mappages` leaves the `mm` as it was** exactly if nothing was done at the first
page. -/
theorem mappages_undone_iff {vma : Vma} (hA : Reps L s A) (hr : A.tbl i [] = some r)
    (hpgt : mm.pgt = PA_TO_KVA r) (hfl : vma.pteFlags < 1024)
    (hx : mmMappages L mm vma s = .ok (-1, mm') s') :
    Undone L s s' mm mm' ↔ NothingDone s mm vma := by
  by_cases hvma : Vma.Valid vma
  swap
  · have hno : wp (mmMappages L mm vma) s (fun _ _ => False) fun _ s' => s' = s :=
      wp_mmMappages_invalid hfl hvma
    exact ((wp_of_eq_ok hx).mp hno).elim
  obtain ⟨hs', ho⟩ := (wp_of_eq_ok hx).mp (wp_mmMappages hA hr hpgt hvma)
  have hmap : (mapPages i vma.pteFlags (vpns vma) A).2 = false := by
    by_contra hc
    rw [Bool.not_eq_false] at hc
    rw [hc] at ho
    have h0 : (-1 : ℤ) = 0 := congrArg Prod.fst ho
    exact absurd h0 (by decide)
  have hmm : mm' = mm := by
    rw [hmap] at ho
    exact congrArg Prod.snd ho
  have hlt : vma.vmStart < vma.vmEnd := by
    by_contra hc
    rw [vpns_of_le (not_lt.mp hc)] at hmap
    cases hmap
  obtain ⟨vs, hvs⟩ := vpns_cons hlt
  have hv : vma.vmStart / 4096 < 2 ^ 26 := hvma.vpn_lt (by rw [hvs]; simp)
  have hr' := (mapPages_grew (i := i) vma.pteFlags (vpns vma) A).root i
  rw [hmm, undone_iff hA hs'.reps hr (hr'.trans hr) hpgt, hvs, sameUse_iff hA hv hfl]
  unfold NothingDone
  generalize vma.vmStart / 4096 = v at hv ⊢
  rw [pteAt_eq hA hr hpgt (by rw [NVPN_eq]; omega), freelist_eq_zero hA, root_eq hA hr hpgt,
    hA.tbl i _ (path_length v), hr]

/-! ### Where the frames for a copy end -/

/-- The page table has no mapping for the user. -/
def NoUser (m : Mem) (mm : Mm) : Prop := ∀ v < NVPN, ¬ UserPte (pteAt m mm v)

/-- At the first page of a vma of the list, when all vmas before it got their frames, the frames end
before its page-table pages are made. -/
def ShortAtFirst (free : ℕ) (tbl : List Idx → Option ℕ) (vmas : List Vma) : Prop :=
  ∃ pre vma post v vs, vmas = pre ++ vma :: post ∧ vpns vma = v :: vs ∧
    needed tbl (listVpns pre) ≤ free ∧
    free < (listVpns pre).length + missing tbl (listVpns pre ++ [v])

omit [DecidableEq ι] in
theorem shortAtFirst_congr {free : ℕ} {tbl tbl' : List Idx → Option ℕ} {vmas : List Vma}
    (h : ∀ p, p.length ≤ 2 → tbl p = tbl' p) :
    ShortAtFirst free tbl vmas ↔ ShortAtFirst free tbl' vmas := by
  have hm : ∀ vs, missing tbl vs = missing tbl' vs := fun vs => missing_congr h
  unfold ShortAtFirst needed
  simp only [hm]

omit [DecidableEq ι] in
/-- The first vma, or those after it with what it leaves. -/
theorem shortAtFirst_cons {free : ℕ} {tbl tbl' : List Idx → Option ℕ} {vma : Vma} {vmas : List Vma}
    (htbl : ∀ p, tbl' p = none ↔ tbl p = none ∧ p ∉ tables (vpns vma)) :
    ShortAtFirst free tbl (vma :: vmas) ↔ (∃ v vs, vpns vma = v :: vs ∧ free < missing tbl [v]) ∨
      needed tbl (vpns vma) ≤ free ∧ ShortAtFirst (free - needed tbl (vpns vma)) tbl' vmas := by
  have hsplit : ∀ xs, missing tbl (vpns vma ++ xs) = missing tbl (vpns vma) + missing tbl' xs :=
    fun xs => missing_append htbl
  constructor
  · rintro ⟨pre, w, post, v, vs, he, hvs, hle, hlt⟩
    cases pre with
    | nil =>
      obtain ⟨rfl, rfl⟩ := List.cons.inj he
      refine Or.inl ⟨v, vs, hvs, ?_⟩
      simpa [listVpns] using hlt
    | cons u pre =>
      obtain ⟨rfl, he'⟩ := List.cons.inj he
      rw [listVpns_cons] at hle hlt
      unfold needed at hle ⊢
      rw [List.append_assoc, hsplit, List.length_append] at hlt
      rw [hsplit, List.length_append] at hle
      exact Or.inr ⟨by omega, pre, w, post, v, vs, he', hvs, by unfold needed; omega, by omega⟩
  · rintro (⟨v, vs, hvs, hlt⟩ | ⟨hle, pre, w, post, v, vs, rfl, hvs, hle', hlt⟩)
    · exact ⟨[], vma, vmas, v, vs, rfl, hvs, by simp [needed, listVpns, missing_nil],
        by simpa [listVpns] using hlt⟩
    · refine ⟨vma :: pre, w, post, v, vs, rfl, hvs, ?_, ?_⟩
      · rw [listVpns_cons]
        unfold needed at hle hle' ⊢
        rw [hsplit, List.length_append]
        omega
      · rw [listVpns_cons, List.append_assoc, hsplit, List.length_append]
        unfold needed at hle hlt
        omega

omit [DecidableEq ι] in
/-- A first vma that does not get its frames decides. -/
theorem shortAtFirst_of_short {free : ℕ} {tbl : List Idx → Option ℕ} {vma : Vma} {vmas : List Vma}
    (hlt : free < needed tbl (vpns vma)) : ShortAtFirst free tbl (vma :: vmas) ↔
      ∃ v vs, vpns vma = v :: vs ∧ free < missing tbl [v] := by
  rw [@shortAtFirst_cons _ _ fun p => if p ∈ tables (vpns vma) then some 0 else tbl p]
  · exact or_iff_left fun hc => by have := hc.1; omega
  · intro p
    by_cases hp : p ∈ tables (vpns vma) <;> simp [hp]

/-! ### The copy of a page that has no frame -/

omit [DecidableEq ι] in
/-- What an empty free list stands for is the null pointer. -/
theorem not_directMapped_limit (n : ℕ) : ¬ L.DirectMapped (PA_TO_KVA (2 ^ 38)) n := by
  have h : PA_TO_KVA (2 ^ 38) = 0 := by decide
  rw [h]
  unfold Layout.DirectMapped KERNEL_DIRECT_MAPPING_BASE
  omega

variable {old new : Mm} {va g t : ℕ}

/-- `mm_copy` does not return from a page that has no frame. -/
theorem wp_copyPage_limit {Q : Unit → KState → Prop} (hri : A.tbl i [] = some r)
    (hrj : A.tbl j [] = some t) (hpi : old.pgt = PA_TO_KVA r) (hpj : new.pgt = PA_TO_KVA t)
    (h : Reps L s A) (hal : PGALIGNED va) (hui : UserFrame L A i (va / 4096) g)
    (hlimit : userTarget (A.pte j (va / 4096)) = 2 ^ 38) :
    wp (copyPage L old new va) s Q fun _ s' => s' = s := by
  have hlt := hui.lt
  have hal' := hal
  rw [PGALIGNED_iff] at hal'
  unfold copyPage
  refine (wp_walkaddr_user h hri hpi hal hui).seq ?_
  rintro a s₁ ⟨hs₁, -⟩
  rw [hs₁]
  refine (wp_walkaddr h hrj hpj (by rw [MAXVA_eq]; omega) hal).seq ?_
  rintro b s₂ ⟨hs₂, hb⟩
  rw [hs₂, hb, hlimit]
  unfold memmove kblit
  rw [if_neg (by decide)]
  refine wp_bind.mpr (wp_ensure.mpr ⟨fun _ => wp_bind.mpr (wp_get.mpr ?_), fun _ => rfl⟩)
  rw [if_neg (by decide)]
  exact wp_bind.mpr (wp_ensure.mpr
    ⟨fun hc => absurd hc (not_directMapped_limit _), fun _ => rfl⟩)

/-- **The copy of a vma that ran out of frames does not return.** -/
theorem wp_copyPages_limit (hri : A.tbl i [] = some r) (hrj : A.tbl j [] = some t)
    (hpi : old.pgt = PA_TO_KVA r) (hpj : new.pgt = PA_TO_KVA t) {vas : List ℕ}
    (hal : ∀ va ∈ vas, PGALIGNED va)
    (hu : ∀ va ∈ vas, UserFrame L A i (va / 4096) (PTE2PA (A.pte i (va / 4096))))
    (hn : ∀ va ∈ vas, userTarget (A.pte j (va / 4096)) = 2 ^ 38 ∨
      UserFrame L A j (va / 4096) (PTE2PA (A.pte j (va / 4096))))
    (hlimit : ∃ va ∈ vas, userTarget (A.pte j (va / 4096)) = 2 ^ 38) (h : Reps L s A) :
    wp (forM vas (copyPage L old new)) s (fun _ _ => False) fun _ s' => Reps L s' A := by
  refine wp_mono (wp_forM (fun l s => Reps L s A ∧ (∀ va ∈ l, va ∈ vas) ∧
    ∃ va ∈ l, userTarget (A.pte j (va / 4096)) = 2 ^ 38) (fun va l s hI => ?_) vas s
    ⟨h, fun _ => id, hlimit⟩) (fun _ _ hI => ?_) fun _ _ => id
  swap
  · obtain ⟨-, -, va, hva, -⟩ := hI
    cases hva
  · obtain ⟨hs, hsub, hex⟩ := hI
    have hva := hsub va (by simp)
    by_cases hlim : userTarget (A.pte j (va / 4096)) = 2 ^ 38
    · refine wp_mono (Q := fun _ _ => False) (wp_copyPage_limit hri hrj hpi hpj hs (hal va hva)
        (hu va hva) hlim) (fun _ _ hF => hF.elim) ?_
      rintro e s' rfl
      exact hs
    · have hfj := (hn va hva).resolve_left hlim
      refine (wp_copyPage hpi hpj hri hrj hs (hal va hva) (hu va hva) hfj).imp ?_
      rintro _ s' rfl
      refine ⟨reps_of_userPage hs hfj (sameOff_blit rfl le_rfl le_rfl),
        fun w hw => hsub w (by simp [hw]), ?_⟩
      obtain ⟨w, hw, hwlim⟩ := hex
      rcases List.mem_cons.mp hw with rfl | hw
      · exact absurd hwlim hlim
      · exact ⟨w, hw, hwlim⟩

/-! ### mm_copy -/

/-- A page that was mapped got a frame, or what an empty free list stands for. -/
theorem limit_or_frame {vma : Vma} (hA : Reps L s A) (hvma : Vma.Valid vma)
    (hU : Has vma.pteFlags PTE_U) (hmap : (mapPages j vma.pteFlags (vpns vma) A).2 = true)
    (hv : v ∈ vpns vma) :
    userTarget ((mapPages j vma.pteFlags (vpns vma) A).1.pte j v) = 2 ^ 38 ∨
      UserFrame L (mapPages j vma.pteFlags (vpns vma) A).1 j v
        (PTE2PA ((mapPages j vma.pteFlags (vpns vma) A).1.pte j v)) := by
  obtain ⟨hn, hV, -⟩ := (mapPages_true hmap).2 v hv
  rcases (mapPages_pte (vpns vma) A v : (mapPages j vma.pteFlags (vpns vma) A).1.pte j v = _ ∨ _) with hsame | ⟨-, f, hf, he⟩
  · rw [hsame] at hV
    exact absurd hV hn
  · rcases hf with rfl | hf
    · rw [he]
      exact Or.inl (userTarget_limit hU hvma.flags)
    · have hu := userFrame_of_pte hvma hU hv (hA.ok.frame_free hf) he
      rw [hu.target]
      exact Or.inr hu

/-- The vma that cannot be mapped, and what `mm_free_pages` leaves of it. -/
theorem noUser_iff {vma : Vma} (hA : Reps L s A) (hnew : UserMm L A j new) (hvma : Vma.Valid vma)
    (hU : Has vma.pteFlags PTE_U) (hv : ∀ v ∈ vpns vma, ¬ Has (A.pte j v) PTE_V)
    (hmap : (mapPages j vma.pteFlags (vpns vma) A).2 = false)
    (hs : Reps L s' (mapPages j vma.pteFlags (vpns vma) A).1) :
    wpOk (mmFreePages L new) s' fun new' s'' => NoUser s''.mem new' ↔
      ∃ v vs, vpns vma = v :: vs ∧ A.free.length < missing (A.tbl j) [v] := by
  have hG := mapPages_grew (i := j) vma.pteFlags (vpns vma) A
  have hl := hnew.listed.grew hG
  obtain ⟨t, ht, hpgt⟩ := hl.root
  refine (wp_mmFreePages hs hl).imp ?_
  rintro _ s'' ⟨rfl, hs'', -⟩
  have ht'' := ht
  rw [← unmapPages_tbl (i := j) true (listVpns new.vma)] at ht''
  have hpte : ∀ v < NVPN, pteAt s''.mem { new with vma := [] } v =
      if v ∈ listVpns new.vma then 0 else (mapPages j vma.pteFlags (vpns vma) A).1.pte j v := by
    intro v hv
    have hpgt' : ({ new with vma := [] } : Mm).pgt = PA_TO_KVA t := hpgt
    rw [pteAt_eq hs'' ht'' hpgt' hv, hl.freed_pte hs j v]
    simp
  cases hvs : vpns vma with
  | nil =>
    rw [hvs] at hmap
    cases hmap
  | cons v vs =>
    have hnV : ¬ Has (A.pte j v) PTE_V := hv v (by rw [hvs]; simp)
    have hlt : v < NVPN := hvma.vpn_lt' (by rw [hvs]; simp)
    have hfirst : (∃ u us, v :: vs = u :: us ∧ A.free.length < missing (A.tbl j) [u]) ↔
        A.free.length < missing (A.tbl j) [v] := by
      constructor
      · rintro ⟨u, us, he, h⟩
        obtain ⟨rfl, -⟩ := List.cons.inj he
        exact h
      · exact fun h => ⟨v, vs, rfl, h⟩
    rw [hfirst]
    obtain ⟨hshort, hw, e⟩ | ⟨-, -, hV, -⟩ | ⟨hle, -, -, e⟩ := mapPage_cases A j vma.pteFlags v
    · refine iff_of_true (fun w hw hu => ?_) hshort
      rw [hpte w hw] at hu
      split_ifs at hu with hm
      · exact not_has_zero _ hu.1
      · rw [hvs, mapPages, andThen_of_false (by rw [e]), e, walk_pte] at hu
        rcases hnew.only w hw hu.1 with h | rfl | rfl
        · exact hm h
        · exact hnew.trampoline.2.1 hu.2
        · exact hnew.trapframe.1.2.1 hu.2
    · exact absurd hV hnV
    · -- the first page was mapped, and it is in no vma of the list
      refine iff_of_false (fun hno => hno v hlt ?_) (not_lt.mpr hle)
      have h1 : (mapPage A j vma.pteFlags v).2 = true := by rw [e]
      have hVC := (mapPage_true h1).2.1
      have hm : v ∉ listVpns new.vma := fun hm => hnV (hnew.listed.valid_leaf hm).2.1
      rw [hpte v hlt, if_neg hm, hvs, mapPages, andThen_of_true h1,
        (mapPages_grew (i := j) vma.pteFlags vs _).valid v hVC]
      refine ⟨hVC, ?_⟩
      rcases mapPage_pte A j vma.pteFlags v v with hsame | ⟨-, f, hf, he⟩
      · rw [hsame] at hVC
        exact absurd hVC hnV
      · have hf64 : f < 2 ^ 64 := by
          rcases hf with rfl | hf
          · norm_num
          · have := (hA.ok.frame_free hf).lt
            omega
        rw [he]
        exact (has_mkPte_U hf64).mpr hU

/-- **`mm_copy` returning -1.** -/
theorem wp_mmCopyLoop_short (hij : i ≠ j) : ∀ {vmas : List Vma} {s : KState} {A : View ι} {new : Mm},
    Reps L s A → Listed L A i old → (∀ vma ∈ vmas, vma ∈ old.vma) → UserMm L A j new →
    (listVpns vmas).Nodup → (∀ v ∈ listVpns vmas, ¬ Has (A.pte j v) PTE_V) →
    wp (mmCopyLoop L old vmas new) s (fun o s' => o.1 = -1 →
      (NoUser s'.mem o.2 ↔ ShortAtFirst A.free.length (A.tbl j) vmas)) fun _ _ => True
  | [], s, A, new, _, _, _, _, _, _ => fun (h0 : (0 : ℤ) = -1) => absurd h0 (by decide)
  | vma :: vmas, s, A, new, h, hi, hsub, hnew, hnd, hfree => by
    have hvma := hsub vma (by simp)
    obtain ⟨hval, hU⟩ := hi.valid vma hvma
    obtain ⟨t, ht, hpj⟩ := hnew.listed.root
    obtain ⟨r, hr, hpi⟩ := hi.root
    have hG := mapPages_grew (i := j) vma.pteFlags (vpns vma) A
    rw [listVpns_cons] at hnd hfree
    obtain ⟨hnd₁, hnd₂, hdisj⟩ := List.nodup_append'.mp hnd
    have hfree₁ : ∀ v ∈ vpns vma, ¬ Has (A.pte j v) PTE_V := fun v hv => hfree v (by simp [hv])
    refine wp_bind.mpr (wp_kallocVma (fun _ => ?_) fun _ => trivial)
    have h' := Reps.objs h s.mmObjs (s.vmaObjs + 1)
    refine (wp_mmMappages h' ht hpj hval).seq ?_
    rintro ⟨o, new'⟩ s₁ ⟨hs₁, ho⟩
    cases hmap : (mapPages j vma.pteFlags (vpns vma) A).2 with
    | false =>
      rw [hmap] at ho
      cases ho
      refine (noUser_iff h hnew hval hU hfree₁ hmap hs₁.reps).seq fun new'' s₂ hno => ?_
      refine wp_pure.mpr fun _ => hno.trans ?_
      exact (shortAtFirst_of_short (needed_of_false hnd₁ hfree₁ hmap)).symm
    | true =>
      rw [hmap] at ho
      cases ho
      have hal : ∀ va ∈ pages vma.vmStart vma.vmEnd, PGALIGNED va := fun va hva =>
        aligned_of_mem_pages hval.start_al hva
      have hmem : ∀ va ∈ pages vma.vmStart vma.vmEnd, va / 4096 ∈ vpns vma := fun va hva =>
        List.mem_map_of_mem hva
      have hui : ∀ v ∈ vpns vma, UserFrame L (mapPages j vma.pteFlags (vpns vma) A).1 i v
          (PTE2PA ((mapPages j vma.pteFlags (vpns vma) A).1.pte i v)) := fun v hv => by
        rw [hG.other i v hij]
        exact (hi.userFrame (mem_listVpns.mpr ⟨vma, hvma, hv⟩)).congr (hG.other i v hij)
      by_cases hout : RunsOutIn A j (vpns vma)
      · -- some page has no frame, and its copy is a page fault
        refine wp_seq (wp_mono (wp_copyPages_limit (i := i) ((hG.root i).trans hr)
          ((hG.root j).trans ht) hpi hpj hal (fun va hva => hui _ (hmem va hva)) (fun va hva => ?_)
          ?_ hs₁.reps) (fun _ _ hF => hF.elim) fun _ _ _ => trivial) fun _ _ hF => hF
        · exact limit_or_frame h hval hU hmap (hmem va hva)
        · obtain ⟨v, hv, -, he⟩ := @runsOut_stored _ _ _ vma.pteFlags _ _ hnd₁ hout
          obtain ⟨va, hva, rfl⟩ := List.mem_map.mp hv
          exact ⟨va, hva, by rw [he, userTarget_limit hU hval.flags]⟩
      · have hsup : Supplied A j vma.pteFlags (vpns vma) := ⟨hmap, fun v hv =>
          stored_of_not_runsOut hnd₁ hout v hv (hfree₁ v hv) ((mapPages_true hmap).2 v hv).2.1⟩
        obtain ⟨hcount, htbl⟩ := mapPages_takes hmap hout
        refine (wp_copyVma h hij hi hvma hnew.listed hsup hs₁.reps hs₁.mem).seq fun _ s₂ hc => ?_
        have ih := wp_mmCopyLoop_short hij hc.1.reps (hi.grew hG) (fun w hw => hsub w (by simp [hw]))
          (hnew.mapped h.ok hval hU hsup) hnd₂ fun v hv => by
            rw [mapPages_pte_of_not_mem fun hv' => hdisj hv' hv]
            exact hfree v (by simp [hv])
        refine wp_mono ih (fun o s' hpost h0 => (hpost h0).trans ?_) fun _ _ => id
        have hneed : needed (A.tbl j) (vpns vma) ≤ A.free.length := by unfold needed; omega
        rw [shortAtFirst_cons htbl, or_iff_right, and_iff_right hneed,
          show A.free.length - needed (A.tbl j) (vpns vma) =
            (mapPages j vma.pteFlags (vpns vma) A).1.free.length by unfold needed; omega]
        rintro ⟨v, vs, hvs, hlt⟩
        have := missing_le_cons (A.tbl j) v vs
        unfold needed at hneed
        rw [hvs] at hneed
        omega

/-- **A failed `mm_copy` leaves no page for the user** exactly if the frames end at the first page of
a vma. -/
theorem copy_noUser_iff {new' : Mm} {fs : List ℕ} (hij : i ≠ j) (hA : Reps L s A)
    (hfs : FreeOk L s fs) (hp : UserMm L A i old) (hnew : FreshMm L A j new)
    (hx : mmCopy L old new s = .ok (-1, new') s') : NoUser s'.mem new' ↔
      ShortAtFirst fs.length (tblOf s.mem (some (KVA_TO_PA new.pgt))) old.vma := by
  obtain ⟨t, ht, hpgt⟩ := hnew.root
  have hspec := wp_mmCopyLoop_short hij hA hp.listed (fun _ => id) hnew.userMm hp.listed.nodup
    fun v hv => hnew.not_valid hp hv
  rw [(wp_of_eq_ok hx).mp hspec rfl, hfs.unique hA.freeOk, root_eq hA ht hpgt, ← ht]
  exact shortAtFirst_congr fun p hp => hA.tbl j p hp

/-! ### Both -/

/-- **What a failed mapping leaves.** A failed `mm_mappages` leaves the `mm` as it was exactly if
nothing was done at the first page; a failed `mm_copy` to a new address space leaves no page for the
user exactly if the frames end at the first page of a vma. -/
theorem failed_mapping_iff (hA : Reps L s A) :
    (∀ i mm vma mm' s', (∃ r, A.tbl i [] = some r ∧ mm.pgt = PA_TO_KVA r) → vma.pteFlags < 1024 →
      mmMappages L mm vma s = .ok (-1, mm') s' →
      (Undone L s s' mm mm' ↔ NothingDone s mm vma)) ∧
    (∀ i j old new new' s', i ≠ j → UserMm L A i old → FreshMm L A j new →
      mmCopy L old new s = .ok (-1, new') s' →
      (NoUser s'.mem new' ↔
        ShortAtFirst A.free.length (tblOf s.mem (some (KVA_TO_PA new.pgt))) old.vma)) := by
  refine ⟨fun i mm vma mm' s' hroot hfl hx => ?_, fun i j old new new' s' hij hp hnew hx =>
    copy_noUser_iff hij hA hA.freeOk hp hnew hx⟩
  obtain ⟨r, hr, hpgt⟩ := hroot
  exact mappages_undone_iff hA hr hpgt hfl hx

/-- Two pages, the second of which is that of `sampleVma`. -/
def twoPages : Vma := ⟨0, 0x2000, PTE_R ||| PTE_W ||| PTE_U⟩

theorem twoPages_valid : Vma.Valid twoPages where
  start_le := by decide
  end_le := by decide
  start_al := by decide
  end_al := by decide
  perm := by decide
  flags := by decide

/-- A process with one page, and a mapping that reaches it after one page more. -/
theorem exists_remap : ∃ (s₀ s s' : KState) (A : View Bool) (mms : Bool → Option Mm) (mm : Mm),
    kpgmgrinit sampleLayout zeroState = .ok () s₀ ∧
    Relation.ReflTransGen (Step sampleLayout) (s₀, fun _ => none) (s, mms) ∧ mms true = some mm ∧
    Reps sampleLayout s A ∧ UserMm sampleLayout A true mm ∧
    mmMappages sampleLayout mm twoPages s = .ok (-1, mm) s' ∧ ¬ NothingDone s mm twoPages := by
  obtain ⟨s₀, hboot, hfree, hlog, hroom⟩ := sample_room
  obtain ⟨s, mm, hrun, hlist, hroom'⟩ := exists_run (n := 1) sampleVma_valid (by decide) (by decide)
    (by decide) hfree hlog (hroom.mono (by decide)) true
  have hmm := Function.update_self true (some mm) fun _ => none
  obtain ⟨A, hA, hall⟩ := invariant hfree hlog hrun
  have hi := hall true mm hmm
  obtain ⟨r, hr, hpgt⟩ := hi.listed.root
  have hvs : vpns twoPages = [0, 1] := by decide
  have h1 : Has (A.pte true 1) PTE_V := (hi.listed.valid_leaf (mem_listVpns.mpr
    ⟨sampleVma, by rw [hlist]; simp, by decide⟩)).2.1
  have hmap : (mapPages true twoPages.pteFlags (vpns twoPages) A).2 = false := by
    by_contra hc
    rw [Bool.not_eq_false] at hc
    exact ((mapPages_true hc).2 1 (by rw [hvs]; simp)).1 h1
  obtain ⟨o, s', hx, -, ho⟩ := wpOk_iff.mp (wp_mmMappages hA hr hpgt twoPages_valid)
  rw [hmap] at ho
  rw [ho] at hx
  refine ⟨s₀, s, s', A, _, mm, hboot, hrun, hmm, hA, hi, hx, ?_⟩
  rintro (hV | ⟨h0, -⟩)
  · change Has (pteAt s.mem mm 0) PTE_V at hV
    rw [pteAt_user hi hA (by decide)] at hV
    rcases hi.only 0 (by decide) hV with hl | hl | hl
    · rw [hlist] at hl
      exact absurd hl (by decide)
    · exact absurd hl (by decide)
    · exact absurd hl (by decide)
  · have hlen := (hroom'.view hA).2
    rw [(freelist_eq_zero hA).mp h0] at hlen
    exact absurd hlen (by decide)

theorem failed_mapping_iff_sample : ∃ (s s' : KState) (mm : Mm),
    mmMappages sampleLayout mm twoPages s = .ok (-1, mm) s' ∧
    (Undone sampleLayout s s' mm mm ↔ NothingDone s mm twoPages) := by
  obtain ⟨s₀, s, s', A, mms, mm, hboot, hrun, hmm, hA, hi, hx, -⟩ := exists_remap
  exact ⟨s, s', mm, hx, (failed_mapping_iff hA).1 true mm twoPages mm s' hi.listed.root (by decide) hx⟩

/-- **The page before a page that was mapped stays mapped.** -/
theorem remap_not_undone : ∃ (s₀ s s' : KState) (mms : Bool → Option Mm) (mm : Mm),
    kpgmgrinit sampleLayout zeroState = .ok () s₀ ∧
    Relation.ReflTransGen (Step sampleLayout) (s₀, fun _ => none) (s, mms) ∧ mms true = some mm ∧
    mmMappages sampleLayout mm twoPages s = .ok (-1, mm) s' ∧ ¬ Undone sampleLayout s s' mm mm := by
  obtain ⟨s₀, s, s', A, mms, mm, hboot, hrun, hmm, hA, hi, hx, hno⟩ := exists_remap
  obtain ⟨r, hr, hpgt⟩ := hi.listed.root
  exact ⟨s₀, s, s', mms, mm, hboot, hrun, hmm, hx, fun hu =>
    hno ((mappages_undone_iff hA hr hpgt (by decide) hx).mp hu)⟩

end UCore.Vm.Rollback

import UCore.Vm.Tables

/-! # Growing an address space

The mapping functions on views. `grow` makes one page-table page, `walk` those a page number still
misses, `mapPage` gives a page number a free frame, `mapPages` a list of them; each stops where the
allocator finds its list empty, except that `mapPage` stores what an empty list stands for like any
other frame (`supply`). The second component says whether the operation came through.

`Grew A B i` is what all of them have in common: `B` came from `A` by using free frames for `i`. -/

namespace UCore.Vm.Growth

open UCore.Riscv UCore.Mem.State UCore.Vm.Spaces UCore.Vm.Tables

variable {ι : Type} {L : Layout} {A B C : View ι} {i : ι}

/-! ### What growing changes -/

/-- `B` came from `A` by using free frames for the address space `i`. -/
structure Grew (A B : View ι) (i : ι) : Prop where
  free : B.free <:+ A.free
  held : B.held = A.held
  dry : A.dry → B.dry
  root : ∀ j, B.tbl j [] = A.tbl j []
  tbl : ∀ j p t, A.tbl j p = some t → B.tbl j p = some t
  tbl_new : ∀ j p t, B.tbl j p = some t → A.tbl j p = some t ∨ (j = i ∧ t ∈ A.free)
  other : ∀ j v, j ≠ i → B.pte j v = A.pte j v
  valid : ∀ v, Has (A.pte i v) PTE_V → B.pte i v = A.pte i v

theorem Grew.refl (A : View ι) (i : ι) : Grew A A i :=
  ⟨List.suffix_rfl, rfl, id, fun _ => rfl, fun _ _ _ => id, fun _ _ _ => Or.inl, fun _ _ _ => rfl,
    fun _ _ => rfl⟩

theorem Grew.trans (h : Grew A B i) (h' : Grew B C i) : Grew A C i where
  free := h'.free.trans h.free
  held := h'.held.trans h.held
  dry hd := h'.dry (h.dry hd)
  root j := (h'.root j).trans (h.root j)
  tbl j p t ht := h'.tbl j p t (h.tbl j p t ht)
  tbl_new j p t ht := by
    rcases h'.tbl_new j p t ht with ht | ⟨hj, ht⟩
    · exact h.tbl_new j p t ht
    · exact Or.inr ⟨hj, h.free.subset ht⟩
  other j v hj := (h'.other j v hj).trans (h.other j v hj)
  valid v hv := by rw [h'.valid v (by rw [h.valid v hv]; exact hv), h.valid v hv]

/-- The kernel's own pages only become fewer. -/
theorem Grew.kernel (h : Grew A B i) : Kernel B ⊆ Kernel A := by
  rintro f (hf | ⟨j, p, hp, hf⟩)
  · exact Or.inl (h.free.subset hf)
  · rcases h.tbl_new j p f hf with hf | ⟨-, hf⟩
    · exact Or.inr ⟨j, p, hp, hf⟩
    · exact Or.inl hf

theorem Grew.starve (A : View ι) (i : ι) : Grew A A.starve i :=
  { Grew.refl A i with dry := fun _ => trivial }

/-- A change of an entry that was not valid. -/
theorem Grew.setPte [DecidableEq ι] {v e : ℕ} (hv : ¬ Has (A.pte i v) PTE_V) :
    Grew A (A.setPte i v e) i :=
  { Grew.refl A i with
    other := fun _ _ hj => View.setPte_pte_of_ne fun hc => hj hc.1
    valid := fun _ hw => View.setPte_pte_of_ne fun hc => hv (hc.2 ▸ hw) }

theorem Grew.take (A : View ι) (i : ι) : Grew A A.take i :=
  { Grew.refl A i with free := List.tail_suffix _ }

/-! ### One operation after another -/

/-- One operation after another, if the first came through. -/
def andThen (r : View ι × Bool) (f : View ι → View ι × Bool) : View ι × Bool :=
  if r.2 then f r.1 else r

variable {r : View ι × Bool} {f : View ι → View ι × Bool}

/-- The rule of `andThen` for a property that both parts have from any state they start in. -/
theorem andThen_induct {P : View ι → Prop} (hr : P r.1) (hf : r.2 = true → P (f r.1).1) :
    P (andThen r f).1 := by
  unfold andThen
  split_ifs with h
  · exact hf h
  · exact hr

theorem andThen_true (h : (andThen r f).2 = true) :
    r.2 = true ∧ (f r.1).2 = true ∧ (andThen r f).1 = (f r.1).1 := by
  unfold andThen at h ⊢
  split_ifs at h ⊢ with hr
  · exact ⟨hr, h, rfl⟩
  · exact absurd h hr

theorem andThen_of_true (h : r.2 = true) : andThen r f = f r.1 := if_pos h

theorem andThen_of_false (h : r.2 = false) : andThen r f = r := by
  unfold andThen; rw [h]; rfl

/-! ### The operations -/

variable [DecidableEq ι]

/-- A new page-table page. -/
theorem Grew.hang {p : List Idx} {f : ℕ} {fs : List ℕ} (hp : p ≠ []) (hnone : A.tbl i p = none)
    (hfree : A.free = f :: fs) : Grew A (A.hang i p f) i :=
  { Grew.refl A i with
    free := List.tail_suffix _
    root := fun j => View.hang_tbl_of_ne fun hc => hp hc.2.symm
    tbl := fun j q t ht => by
      rw [View.hang_tbl_of_ne]
      · exact ht
      · rintro ⟨rfl, rfl⟩; rw [hnone] at ht; cases ht
    tbl_new := fun j q t ht => by
      by_cases hjq : j = i ∧ q = p
      · rw [hjq.1, hjq.2, View.hang_tbl_self, Option.some.injEq] at ht
        exact Or.inr ⟨hjq.1, by rw [← ht, hfree]; simp⟩
      · rw [View.hang_tbl_of_ne hjq] at ht
        exact Or.inl ht }

/-- The page-table page at path `p`, made from the first free frame if it is missing. -/
def grow (A : View ι) (i : ι) (p : List Idx) : View ι × Bool :=
  if (A.tbl i p).isSome then (A, true)
  else match A.free with
    | [] => (A.starve, false)
    | f :: _ => (A.hang i p f, true)

/-- The page-table pages of page number `v`. -/
def walk (A : View ι) (i : ι) (v : ℕ) : View ι × Bool :=
  andThen (grow A i [px 2 v]) fun B => grow B i (path v)

/-- A free frame becomes the target of the entry of `v`, or the address an empty list stands for. -/
def supply (A : View ι) (i : ι) (fl v : ℕ) : View ι :=
  match A.free with
  | [] => A.starve.setPte i v (mkPte (2 ^ 38) fl)
  | f :: _ => A.take.setPte i v (mkPte f fl)

/-- A frame for page number `v`, unless it is mapped. -/
def mapPage (A : View ι) (i : ι) (fl v : ℕ) : View ι × Bool :=
  andThen (walk A i v) fun B =>
    if Has (B.pte i v) PTE_V then (B, false) else (supply B i fl v, true)

/-- A frame for every page number of the list. -/
def mapPages (i : ι) (fl : ℕ) : List ℕ → View ι → View ι × Bool
  | [], A => (A, true)
  | v :: vs, A => andThen (mapPage A i fl v) (mapPages i fl vs)

/-! ### One page-table page -/

theorem grow_cases (A : View ι) (i : ι) (p : List Idx) :
    ((A.tbl i p).isSome = true ∧ grow A i p = (A, true)) ∨
    (A.tbl i p = none ∧ A.free = [] ∧ grow A i p = (A.starve, false)) ∨
    ∃ f fs, A.tbl i p = none ∧ A.free = f :: fs ∧ grow A i p = (A.hang i p f, true) := by
  unfold grow
  cases ht : A.tbl i p with
  | some t => exact Or.inl ⟨rfl, by simp⟩
  | none =>
    cases hfree : A.free with
    | nil => exact Or.inr (Or.inl ⟨rfl, rfl, by simp⟩)
    | cons f fs => exact Or.inr (Or.inr ⟨f, fs, rfl, rfl, by simp⟩)

theorem grow_ok (h : A.Ok L) {p : List Idx} (hp : p.length ≤ 2) : (grow A i p).1.Ok L := by
  obtain ⟨-, e⟩ | ⟨-, -, e⟩ | ⟨f, fs, -, hfree, e⟩ := grow_cases A i p
  · rw [e]; exact h
  · rw [e]; exact h.starve
  · rw [e]; exact h.hang hp hfree

theorem grow_grew {p : List Idx} (hp : p ≠ []) : Grew A (grow A i p).1 i := by
  obtain ⟨-, e⟩ | ⟨-, -, e⟩ | ⟨f, fs, hnone, hfree, e⟩ := grow_cases A i p
  · rw [e]; exact Grew.refl A i
  · rw [e]; exact Grew.starve A i
  · rw [e]; exact Grew.hang hp hnone hfree

theorem grow_pte (p : List Idx) : (grow A i p).1.pte = A.pte := by
  obtain ⟨-, e⟩ | ⟨-, -, e⟩ | ⟨f, fs, -, -, e⟩ := grow_cases A i p <;> rw [e] <;> rfl

theorem grow_snd (p : List Idx) : (grow A i p).2 = ((grow A i p).1.tbl i p).isSome := by
  obtain ⟨h, e⟩ | ⟨h, -, e⟩ | ⟨f, fs, -, -, e⟩ := grow_cases A i p
  · rw [e]; exact h.symm
  · rw [e]; simp [h]
  · rw [e]; simp

theorem grow_dry {p : List Idx} (h : (grow A i p).2 = false) : (grow A i p).1.dry := by
  obtain ⟨-, e⟩ | ⟨-, -, e⟩ | ⟨f, fs, -, -, e⟩ := grow_cases A i p
  · rw [e] at h; cases h
  · rw [e]; trivial
  · rw [e] at h; cases h

/-- The new page-table page is the only one. -/
theorem grow_tbl_of_ne {p q : List Idx} {j : ι} (h : ¬ (j = i ∧ q = p)) :
    (grow A i p).1.tbl j q = A.tbl j q := by
  obtain ⟨-, e⟩ | ⟨-, -, e⟩ | ⟨f, fs, -, -, e⟩ := grow_cases A i p
  · rw [e]
  · rw [e]; rfl
  · rw [e]; exact View.hang_tbl_of_ne h

/-! ### The page-table pages of a page number -/

theorem path_ne_nil (v : ℕ) : path v ≠ [] := by simp [path]

theorem walk_ok (h : A.Ok L) (v : ℕ) : (walk A i v).1.Ok L :=
  andThen_induct (P := (View.Ok L ·)) (grow_ok h (by simp)) fun _ =>
    grow_ok (grow_ok h (by simp)) (path_length v)

theorem walk_grew (v : ℕ) : Grew A (walk A i v).1 i :=
  andThen_induct (P := (Grew A · i)) (grow_grew (by simp)) fun _ =>
    (grow_grew (by simp)).trans (grow_grew (path_ne_nil v))

theorem walk_pte (v : ℕ) : (walk A i v).1.pte = A.pte :=
  andThen_induct (P := fun B => B.pte = A.pte) (grow_pte _) fun _ =>
    (grow_pte _).trans (grow_pte _)

/-! ### With the frames at hand -/

section Frames
variable {p : List Idx} {v e t f fl : ℕ} {fs : List ℕ}

theorem grow_present (h : A.tbl i p = some t) : grow A i p = (A, true) := by
  unfold grow
  rw [h]
  rfl

theorem grow_absent (h : A.tbl i p = none) (hfree : A.free = f :: fs) :
    grow A i p = (A.hang i p f, true) := by
  unfold grow
  rw [h, hfree]
  rfl

theorem walk_of_grow (h2 : grow A i [px 2 v] = (B, true)) (h1 : grow B i (path v) = (C, true)) :
    walk A i v = (C, true) := by
  unfold walk
  rw [h2, andThen_of_true rfl, h1]

theorem mapPage_of_walk (hw : walk A i v = (B, true)) (hV : ¬ Has (B.pte i v) PTE_V)
    (hfree : B.free = f :: fs) : mapPage A i fl v = (B.take.setPte i v (mkPte f fl), true) := by
  unfold mapPage
  rw [hw, andThen_of_true rfl, if_neg hV, supply, hfree]

end Frames

theorem walk_dry {v : ℕ} (h : (walk A i v).2 = false) : (walk A i v).1.dry := by
  unfold walk at h ⊢
  by_cases h2 : (grow A i [px 2 v]).2 = true
  · rw [andThen_of_true h2] at h ⊢
    exact grow_dry h
  · rw [Bool.not_eq_true] at h2
    rw [andThen_of_false h2] at h ⊢
    exact grow_dry h

theorem walk_isSome {v : ℕ} (h : (walk A i v).2 = true) :
    ((walk A i v).1.tbl i (path v)).isSome = true := by
  obtain ⟨-, h2, e⟩ := andThen_true h
  unfold walk
  rw [e, ← grow_snd, h2]

/-! ### A frame for a page number -/

theorem supply_ok (h : A.Ok L) {fl v : ℕ} (hfl : fl < 1024) (hv : v < NVPN) :
    (supply A i fl v).Ok L := by
  unfold supply
  cases hfree : A.free with
  | nil =>
    refine h.starve.setPte hv (fun _ hF => ?_) fun hn => absurd (has_mkPte_V _ _) hn
    rw [PTE2PA_mkPte (by norm_num) hfl] at hF
    have := hF.lt
    norm_num at this
  | cons f fs =>
    have hF : L.Frame f := h.frame_free (by rw [hfree]; simp)
    refine h.take.setPte hv (fun _ _ o ho => ?_) fun hn => absurd (has_mkPte_V _ _) hn
    rw [PTE2PA_mkPte (by have := hF.lt; omega) hfl, hF.div_mul] at ho
    exact absurd ho (h.unowned_take hfree o)

theorem supply_grew (fl : ℕ) {v : ℕ} (hv : ¬ Has (A.pte i v) PTE_V) : Grew A (supply A i fl v) i := by
  unfold supply
  cases A.free with
  | nil => exact (Grew.starve A i).trans (Grew.setPte hv)
  | cons f fs => exact (Grew.take A i).trans (Grew.setPte hv)

theorem supply_tbl (fl v : ℕ) : (supply A i fl v).tbl = A.tbl := by
  unfold supply; cases A.free <;> rfl

theorem supply_pte_of_ne {fl v w : ℕ} {j : ι} (h : ¬ (j = i ∧ w = v)) :
    (supply A i fl v).pte j w = A.pte j w := by
  unfold supply; cases A.free <;> exact View.setPte_pte_of_ne h

theorem supply_valid (fl v : ℕ) : Has ((supply A i fl v).pte i v) PTE_V := by
  unfold supply; cases A.free <;> exact (by simpa using has_mkPte_V _ _)

/-- Without shortage the target is a frame of the free list. -/
theorem supply_pte {fl v : ℕ} (hdry : ¬ (supply A i fl v).dry) :
    ∃ f ∈ A.free, (supply A i fl v).pte i v = mkPte f fl := by
  unfold supply at hdry ⊢
  cases hfree : A.free with
  | nil => rw [hfree] at hdry; exact absurd trivial hdry
  | cons f fs => exact ⟨f, by simp, by simp⟩

theorem mapPage_ok (h : A.Ok L) {fl v : ℕ} (hfl : fl < 1024) (hv : v < NVPN) :
    (mapPage A i fl v).1.Ok L := by
  refine andThen_induct (P := (View.Ok L ·)) (walk_ok h v) fun _ => ?_
  split_ifs
  · exact walk_ok h v
  · exact supply_ok (walk_ok h v) hfl hv

theorem mapPage_grew (fl v : ℕ) : Grew A (mapPage A i fl v).1 i := by
  refine andThen_induct (P := (Grew A · i)) (walk_grew v) fun _ => ?_
  split_ifs with hV
  · exact walk_grew v
  · exact (walk_grew v).trans (supply_grew _ hV)

theorem mapPage_pte_of_ne {fl v w : ℕ} (h : w ≠ v) : (mapPage A i fl v).1.pte i w = A.pte i w := by
  refine andThen_induct (P := fun B => B.pte i w = A.pte i w) (by rw [walk_pte]) fun _ => ?_
  split_ifs with hV
  · rw [walk_pte]
  · rw [supply_pte_of_ne (fun hc => h hc.2), walk_pte]

/-- A page number that got a frame. -/
theorem mapPage_true {fl v : ℕ} (h : (mapPage A i fl v).2 = true) :
    ¬ Has (A.pte i v) PTE_V ∧ Has ((mapPage A i fl v).1.pte i v) PTE_V ∧
      (¬ (mapPage A i fl v).1.dry → ∃ f ∈ A.free, (mapPage A i fl v).1.pte i v = mkPte f fl) := by
  obtain ⟨-, h2, e⟩ := andThen_true h
  unfold mapPage
  rw [e]
  split_ifs at h2 ⊢ with hV
  rw [walk_pte] at hV
  refine ⟨hV, supply_valid fl v, fun hdry => ?_⟩
  obtain ⟨f, hf, hpte⟩ := supply_pte hdry
  exact ⟨f, (walk_grew v).free.subset hf, hpte⟩

/-- A page number that got none, without shortage, was mapped. -/
theorem mapPage_false {fl v : ℕ} (h : (mapPage A i fl v).2 = false)
    (hdry : ¬ (mapPage A i fl v).1.dry) : Has (A.pte i v) PTE_V := by
  unfold mapPage at h hdry
  by_cases hw : (walk A i v).2 = true
  · rw [andThen_of_true hw] at h hdry
    split_ifs at h with hV
    rwa [walk_pte] at hV
  · rw [Bool.not_eq_true] at hw
    rw [andThen_of_false hw] at hdry
    exact absurd (walk_dry hw) hdry

/-! ### Frames for a list of page numbers -/

theorem mapPages_ok {fl : ℕ} (hfl : fl < 1024) : ∀ {vs : List ℕ} {A : View ι}, A.Ok L →
    (∀ v ∈ vs, v < NVPN) → (mapPages i fl vs A).1.Ok L
  | [], _, h, _ => h
  | v :: vs, A, h, hvs => by
    refine andThen_induct (P := (View.Ok L ·)) (mapPage_ok h hfl (hvs v (by simp))) fun _ => ?_
    exact mapPages_ok hfl (mapPage_ok h hfl (hvs v (by simp))) fun w hw => hvs w (by simp [hw])

theorem mapPages_grew (fl : ℕ) : ∀ (vs : List ℕ) (A : View ι), Grew A (mapPages i fl vs A).1 i
  | [], A => Grew.refl A i
  | v :: vs, A =>
    andThen_induct (P := (Grew A · i)) (mapPage_grew fl v) fun _ =>
      (mapPage_grew fl v).trans (mapPages_grew fl vs _)

theorem mapPages_pte_of_not_mem {fl w : ℕ} : ∀ {vs : List ℕ} {A : View ι}, w ∉ vs →
    (mapPages i fl vs A).1.pte i w = A.pte i w
  | [], _, _ => rfl
  | v :: vs, A, h => by
    rw [List.mem_cons, not_or] at h
    refine andThen_induct (P := fun B => B.pte i w = A.pte i w) (mapPage_pte_of_ne h.1) fun _ => ?_
    rw [mapPages_pte_of_not_mem h.2, mapPage_pte_of_ne h.1]

/-- The page numbers that all got a frame: each was unmapped, and its target is from the free
list. -/
theorem mapPages_true {fl : ℕ} : ∀ {vs : List ℕ} {A : View ι}, (mapPages i fl vs A).2 = true →
    vs.Nodup ∧ ∀ v ∈ vs, ¬ Has (A.pte i v) PTE_V ∧
      Has ((mapPages i fl vs A).1.pte i v) PTE_V ∧
      (¬ (mapPages i fl vs A).1.dry → ∃ f ∈ A.free, (mapPages i fl vs A).1.pte i v = mkPte f fl)
  | [], _, _ => by simp
  | v :: vs, A, h => by
    obtain ⟨h1, h2, e⟩ := andThen_true h
    have hG := mapPages_grew (i := i) fl vs (mapPage A i fl v).1
    obtain ⟨hn, hV, hf⟩ := mapPage_true h1
    obtain ⟨hnd, hvs⟩ := mapPages_true h2
    have hv : v ∉ vs := fun hv => (hvs v hv).1 hV
    have he : (mapPages i fl (v :: vs) A).1 = (mapPages i fl vs (mapPage A i fl v).1).1 := e
    rw [he]
    refine ⟨List.nodup_cons.mpr ⟨hv, hnd⟩, fun w hw => ?_⟩
    rcases List.mem_cons.mp hw with rfl | hw
    · rw [hG.valid w hV]
      exact ⟨hn, hV, fun hdry => hf fun hd => hdry (hG.dry hd)⟩
    · have hwv : w ≠ v := fun e => hv (e ▸ hw)
      obtain ⟨hn', hV', hf'⟩ := hvs w hw
      rw [mapPage_pte_of_ne hwv] at hn'
      refine ⟨hn', hV', fun hdry => ?_⟩
      obtain ⟨f, hf, hpte⟩ := hf' hdry
      exact ⟨f, (mapPage_grew fl v).free.subset hf, hpte⟩

/-- Every page number of the list gets a frame of the free list. -/
structure Supplied (A : View ι) (i : ι) (fl : ℕ) (vs : List ℕ) : Prop where
  ok : (mapPages i fl vs A).2 = true
  frame : ∀ v ∈ vs, ∃ f ∈ A.free, (mapPages i fl vs A).1.pte i v = mkPte f fl

theorem supplied_of_wet {fl : ℕ} {vs : List ℕ} (h : (mapPages i fl vs A).2 = true)
    (hdry : ¬ (mapPages i fl vs A).1.dry) : Supplied A i fl vs :=
  ⟨h, fun v hv => ((mapPages_true h).2 v hv).2.2 hdry⟩

/-- Without shortage and without a mapped page number every page number gets a frame. -/
theorem mapPages_of_unmapped {fl : ℕ} : ∀ {vs : List ℕ} {A : View ι},
    ¬ (mapPages i fl vs A).1.dry → vs.Nodup → (∀ v ∈ vs, ¬ Has (A.pte i v) PTE_V) →
    (mapPages i fl vs A).2 = true
  | [], _, _, _, _ => rfl
  | v :: vs, A, hdry, hnd, hvs => by
    rw [List.nodup_cons] at hnd
    have h1 : (mapPage A i fl v).2 = true := by
      by_contra hf
      rw [Bool.not_eq_true] at hf
      rw [mapPages, andThen_of_false hf] at hdry
      exact hvs v (by simp) (mapPage_false hf hdry)
    rw [mapPages, andThen_of_true h1] at hdry ⊢
    refine mapPages_of_unmapped hdry hnd.2 fun w hw => ?_
    have hwv : w ≠ v := fun e => hnd.1 (e ▸ hw)
    rw [mapPage_pte_of_ne hwv]
    exact hvs w (by simp [hw])

end UCore.Vm.Growth

import UCore.Vm.Kvm

/-! # The kernel's page table: what kvmmap maps

The loop of `kvmmap`, seen through the hardware: `translate` is the Sv39 walk, with leaves on any
level. Over its rounds the translation grows by the range mapped so far, and is the same elsewhere
(`wp_kvmmapLoop`); so a call on any table that earlier calls made maps exactly its range
(`kvmmap_maps`). -/

namespace UCore.Vm.KvmMap

open UCore.Lib.Hoare UCore.Riscv UCore.Vm.Kvm
open UCore.Mem.State (PGSIZE_2M)

variable {e e' : Pages} {s s' : State} {r v w x y pte level kpgtbl vaddr paddr sz perm : ℕ}

/-! ### The hardware -/

/-- The number of the physical page in an entry: bits 10 to 53. -/
def PPN (pte : ℕ) : ℕ := pte / 2 ^ 10 % 2 ^ 44

/-- The entry lets no access through: not valid, writable but not readable, or a bit above the page
number. -/
def Faulty (pte : ℕ) : Prop := ¬ Has pte PTE_V ∨ Has pte PTE_W ∧ ¬ Has pte PTE_R ∨ 2 ^ 54 ≤ pte

instance (pte : ℕ) : Decidable (Faulty pte) := by unfold Faulty; infer_instance

/-- What a leaf at `level` gives for the address `x`: the physical address and the flags. A page
larger than 4 KiB must be aligned to its size. -/
def leafAddress (level pte x : ℕ) : Option (ℕ × ℕ) :=
  if Faulty pte then none
  else if PPN pte % 512 ^ level = 0 then
    some (PPN pte * 4096 + x % (4096 * 512 ^ level), PTE_FLAGS pte)
  else none

/-- The walk from the page at `a`. -/
def sv39Walk (e : Pages) (x : ℕ) : ℕ → ℕ → Option (ℕ × ℕ)
  | 0, a =>
    let pte := e a (px 0 (x / 4096))
    if Has pte PTE_R ∨ Has pte PTE_X then leafAddress 0 pte x else none
  | level + 1, a =>
    let pte := e a (px (level + 1) (x / 4096))
    if Faulty pte then none
    else if Has pte PTE_R ∨ Has pte PTE_X then leafAddress (level + 1) pte x
    else sv39Walk e x level (PPN pte * 4096)

/-- Address translation by the low 39 bits of `x`. -/
def translate (e : Pages) (r x : ℕ) : Option (ℕ × ℕ) := sv39Walk e x 2 r

/-- The bits above bit 38 are copies of it. -/
def Canonical (x : ℕ) : Prop := x < 2 ^ 38 ∨ 2 ^ 64 - 2 ^ 38 ≤ x ∧ x < 2 ^ 64

instance (x : ℕ) : Decidable (Canonical x) := by unfold Canonical; infer_instance

/-- **Sv39 address translation.** -/
def sv39 (e : Pages) (r x : ℕ) : Option (ℕ × ℕ) := if Canonical x then translate e r x else none

theorem PPN_mul (h : pte < 2 ^ 54) : PPN pte * 4096 = PTE2PA pte := by
  rw [PTE2PA_eq (by omega)]
  unfold PPN
  omega

/-- Only readable or executable entries are leaves that let an access through. -/
theorem leafAddress_of_not (h : ¬ (Has pte PTE_R ∨ Has pte PTE_X)) (hleaf : IsLeaf pte) :
    leafAddress level pte x = none := by
  rw [not_or] at h
  have hW : Has pte PTE_W := (hleaf.resolve_left h.1).resolve_right h.2
  exact if_pos (Or.inr (Or.inl ⟨hW, h.1⟩))

/-- An upper level: no entry, a leaf, or a pointer. -/
theorem sv39Walk_succ (e : Pages) (x level a : ℕ) (hpte : e a (px (level + 1) (x / 4096)) = pte) :
    (¬ Has pte PTE_V → sv39Walk e x (level + 1) a = none) ∧
    (IsLeaf pte → sv39Walk e x (level + 1) a = leafAddress (level + 1) pte x) ∧
    (Has pte PTE_V → ¬ IsLeaf pte → pte < 2 ^ 54 →
      sv39Walk e x (level + 1) a = sv39Walk e x level (PTE2PA pte)) := by
  rw [sv39Walk, hpte]
  refine ⟨fun hV => if_pos (Or.inl hV), fun hleaf => ?_, fun hV hleaf hlt => ?_⟩
  · by_cases hf : Faulty pte
    · rw [if_pos hf, leafAddress, if_pos hf]
    · rw [if_neg hf]
      by_cases hRX : Has pte PTE_R ∨ Has pte PTE_X
      · exact if_pos hRX
      · exact absurd (Or.inr (Or.inl ⟨(hleaf.resolve_left fun h => hRX (Or.inl h)).resolve_right
          fun h => hRX (Or.inr h), fun h => hRX (Or.inl h)⟩)) hf
  · unfold IsLeaf at hleaf
    rw [not_or, not_or] at hleaf
    have hf : ¬ Faulty pte := by
      rintro (hn | ⟨hW, -⟩ | hge)
      · exact hn hV
      · exact hleaf.2.1 hW
      · omega
    have hRX : ¬ (Has pte PTE_R ∨ Has pte PTE_X) := fun hc => hc.elim hleaf.1 hleaf.2.2
    rw [if_neg hf, if_neg hRX, PPN_mul hlt]

theorem sv39Walk_zero (e : Pages) (x a : ℕ) (hpte : e a (px 0 (x / 4096)) = pte)
    (hleaf : Has pte PTE_V → IsLeaf pte) :
    sv39Walk e x 0 a = if Has pte PTE_V then leafAddress 0 pte x else none := by
  rw [sv39Walk, hpte]
  by_cases hV : Has pte PTE_V
  · rw [if_pos hV]
    by_cases hRX : Has pte PTE_R ∨ Has pte PTE_X
    · exact if_pos hRX
    · exact (if_neg hRX).trans (leafAddress_of_not hRX (hleaf hV)).symm
  · have hnone : leafAddress 0 pte x = none := if_pos (Or.inl hV)
    rw [hnone, ite_self, ite_self]

/-- **The walk finds the leaf.** -/
theorem translate_eq (h : Tree e r) (x : ℕ) :
    translate e r x = (leaf e r (x / 4096)).bind fun l => leafAddress l.1 l.2 x := by
  unfold translate leaf
  obtain ⟨hinv₂, -, hptr₂⟩ := sv39Walk_succ e x 1 r rfl
  set v := x / 4096 with hv
  have htable₁ : table e r [px 2 v] = child e r (px 2 v) := by
    rw [show [px 2 v] = [] ++ [px 2 v] from rfl, table_concat]
    rfl
  by_cases hV₂ : Has (e r (px 2 v)) PTE_V
  swap
  · rw [hinv₂ hV₂, htable₁, child_of_not_valid hV₂]
    rfl
  have hleaf₂ := h.top _ hV₂
  have ht₁ : table e r [px 2 v] = some (PTE2PA (e r (px 2 v))) := by
    rw [htable₁, child, if_pos ⟨hV₂, hleaf₂⟩]
  rw [hptr₂ hV₂ hleaf₂ (h.pointer [] r _ (by simp) rfl hV₂ hleaf₂), ht₁, Option.bind_some]
  generalize PTE2PA (e r (px 2 v)) = t₁ at ht₁ ⊢
  obtain ⟨hinv₁, hleaf₁, hptr₁⟩ := sv39Walk_succ e x 0 t₁ rfl
  rw [← hv] at hinv₁ hleaf₁ hptr₁
  have htable₀ : table e r [px 2 v, px 1 v] = child e t₁ (px 1 v) := by
    rw [show [px 2 v, px 1 v] = [px 2 v] ++ [px 1 v] from rfl, table_concat, ht₁]
    rfl
  by_cases hV₁ : Has (e t₁ (px 1 v)) PTE_V
  swap
  · rw [hinv₁ hV₁, htable₀, child_of_not_valid hV₁]
    simp [hV₁]
  by_cases hlf₁ : IsLeaf (e t₁ (px 1 v))
  · rw [hleaf₁ hlf₁, htable₀, child, if_neg fun hc => hc.2 hlf₁]
    simp [hV₁]
  · have ht₀ : table e r [px 2 v, px 1 v] = some (PTE2PA (e t₁ (px 1 v))) := by
      rw [htable₀, child, if_pos ⟨hV₁, hlf₁⟩]
    rw [hptr₁ hV₁ hlf₁ (h.pointer [px 2 v] t₁ _ (by simp) ht₁ hV₁ hlf₁), ht₀]
    generalize PTE2PA (e t₁ (px 1 v)) = t₀ at ht₀ ⊢
    rw [sv39Walk_zero e x t₀ rfl (h.bottom [px 2 v, px 1 v] t₀ _ (by simp) ht₀), ← hv]
    dsimp only
    split_ifs <;> rfl

/-! ### Indices -/

/-- In one window of 2 ^ 39 bytes the upper two indices are those of the page's 2 MiB. -/
theorem px_one_iff (h : w / 2 ^ 27 = v / 2 ^ 27) :
    px 2 w = px 2 v ∧ px 1 w = px 1 v ↔ w / 512 = v / 512 := by
  simp only [px, Fin.mk.injEq]
  norm_num
  omega

/-- In one window the three indices are those of the page. -/
theorem px_zero_iff (h : w / 2 ^ 27 = v / 2 ^ 27) :
    px 2 w = px 2 v ∧ px 1 w = px 1 v ∧ px 0 w = px 0 v ↔ w = v := by
  simp only [px, Fin.mk.injEq]
  norm_num
  omega

theorem leafAddress_mod (hl : level ≤ 2) (h : x % 2 ^ 39 = y % 2 ^ 39) :
    leafAddress level pte x = leafAddress level pte y := by
  have hmod : x % (4096 * 512 ^ level) = y % (4096 * 512 ^ level) := by
    interval_cases level <;> omega
  unfold leafAddress
  rw [hmod]

/-- Only the low 39 bits count. -/
theorem sv39Walk_mod (h : x % 2 ^ 39 = y % 2 ^ 39) (hl : level ≤ 2) (a : ℕ) :
    sv39Walk e x level a = sv39Walk e y level a := by
  induction level generalizing a with
  | zero =>
    have hpx : px 0 (x / 4096) = px 0 (y / 4096) := by
      simp only [px, Fin.mk.injEq]
      omega
    rw [sv39Walk, sv39Walk, hpx, leafAddress_mod (by omega) h]
  | succ level ih =>
    have hpx : px (level + 1) (x / 4096) = px (level + 1) (y / 4096) := by
      have hl' : level ≤ 1 := by omega
      simp only [px, Fin.mk.injEq]
      interval_cases level <;> omega
    rw [sv39Walk, sv39Walk, hpx, leafAddress_mod hl h, ih (by omega)]

/-! ### One round -/

/-- A new leaf lets the range of its page through. -/
theorem leafAddress_mkPte (hpa : paddr < 2 ^ 56) (hal : paddr % (4096 * 512 ^ level) = 0)
    (hl : level ≤ 1) (hperm : perm < 1024) (hW : Has perm PTE_W → Has perm PTE_R) :
    leafAddress level (mkPte paddr perm) x =
      some (paddr + x % (4096 * 512 ^ level), perm ||| PTE_V) := by
  have hlt := mkPte_lt_pow hpa hperm
  have hf : ¬ Faulty (mkPte paddr perm) := by
    rintro (hn | ⟨h1, h2⟩ | hge)
    · exact hn (has_mkPte_V _ _)
    · rw [has_mkPte_R (by omega)] at h2
      exact h2 (hW ((has_mkPte (k := 2) (by omega) (by decide) (by decide)).mp h1))
    · omega
  have hPPN : PPN (mkPte paddr perm) * 4096 = paddr := by
    rw [PPN_mul hlt, PTE2PA_mkPte (by omega) hperm]
    interval_cases level <;> omega
  have hmod : PPN (mkPte paddr perm) % 512 ^ level = 0 := by
    interval_cases level <;> omega
  rw [leafAddress, if_neg hf, if_pos hmod, hPPN, PTE_FLAGS_mkPte (by omega) hperm]

/-- What `kvmmap` is asked for: a range in the window `w` of 2 ^ 39 bytes. -/
structure Request (w vaddr paddr sz perm : ℕ) : Prop where
  vaAligned : vaddr % 4096 = 0
  paAligned : paddr % 4096 = 0
  szAligned : sz % 4096 = 0
  wrap : vaddr + sz < 2 ^ 64
  window : ∀ x, vaddr ≤ x → x < vaddr + sz → x / 2 ^ 39 = w
  phys : paddr + sz ≤ 2 ^ 56
  flags : perm < 1024
  leaf : IsLeaf perm
  readable : Has perm PTE_W → Has perm PTE_R

/-- No address of the range is mapped. -/
def Unmapped (e : Pages) (r vaddr sz : ℕ) : Prop :=
  ∀ x, vaddr ≤ x → x < vaddr + sz → leaf e r (x / 4096) = none

/-- In the window `w` the range is mapped, and all else is as before. -/
def Mapped (e e' : Pages) (r w vaddr paddr sz perm : ℕ) : Prop :=
  ∀ x, x / 2 ^ 39 = w → translate e' r x =
    if vaddr ≤ x ∧ x < vaddr + sz then some (paddr + (x - vaddr), perm ||| PTE_V)
    else translate e r x

/-- **One round maps one chunk**, and leaves the rest of the range unmapped. -/
theorem Put.mapped {d : ℕ} (h : Put e e' r vaddr paddr perm sz (vaddr / 4096) d) (hs : Tree e r)
    (hs' : Tree e' r) (hreq : Request w vaddr paddr sz perm)
    (hsz : 0 < sz) :
    (d = 4096 ∨ d = 2097152) ∧ d ≤ sz ∧ Mapped e e' r w vaddr paddr d perm ∧
      ∀ x, x / 2 ^ 39 = w → vaddr + d ≤ x → leaf e' r (x / 4096) = leaf e r (x / 4096) := by
  obtain ⟨hva, hpa, hszal, -, hwin, hphys, hflags, -, hread⟩ := hreq
  have hx : ∀ {x : ℕ}, x / 2 ^ 39 = w → x / 4096 / 2 ^ 27 = vaddr / 4096 / 2 ^ 27 := fun h => by
    have := hwin vaddr le_rfl (by omega)
    omega
  rcases h with ⟨rfl, hva₂, hpa₂, hle, hleaf⟩ | ⟨rfl, hleaf⟩
  · unfold IS_ALIGNED PGSIZE_2M at *
    refine ⟨Or.inr rfl, hle, fun x hw => ?_, fun x hw hge => ?_⟩
    · have hslot := px_one_iff (hx hw)
      rw [translate_eq hs', translate_eq hs, hleaf]
      by_cases hc : vaddr ≤ x ∧ x < vaddr + 2097152
      · rw [if_pos (hslot.mpr (by omega)), if_pos hc, Option.bind_some]
        change leafAddress 1 (mkPte paddr perm) x = _
        rw [leafAddress_mkPte (by omega) (by omega) le_rfl hflags hread]
        congr 2
        omega
      · rw [if_neg fun hs => ?_, if_neg hc]
        have := hslot.mp hs
        omega
    · rw [hleaf, if_neg fun hs => ?_]
      have := (px_one_iff (hx hw)).mp hs
      omega
  · unfold PGSIZE at *
    refine ⟨Or.inl rfl, by omega, fun x hw => ?_, fun x hw hge => ?_⟩
    · have hslot := px_zero_iff (hx hw)
      rw [translate_eq hs', translate_eq hs, hleaf]
      by_cases hc : vaddr ≤ x ∧ x < vaddr + 4096
      · rw [if_pos (hslot.mpr (by omega)), if_pos hc, Option.bind_some]
        change leafAddress 0 (mkPte paddr perm) x = _
        rw [leafAddress_mkPte (by omega) (by omega) (by omega) hflags hread]
        congr 2
        omega
      · rw [if_neg fun hs => ?_, if_neg hc]
        have := hslot.mp hs
        omega
    · rw [hleaf, if_neg fun hs => ?_]
      have := (px_zero_iff (hx hw)).mp hs
      omega

/-! ### The loop -/

/-- **The loop maps the range**, or no page is left. -/
theorem wp_kvmmapLoop (hr : KVA_TO_PA kpgtbl = r) (n : ℕ) :
    ∀ (s : State) (vaddr paddr sz : ℕ), Ready s r → Request w vaddr paddr sz perm →
      Unmapped s.entry r vaddr sz → sz / 4096 < n →
      wp (kvmmapLoop kpgtbl perm (vaddr + sz) n vaddr paddr sz) s
        (fun o s' => o = (vaddr + sz, 0) ∧ Ready s' r ∧
          Mapped s.entry s'.entry r w vaddr paddr sz perm)
        (fun panic _ => panic = .noPage ∧ s.pages.length < 2 * (sz / 4096)) := by
  induction n with
  | zero => intro s vaddr paddr sz _ _ _ hn; omega
  | succ n ih =>
    intro s vaddr paddr sz hs hreq hun hn
    rw [kvmmapLoop]
    by_cases hsz : 0 < sz
    swap
    · obtain rfl : sz = 0 := by omega
      rw [if_neg (by omega)]
      refine wp_pure.mpr ⟨rfl, hs, fun x _ => ?_⟩
      rw [if_neg (by omega)]
    have hal := hreq.szAligned
    rw [if_pos (by omega)]
    refine wp_seq (wp_mono (wp_mapOne hs hr hreq.leaf rfl) (fun _ _ h => h) ?_) ?_
    · rintro panic _ (⟨hpanic, hlen⟩ | hne)
      · exact ⟨hpanic, by omega⟩
      · exact absurd (hun vaddr le_rfl (by omega)) hne
    rintro d s₁ ⟨hs₁, hlen, -, hput⟩
    obtain ⟨hd, hle, hmap, hrest⟩ := Put.mapped hput hs.tree hs₁.tree hreq hsz
    have hwrap := hreq.wrap
    have hphys := hreq.phys
    have h1 : (vaddr + d) % 2 ^ 64 = vaddr + d := Nat.mod_eq_of_lt (by omega)
    have h2 : (paddr + d) % 2 ^ 64 = paddr + d := Nat.mod_eq_of_lt (by omega)
    have h3 : (sz + (2 ^ 64 - d)) % 2 ^ 64 = sz - d := by omega
    have hend : vaddr + sz = vaddr + d + (sz - d) := by omega
    rw [h1, h2, h3, hend]
    refine wp_mono (ih s₁ (vaddr + d) (paddr + d) (sz - d) hs₁ ?_ ?_ (by omega)) ?_ ?_
    · have h4 := hreq.vaAligned
      have h5 := hreq.paAligned
      exact ⟨by omega, by omega, by omega, by omega,
        fun x hx hlt => hreq.window x (by omega) (by omega), by omega, hreq.flags, hreq.leaf,
        hreq.readable⟩
    · intro x hx hlt
      rw [hrest x (hreq.window x (by omega) (by omega)) hx]
      exact hun x (by omega) (by omega)
    · rintro o s' ⟨ho, hs', hmap'⟩
      refine ⟨ho, hs', fun x hx => ?_⟩
      rw [hmap' x hx, hmap x hx]
      by_cases hc : vaddr ≤ x ∧ x < vaddr + sz
      · rw [if_pos hc]
        by_cases hd' : x < vaddr + d
        · rw [if_neg (by omega), if_pos ⟨hc.1, hd'⟩]
        · rw [if_pos (by omega), show paddr + d + (x - (vaddr + d)) = paddr + (x - vaddr) by omega]
      · rw [if_neg (by omega), if_neg (by omega), if_neg (by omega)]
    · rintro panic _ ⟨hpanic, hlen'⟩
      exact ⟨hpanic, by omega⟩

/-! ### Tables that calls make -/

/-- Every round keeps the table, whatever it is asked for. -/
theorem wp_kvmmapLoop_ready (hr : KVA_TO_PA kpgtbl = r) (hperm : IsLeaf perm) (vaddrEnd n : ℕ) :
    ∀ (s : State) (vaddr paddr sz : ℕ), Ready s r →
      wp (kvmmapLoop kpgtbl perm vaddrEnd n vaddr paddr sz) s (fun _ s' => Ready s' r)
        fun _ _ => True := by
  induction n with
  | zero => exact fun s vaddr paddr sz _ => trivial
  | succ n ih =>
    intro s vaddr paddr sz hs
    rw [kvmmapLoop]
    split_ifs
    · refine wp_seq (wp_mono (wp_mapOne hs hr hperm rfl) (fun _ _ h => h.1) fun _ _ _ => trivial) ?_
      exact fun d s₁ hs₁ => ih s₁ _ _ _ hs₁
    · exact wp_pure.mpr hs

theorem wp_kvmmap_ready (hs : Ready s r) (hr : KVA_TO_PA kpgtbl = r) (hperm : IsLeaf perm)
    (va pa sz : ℕ) :
    wp (kvmmap kpgtbl va pa sz perm) s (fun _ s' => Ready s' r) fun _ _ => True := by
  unfold kvmmap
  generalize (va + sz) % 2 ^ 64 = vaddrEnd
  generalize sz / PGSIZE + 1 = n
  refine wp_bind.mpr (wp_ensure.mpr ⟨fun _ => ?_, fun _ => trivial⟩)
  refine wp_bind.mpr (wp_ensure.mpr ⟨fun _ => ?_, fun _ => trivial⟩)
  refine wp_bind.mpr (wp_ensure.mpr ⟨fun _ => ?_, fun _ => trivial⟩)
  refine wp_seq (wp_kvmmapLoop_ready hr hperm vaddrEnd n s va pa sz hs) fun o s' hs' => ?_
  refine wp_bind.mpr (wp_ensure.mpr ⟨fun _ => ?_, fun _ => trivial⟩)
  exact wp_ensure.mpr ⟨fun _ => hs', fun _ => trivial⟩

/-- The tables at `kpgtbl` that calls of `kvmmap` make of a cleared page. Between calls all pages that
are not part of the table may change. -/
inductive Reached (kpgtbl : ℕ) : Pages → Prop
  | start (e : Pages) : (∀ i, e (KVA_TO_PA kpgtbl) i = 0) → Reached kpgtbl e
  | call {e : Pages} {s' : State} (pages : List ℕ) (va pa sz perm : ℕ) : Reached kpgtbl e →
    Fresh e (KVA_TO_PA kpgtbl) pages → IsLeaf perm →
    kvmmap kpgtbl va pa sz perm ⟨e, pages⟩ = .ok () s' → Reached kpgtbl s'.entry
  | other {e e' : Pages} : Reached kpgtbl e → (∀ t ∈ Used e (KVA_TO_PA kpgtbl), e' t = e t) →
    Reached kpgtbl e'

/-- The table at a cleared page is this page. -/
theorem table_zero (h : ∀ i, e r i = 0) {p : List Idx} {t : ℕ} (ht : table e r p = some t) :
    p = [] ∧ t = r := by
  cases p with
  | nil => exact ⟨rfl, (Option.some.inj ht).symm⟩
  | cons i p =>
    have hV : ¬ Has (e r i) PTE_V := by
      rw [h i]
      exact not_has_zero _
    rw [table, Lib.Trie.follow, child_of_not_valid hV] at ht
    cases ht

/-- A cleared page is a table. -/
theorem tree_zero (h : ∀ i, e r i = 0) : Tree e r := by
  have hV : ∀ i, ¬ Has (e r i) PTE_V := fun i => by
    rw [h i]
    exact not_has_zero _
  have hnil : ∀ p t, table e r p = some t → p = [] ∧ t = r := fun p t ht => table_zero h ht
  constructor
  case inj => exact fun p q t _ _ hp hq => (hnil p t hp).1.trans (hnil q t hq).1.symm
  case top => exact fun i hc => absurd hc (hV i)
  case bottom =>
    intro p t i hp ht
    rw [(hnil p t ht).1] at hp
    cases hp
  case pointer =>
    intro p t i _ ht hc
    rw [(hnil p t ht).2] at hc
    exact absurd hc (hV i)

/-- Only the pages of the table matter. -/
theorem Tree.congr (h : Tree e r) (hag : ∀ t ∈ Used e r, e' t = e t) : Tree e' r := by
  have htable : ∀ p : List Idx, p.length ≤ 2 → table e' r p = table e r p :=
    Lib.Trie.follow_eq_of_agree fun q t hq ht i => by
      unfold child
      rw [hag t (mem_used (by omega) ht)]
  constructor
  case inj =>
    intro p q t hp hq ht ht'
    rw [htable p hp] at ht
    rw [htable q hq] at ht'
    exact h.inj p q t hp hq ht ht'
  case top =>
    rw [hag r (mem_used (p := []) (by simp) rfl)]
    exact h.top
  case bottom =>
    intro p t i hp ht
    rw [htable p (by omega)] at ht
    rw [hag t (mem_used (by omega) ht)]
    exact h.bottom p t i hp ht
  case pointer =>
    intro p t i hp ht
    rw [htable p (by omega)] at ht
    rw [hag t (mem_used (by omega) ht)]
    exact h.pointer p t i hp ht

theorem Reached.tree (h : Reached kpgtbl e) : Tree e (KVA_TO_PA kpgtbl) := by
  generalize hr : KVA_TO_PA kpgtbl = r
  induction h with
  | start e he =>
    rw [hr] at he
    exact tree_zero he
  | call pages va pa sz perm _ hfresh hperm hx ih =>
    rw [hr] at hfresh
    exact ((wp_of_eq_ok hx).mp (wp_kvmmap_ready ⟨ih, hfresh⟩ hr hperm va pa sz)).tree
  | other _ hag ih =>
    rw [hr] at hag
    exact Tree.congr ih hag

/-! ### A call -/

/-- A canonical address is determined by its low 39 bits. -/
theorem Canonical.inj (hx : Canonical x) (hy : Canonical y) (h : x % 2 ^ 39 = y % 2 ^ 39) : x = y := by
  unfold Canonical at hx hy
  omega

/-- What a call does, seen by the hardware. -/
theorem Mapped.sv39 {va pa sz : ℕ} (h : Mapped e e' r (va / 2 ^ 39) va pa sz perm)
    (hrange : ∀ x, va ≤ x → x < va + sz → x / 2 ^ 39 = va / 2 ^ 39)
    (hcan : ∀ x, va ≤ x → x < va + sz → Canonical x) (x : ℕ) :
    sv39 e' r x = if va ≤ x ∧ x < va + sz then some (pa + (x - va), perm ||| PTE_V)
      else sv39 e r x := by
  unfold KvmMap.sv39
  by_cases hx : Canonical x
  swap
  · rw [if_neg hx, if_neg hx, if_neg fun hc => hx (hcan x hc.1 hc.2)]
  rw [if_pos hx, if_pos hx]
  by_cases hwin : x / 2 ^ 39 = va / 2 ^ 39
  · exact h x hwin
  · -- the address of the window with the same low bits
    obtain ⟨y, hy⟩ : ∃ y, y = va / 2 ^ 39 * 2 ^ 39 + x % 2 ^ 39 := ⟨_, rfl⟩
    have hmod : x % 2 ^ 39 = y % 2 ^ 39 := by omega
    have hyw : y / 2 ^ 39 = va / 2 ^ 39 := by omega
    have hyr : ¬ (va ≤ y ∧ y < va + sz) := by
      rintro ⟨h1, h2⟩
      have hxy := hx.inj (hcan y h1 h2) hmod
      omega
    have hxr : ¬ (va ≤ x ∧ x < va + sz) := fun hc => hwin (hrange x hc.1 hc.2)
    have hy' := h y hyw
    rw [if_neg hyr] at hy'
    rw [if_neg hxr, translate, translate, sv39Walk_mod hmod le_rfl, sv39Walk_mod hmod le_rfl]
    exact hy'

/-- **`kvmmap` maps exactly its range**, on every table that calls made: it ends without panic, the
translation of the range is to the physical range with the flags asked for, and no other address of
the window changes, nor any other address at all where the range is canonical. The only other end is
the page allocator's, with fewer than two pages given for each page of the range. -/
theorem kvmmap_maps {pages : List ℕ} {va pa sz : ℕ} (hreach : Reached kpgtbl e)
    (hfresh : Fresh e (KVA_TO_PA kpgtbl) pages) (hreq : Request (va / 2 ^ 39) va pa sz perm)
    (hun : Unmapped e (KVA_TO_PA kpgtbl) va sz) :
    wp (kvmmap kpgtbl va pa sz perm) ⟨e, pages⟩
      (fun _ s' => Mapped e s'.entry (KVA_TO_PA kpgtbl) (va / 2 ^ 39) va pa sz perm ∧
        ((∀ x, va ≤ x → x < va + sz → Canonical x) → ∀ x, sv39 s'.entry (KVA_TO_PA kpgtbl) x =
          if va ≤ x ∧ x < va + sz then some (pa + (x - va), perm ||| PTE_V)
          else sv39 e (KVA_TO_PA kpgtbl) x))
      (fun panic _ => panic = .noPage ∧ pages.length < 2 * (sz / 4096)) := by
  generalize hr : KVA_TO_PA kpgtbl = r at hfresh hun ⊢
  have htree := hreach.tree
  rw [hr] at htree
  have hmod : (va + sz) % 2 ^ 64 = va + sz := Nat.mod_eq_of_lt hreq.wrap
  unfold kvmmap
  rw [hmod]
  refine wp_bind.mpr (wp_ensure_pos hreq.vaAligned ?_)
  refine wp_bind.mpr (wp_ensure_pos hreq.paAligned ?_)
  refine wp_bind.mpr (wp_ensure_pos hreq.szAligned ?_)
  have hrounds : sz / 4096 < sz / PGSIZE + 1 := by unfold PGSIZE; omega
  refine wp_seq (wp_kvmmapLoop hr _ ⟨e, pages⟩ va pa sz ⟨htree, hfresh⟩ hreq hun hrounds) ?_
  rintro o s' ⟨rfl, -, hmap⟩
  refine wp_bind.mpr (wp_ensure_pos rfl (wp_ensure_pos rfl ?_))
  exact ⟨hmap, fun hcan => Mapped.sv39 hmap hreq.window hcan⟩

/-! ### An empty table -/

/-- Memory with cleared pages, of which the first two after the table's are free. -/
def sampleState : State := ⟨fun _ _ => 0, [PA_TO_KVA 0x80401000, PA_TO_KVA 0x80402000]⟩

/-- The table of the samples. -/
def sampleRoot : ℕ := PA_TO_KVA 0x80400000

theorem sample_empty : Reached sampleRoot sampleState.entry ∧
    Fresh sampleState.entry (KVA_TO_PA sampleRoot) sampleState.pages ∧
    ∀ va sz, Unmapped sampleState.entry (KVA_TO_PA sampleRoot) va sz := by
  refine ⟨Reached.start _ fun _ => rfl, ⟨by decide, by decide, by decide, by decide, ?_⟩, ?_⟩
  · rintro newpg hn ⟨p, -, ht⟩
    have hne : ∀ g ∈ sampleState.pages, KVA_TO_PA g ≠ KVA_TO_PA sampleRoot := by decide
    exact hne newpg hn (table_zero (fun _ => rfl) ht).2
  · intro va sz x _ _
    have hnone : table sampleState.entry (KVA_TO_PA sampleRoot) [px 2 (x / 4096)] = none := by
      by_contra hc
      obtain ⟨t, ht⟩ := Option.ne_none_iff_exists'.mp hc
      cases (table_zero (fun _ => rfl) ht).1
    rw [leaf, hnone]
    rfl

theorem kvmmap_maps_sample : ∃ s', kvmmap sampleRoot 0 0x80403000 4096 PTE_R sampleState = .ok () s' ∧
    Mapped sampleState.entry s'.entry (KVA_TO_PA sampleRoot) 0 0 0x80403000 4096 PTE_R := by
  obtain ⟨hreach, hfresh, hun⟩ := sample_empty
  have hreq : Request (0 / 2 ^ 39) 0 0x80403000 4096 PTE_R :=
    ⟨rfl, rfl, rfl, by decide, fun x _ hx => by omega, by decide, by decide, by decide, by decide⟩
  have h := kvmmap_maps hreach hfresh hreq (hun 0 4096)
  have hok : wpOk (kvmmap sampleRoot 0 0x80403000 4096 PTE_R) sampleState _ :=
    wp_mono h (fun _ _ hs => hs.1) fun _ _ hE => absurd hE.2 (by decide)
  obtain ⟨u, s', hx, hmap⟩ := wpOk_iff.mp hok
  exact ⟨s', hx, hmap⟩

/-- What the hardware makes of `va` after a call on the empty table. -/
def afterCall (va pa perm : ℕ) : Option (Option (ℕ × ℕ)) :=
  match kvmmap sampleRoot va pa 4096 perm sampleState with
  | .ok _ s' => some (sv39 s'.entry (KVA_TO_PA sampleRoot) va)
  | .error _ _ => none

/-- **What the code does not check**: the last page of the address space makes it panic; a page that
is writable but not readable, that is not canonical or that is beyond the 56 bits of a physical
address is mapped without effect; and bits of `perm` above the flags change the page. -/
theorem kvmmap_limits : Reached sampleRoot sampleState.entry ∧
    Fresh sampleState.entry (KVA_TO_PA sampleRoot) sampleState.pages ∧
    (∀ va sz, Unmapped sampleState.entry (KVA_TO_PA sampleRoot) va sz) ∧
    afterCall (2 ^ 64 - 4096) 0x80404000 PTE_R = none ∧
    afterCall 0 0x80404000 PTE_W = some none ∧ afterCall (2 ^ 38) 0x80404000 PTE_R = some none ∧
    afterCall 0 (2 ^ 56) PTE_R = some none ∧
    afterCall 0 0x80404000 (1 <<< 10 ||| PTE_R) = some (some (0x80405000, PTE_R ||| PTE_V)) := by
  obtain ⟨hreach, hfresh, hun⟩ := sample_empty
  exact ⟨hreach, hfresh, hun, by decide +kernel, by decide +kernel, by decide +kernel,
    by decide +kernel, by decide +kernel⟩

end UCore.Vm.KvmMap

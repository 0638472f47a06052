import UCore.Lib.Hoare
import UCore.Lib.Trie
import UCore.Mem.State

/-! # The kernel's page table: one round of kvmmap

`kvmmap` of `kvm.c` on memory seen as pages of 512 entries. A table is a `Tree`: no page serves twice,
and leaves are on the two lower levels only. `leaf e r v` is the leaf that serves the page number `v`.
One round of the loop, `mapOne`, puts one leaf, of 2 MiB or of 4 KiB, where there was none, and changes
no other (`wp_mapOne`); on the way it may hang up new page-table pages, which changes no leaf at all
(`Tree.hang`). -/

namespace UCore.Vm.Kvm

open UCore.Lib.Hoare UCore.Lib.Trie UCore.Riscv
open UCore.Mem.State (PGSIZE_2M)

/-! ### The code -/

/-- The entries of every page, by the page's physical address. -/
abbrev Pages := ℕ → Idx → ℕ

/-- Memory, and the pages that `allockernelpage` is going to return. -/
structure State where
  entry : Pages
  pages : List ℕ

inductive Panic
  | assertion
  | alreadyMapped (level vaddr : ℕ)
  /-- The allocator has no page left; the panic is its own. -/
  | noPage
  /-- No panic of the code: the loop of the model was given too few rounds. -/
  | rounds

abbrev KvmM := EStateM Panic State

/-- `pgtbl[vpn]`. -/
def readPte (pgtbl : ℕ) (vpn : Idx) : KvmM ℕ := do
  return (← get).entry (KVA_TO_PA pgtbl) vpn

/-- `e` with the entry `pte` at index `k` of page `t`. -/
def setEntry (e : Pages) (t : ℕ) (k : Idx) (pte : ℕ) : Pages :=
  Function.update e t (Function.update (e t) k pte)

/-- `pgtbl[vpn] = pte`. -/
def writePte (pgtbl : ℕ) (vpn : Idx) (pte : ℕ) : KvmM Unit :=
  modify fun s => { s with entry := setEntry s.entry (KVA_TO_PA pgtbl) vpn pte }

/-- `allockernelpage()`. -/
def allockernelpage : KvmM ℕ := do
  match (← get).pages with
  | [] => throw .noPage
  | newpg :: pages =>
    modify fun s => { s with pages := pages }
    return newpg

/-- `memset(newpg, 0, PGSIZE)`. -/
def clearPage (newpg : ℕ) : KvmM Unit :=
  modify fun s => { s with entry := Function.update s.entry (KVA_TO_PA newpg) fun _ => 0 }

/-- The index of `va` at `level`. -/
def vpn (level va : ℕ) : Idx := ⟨PX level va, by rw [PX_eq]; exact (px level (va / 4096)).isLt⟩

def IS_ALIGNED (a base : ℕ) : Prop := a % base = 0

instance (a base : ℕ) : Decidable (IS_ALIGNED a base) := by unfold IS_ALIGNED; infer_instance

/-- The test for an entry that does not point to a page-table page. -/
def IsLeaf (pte : ℕ) : Prop := Has pte PTE_R ∨ Has pte PTE_W ∨ Has pte PTE_X

instance (pte : ℕ) : Decidable (IsLeaf pte) := by unfold IsLeaf; infer_instance

/-- The page-table page that the entry at `pgtbl[vpn]` points to: a new one if the entry is not
valid. -/
def nextLevel (level vaddr pgtbl : ℕ) (vpn : Idx) : KvmM ℕ := do
  let pte ← readPte pgtbl vpn
  if ¬ Has pte PTE_V then
    let newpg ← allockernelpage
    clearPage newpg
    writePte pgtbl vpn (mkPte (KVA_TO_PA newpg) PTE_G)
    return newpg
  else
    ensure (¬ IsLeaf pte) (.alreadyMapped level vaddr)
    return PA_TO_KVA (PTE2PA pte)

/-- The body of the loop of `kvmmap`; what it returns is added to `vaddr` and `paddr` and taken from
`sz`. -/
def mapOne (kpgtbl perm vaddr paddr sz : ℕ) : KvmM ℕ := do
  let pgtblLevel1 ← nextLevel 2 vaddr kpgtbl (vpn 2 vaddr)
  let pte ← readPte pgtblLevel1 (vpn 1 vaddr)
  if ¬ Has pte PTE_V ∧ IS_ALIGNED vaddr PGSIZE_2M ∧ IS_ALIGNED paddr PGSIZE_2M ∧
      sz ≥ PGSIZE_2M then
    writePte pgtblLevel1 (vpn 1 vaddr) (mkPte paddr perm)
    return PGSIZE_2M
  else
    let pgtblLevel0 ← nextLevel 1 vaddr pgtblLevel1 (vpn 1 vaddr)
    let pte ← readPte pgtblLevel0 (vpn 0 vaddr)
    ensure (¬ Has pte PTE_V) (.alreadyMapped 0 vaddr)
    writePte pgtblLevel0 (vpn 0 vaddr) (mkPte paddr perm)
    return PGSIZE

/-- The loop of `kvmmap`, with a bound on the number of rounds: the last `vaddr` and `sz`. -/
def kvmmapLoop (kpgtbl perm vaddrEnd : ℕ) : ℕ → ℕ → ℕ → ℕ → KvmM (ℕ × ℕ)
  | 0, _, _, _ => throw .rounds
  | n + 1, vaddr, paddr, sz =>
    if vaddr < vaddrEnd then do
      let d ← mapOne kpgtbl perm vaddr paddr sz
      kvmmapLoop kpgtbl perm vaddrEnd n ((vaddr + d) % 2 ^ 64) ((paddr + d) % 2 ^ 64)
        ((sz + (2 ^ 64 - d)) % 2 ^ 64)
    else
      return (vaddr, sz)

/-- `kvmmap(kpgtbl, va, pa, sz, perm)`. -/
def kvmmap (kpgtbl va pa sz perm : ℕ) : KvmM Unit := do
  ensure (PGALIGNED va) .assertion
  ensure (PGALIGNED pa) .assertion
  ensure (PGALIGNED sz) .assertion
  let vaddrEnd := (va + sz) % 2 ^ 64
  let (vaddr, sz) ← kvmmapLoop kpgtbl perm vaddrEnd (sz / PGSIZE + 1) va pa sz
  ensure (vaddr = vaddrEnd) .assertion
  ensure (sz = 0) .assertion

/-! ### Tables -/

variable {e e' : Pages} {r t g pte : ℕ} {p : List Idx} {k : Idx} {v w : ℕ}

/-- The page-table page that an entry points to. -/
def child (e : Pages) (t : ℕ) (i : Idx) : Option ℕ :=
  if Has (e t i) PTE_V ∧ ¬ IsLeaf (e t i) then some (PTE2PA (e t i)) else none

/-- The page-table page at path `p` of the table at `r`. -/
def table (e : Pages) (r : ℕ) (p : List Idx) : Option ℕ := follow (child e) r p

/-- The pages of the table at `r`. -/
def Used (e : Pages) (r : ℕ) : Set ℕ := {t | ∃ p, p.length ≤ 2 ∧ table e r p = some t}

/-- The leaf that serves page number `v`: its level and its entry. -/
def leaf (e : Pages) (r v : ℕ) : Option (ℕ × ℕ) :=
  (table e r [px 2 v]).bind fun t₁ =>
    match table e r [px 2 v, px 1 v] with
    | some t₀ => if Has (e t₀ (px 0 v)) PTE_V then some (0, e t₀ (px 0 v)) else none
    | none => if Has (e t₁ (px 1 v)) PTE_V then some (1, e t₁ (px 1 v)) else none

/-- The entries at `r` are a table as `kvmmap` makes it. -/
structure Tree (e : Pages) (r : ℕ) : Prop where
  inj : ∀ p q t, p.length ≤ 2 → q.length ≤ 2 → table e r p = some t → table e r q = some t → p = q
  top : ∀ i, Has (e r i) PTE_V → ¬ IsLeaf (e r i)
  bottom : ∀ p t i, p.length = 2 → table e r p = some t → Has (e t i) PTE_V → IsLeaf (e t i)
  pointer : ∀ p t i, p.length ≤ 1 → table e r p = some t → Has (e t i) PTE_V → ¬ IsLeaf (e t i) →
    e t i < 2 ^ 54

/-- The pages can become page-table pages of the table at `r`. -/
structure Fresh (e : Pages) (r : ℕ) (pages : List ℕ) : Prop where
  nodup : (pages.map KVA_TO_PA).Nodup
  kva : ∀ newpg ∈ pages, newpg < 2 ^ 64
  aligned : ∀ newpg ∈ pages, KVA_TO_PA newpg % 4096 = 0
  phys : ∀ newpg ∈ pages, KVA_TO_PA newpg < 2 ^ 56
  unused : ∀ newpg ∈ pages, KVA_TO_PA newpg ∉ Used e r

theorem vpn_eq (level va : ℕ) : vpn level va = px level (va / 4096) := Fin.ext (PX_eq level va)

theorem setEntry_self (e : Pages) (t : ℕ) (k : Idx) (pte : ℕ) : setEntry e t k pte t k = pte := by
  simp [setEntry]

theorem setEntry_of_ne {j : Idx} (h : ¬ (t = g ∧ k = j)) : setEntry e g j pte t k = e t k := by
  unfold setEntry
  by_cases ht : t = g
  · subst ht
    rw [Function.update_self, Function.update_of_ne fun hk => h ⟨rfl, hk⟩]
  · rw [Function.update_of_ne ht]

theorem table_concat (e : Pages) (r : ℕ) (p : List Idx) (i : Idx) :
    table e r (p ++ [i]) = (table e r p).bind fun t => child e t i := follow_concat _ r p i

theorem mem_used (hp : p.length ≤ 2) (ht : table e r p = some t) : t ∈ Used e r := ⟨p, hp, ht⟩

/-! ### A new leaf -/

/-- An entry that points to no page-table page, replaced by one that points to none: the table has
the same pages. -/
theorem table_setEntry (hold : child e t k = none) (hpte : IsLeaf pte) (p : List Idx) :
    table (setEntry e t k pte) r p = table e r p := by
  have hchild : child (setEntry e t k pte) = child e := by
    funext u i
    by_cases hu : u = t ∧ i = k
    · obtain ⟨rfl, rfl⟩ := hu
      rw [hold, child, setEntry_self, if_neg fun hc => hc.2 hpte]
    · unfold child
      rw [setEntry_of_ne hu]
  rw [table, hchild]
  rfl

theorem child_of_not_valid (h : ¬ Has (e t k) PTE_V) : child e t k = none := if_neg fun hc => h hc.1

/-- A leaf in a free slot below the top level. -/
theorem Tree.setLeaf (h : Tree e r) (hp : p ≠ []) (hlen : p.length ≤ 2) (ht : table e r p = some t)
    (hV : ¬ Has (e t k) PTE_V) (hpte : IsLeaf pte) : Tree (setEntry e t k pte) r := by
  have htable := table_setEntry (r := r) (child_of_not_valid hV) hpte
  constructor
  case inj =>
    intro q q' u hq hq' hu hu'
    rw [htable] at hu hu'
    exact h.inj q q' u hq hq' hu hu'
  case top =>
    intro i
    have hr : ¬ (r = t ∧ i = k) := by
      rintro ⟨rfl, -⟩
      exact hp (h.inj p [] r hlen (by simp) ht rfl)
    rw [setEntry_of_ne hr]
    exact h.top i
  case bottom =>
    intro q u i hq hu hVu
    rw [htable] at hu
    by_cases hut : u = t ∧ i = k
    · rw [hut.1, hut.2, setEntry_self]
      exact hpte
    · rw [setEntry_of_ne hut] at hVu ⊢
      exact h.bottom q u i hq hu hVu
  case pointer =>
    intro q u i hq hu hVu hleaf
    rw [htable] at hu
    by_cases hut : u = t ∧ i = k
    · rw [hut.1, hut.2, setEntry_self] at hleaf
      exact absurd hpte hleaf
    · rw [setEntry_of_ne hut] at hVu hleaf ⊢
      exact h.pointer q u i hq hu hVu hleaf

/-- A new leaf of 2 MiB serves the pages of its slot. -/
theorem leaf_setEntry_one {a : Idx} (h : Tree e r) (ht : table e r [a] = some t)
    (hold : ¬ Has (e t k) PTE_V) (hV : Has pte PTE_V) (hpte : IsLeaf pte) (v : ℕ) :
    leaf (setEntry e t k pte) r v =
      if px 2 v = a ∧ px 1 v = k then some (1, pte) else leaf e r v := by
  unfold leaf
  simp only [table_setEntry (child_of_not_valid hold) hpte]
  by_cases hva : px 2 v = a
  swap
  · rw [if_neg fun hc => hva hc.1]
    cases ht₁ : table e r [px 2 v] with
    | none => rfl
    | some t₁ =>
      have hne : t₁ ≠ t := by
        rintro rfl
        exact hva (List.cons.inj (h.inj _ _ _ (by simp) (by simp) ht₁ ht)).1
      simp only [Option.bind_some]
      cases ht₀ : table e r [px 2 v, px 1 v] with
      | none => simp only [setEntry_of_ne fun hc : t₁ = t ∧ _ => hne hc.1]
      | some t₀ =>
        have hne₀ : t₀ ≠ t := by
          rintro rfl
          cases h.inj _ _ _ (by simp) (by simp) ht₀ ht
        simp only [setEntry_of_ne fun hc : t₀ = t ∧ _ => hne₀ hc.1]
  · rw [hva, ht]
    simp only [Option.bind_some, true_and]
    by_cases hk : px 1 v = k
    · have hnone : table e r [a, k] = none := by
        rw [show [a, k] = [a] ++ [k] from rfl, table_concat, ht, Option.bind_some,
          child_of_not_valid hold]
      rw [hk, if_pos rfl, hnone]
      simp only [setEntry_self, if_pos hV]
    · rw [if_neg hk]
      cases ht₀ : table e r [a, px 1 v] with
      | none => simp only [setEntry_of_ne fun hc : t = t ∧ _ => hk hc.2]
      | some t₀ =>
        have hne₀ : t₀ ≠ t := by
          rintro rfl
          cases h.inj _ _ _ (by simp) (by simp) ht₀ ht
        simp only [setEntry_of_ne fun hc : t₀ = t ∧ _ => hne₀ hc.1]

/-- A new leaf of 4 KiB serves its page. -/
theorem leaf_setEntry_zero {a b : Idx} (h : Tree e r) (ht : table e r [a, b] = some t)
    (hold : ¬ Has (e t k) PTE_V) (hV : Has pte PTE_V) (hpte : IsLeaf pte) (v : ℕ) :
    leaf (setEntry e t k pte) r v =
      if px 2 v = a ∧ px 1 v = b ∧ px 0 v = k then some (0, pte) else leaf e r v := by
  unfold leaf
  simp only [table_setEntry (child_of_not_valid hold) hpte]
  cases ht₁ : table e r [px 2 v] with
  | none =>
    rw [if_neg]
    · rfl
    · rintro ⟨rfl, -⟩
      rw [show [px 2 v, b] = [px 2 v] ++ [b] from rfl, table_concat, ht₁] at ht
      cases ht
  | some t₁ =>
    have hne : t₁ ≠ t := by
      rintro rfl
      cases h.inj _ _ _ (by simp) (by simp) ht₁ ht
    simp only [Option.bind_some, setEntry_of_ne fun hc : t₁ = t ∧ _ => hne hc.1]
    by_cases hab : px 2 v = a ∧ px 1 v = b
    · obtain ⟨rfl, rfl⟩ := hab
      rw [ht]
      by_cases hk : px 0 v = k
      · simp [hk, setEntry_self, hV]
      · simp [hk, setEntry_of_ne fun hc : t = t ∧ _ => hk hc.2]
    · have hall : ¬ (px 2 v = a ∧ px 1 v = b ∧ px 0 v = k) := fun hc => hab ⟨hc.1, hc.2.1⟩
      rw [if_neg hall]
      cases ht₀ : table e r [px 2 v, px 1 v] with
      | none => rfl
      | some t₀ =>
        have hne₀ : t₀ ≠ t := by
          rintro rfl
          have := h.inj _ _ _ (by simp) (by simp) ht₀ ht
          simp only [List.cons.injEq, and_true] at this
          exact hab this
        simp only [setEntry_of_ne fun hc : t₀ = t ∧ _ => hne₀ hc.1]

/-! ### A new page-table page -/

/-- `e` with the cleared page `g` below index `k` of page `t`. -/
def hang (e : Pages) (t : ℕ) (k : Idx) (g : ℕ) : Pages :=
  setEntry (Function.update e g fun _ => 0) t k (mkPte g PTE_G)

theorem hang_self (e : Pages) (t : ℕ) (k : Idx) (g : ℕ) : hang e t k g t k = mkPte g PTE_G :=
  setEntry_self _ _ _ _

theorem hang_new (h : t ≠ g) (i : Idx) : hang e t k g g i = 0 := by
  rw [hang, setEntry_of_ne fun hc => h hc.1.symm, Function.update_self]

theorem hang_of_ne {u : ℕ} {i : Idx} (hg : u ≠ g) (h : ¬ (u = t ∧ i = k)) :
    hang e t k g u i = e u i := by rw [hang, setEntry_of_ne h, Function.update_of_ne hg]

theorem mkPte_lt_pow {pa fl : ℕ} (hpa : pa < 2 ^ 56) (hfl : fl < 1024) : mkPte pa fl < 2 ^ 54 := by
  unfold mkPte
  rw [PA2PTE_eq (by omega)]
  exact Nat.or_lt_two_pow (Nat.or_lt_two_pow (by omega) (by omega)) (by decide)

/-- The entry that points to a new page-table page. -/
theorem pointer_mkPte (hg : g < 2 ^ 56) (hal : g % 4096 = 0) :
    ¬ IsLeaf (mkPte g PTE_G) ∧ PTE2PA (mkPte g PTE_G) = g ∧ mkPte g PTE_G < 2 ^ 54 := by
  have hlt : g < 2 ^ 64 := by omega
  refine ⟨?_, ?_, ?_⟩
  · rintro (hc | hc | hc)
    · exact absurd ((has_mkPte (k := 1) hlt (by decide) (by decide)).mp hc) (by decide)
    · exact absurd ((has_mkPte (k := 2) hlt (by decide) (by decide)).mp hc) (by decide)
    · exact absurd ((has_mkPte (k := 3) hlt (by decide) (by decide)).mp hc) (by decide)
  · rw [PTE2PA_mkPte hlt (by decide)]
    omega
  · exact mkPte_lt_pow hg (by decide)

section Hang
variable (h : Tree e r) (hp : p.length ≤ 1) (ht : table e r p = some t)
  (hV : ¬ Has (e t k) PTE_V) (hg : g < 2 ^ 56) (hal : g % 4096 = 0) (hnew : g ∉ Used e r)
include h hp ht hV hg hal hnew

/-- The table has one more page. -/
theorem table_hang {q : List Idx} (hq : q.length ≤ 2) :
    table (hang e t k g) r q = if q = p ++ [k] then some g else table e r q := by
  obtain ⟨hleaf, hpa, -⟩ := pointer_mkPte hg hal
  have htg : t ≠ g := by
    rintro rfl
    exact hnew (mem_used (by omega) ht)
  refine follow_graft (n := 1) ht (fun q hq hqt => h.inj q p t (by omega) (by omega) hqt ht)
    (child_of_not_valid hV) (fun j => ?_) (fun j => ?_) (fun q u hq hu hut j => ?_) q hq
  · by_cases hj : j = k
    · rw [if_pos hj, hj, child, hang_self, if_pos ⟨has_mkPte_V _ _, hleaf⟩, hpa]
    · rw [if_neg hj, child, hang_of_ne htg fun hc => hj hc.2]
      rfl
  · exact child_of_not_valid (by rw [hang_new htg]; exact not_has_zero _)
  · have hug : u ≠ g := by
      rintro rfl
      exact hnew (mem_used (by omega) hu)
    unfold child
    rw [hang_of_ne hug fun hc => hut hc.1]

/-- A page of the table before: where it is, and that its other entries stay. -/
theorem hang_cases {q : List Idx} {u : ℕ} (hq : q.length ≤ 2)
    (hu : table (hang e t k g) r q = some u) :
    q = p ++ [k] ∧ u = g ∨ table e r q = some u ∧ u ≠ g ∧ (u = t → q = p) := by
  rw [table_hang h hp ht hV hg hal hnew hq] at hu
  split_ifs at hu with hc
  · exact Or.inl ⟨hc, (Option.some.inj hu).symm⟩
  · refine Or.inr ⟨hu, ?_, ?_⟩
    · rintro rfl
      exact hnew (mem_used hq hu)
    · rintro rfl
      exact h.inj q p u hq (by omega) hu ht

/-- It is a table still. -/
theorem Tree.hang : Tree (hang e t k g) r := by
  obtain ⟨hleaf, -, hlt⟩ := pointer_mkPte hg hal
  have htg : t ≠ g := by
    rintro rfl
    exact hnew (mem_used (by omega) ht)
  have hcases := @hang_cases e r t g p k h hp ht hV hg hal hnew
  have hzero : ∀ i, ¬ Has (Kvm.hang e t k g g i) PTE_V := fun i => by
    rw [hang_new htg]
    exact not_has_zero _
  constructor
  case inj =>
    intro q q' u hq hq' hu hu'
    rcases hcases hq hu with ⟨rfl, hug⟩ | ⟨hu, hne, -⟩
    · rcases hcases hq' hu' with ⟨rfl, -⟩ | ⟨-, hne, -⟩
      · rfl
      · exact absurd hug hne
    · rcases hcases hq' hu' with ⟨-, hug⟩ | ⟨hu', -, -⟩
      · exact absurd hug hne
      · exact h.inj q q' u hq hq' hu hu'
  case top =>
    intro i
    have hrg : r ≠ g := by
      rintro rfl
      exact hnew (mem_used (by simp) (rfl : table e r [] = some r))
    by_cases hc : r = t ∧ i = k
    · rw [hc.1, hc.2, hang_self]
      exact fun _ => hleaf
    · rw [hang_of_ne hrg hc]
      exact h.top i
  case bottom =>
    intro q u i hq hu hVu
    rcases hcases (by omega) hu with ⟨-, rfl⟩ | ⟨hu, hne, hut⟩
    · exact absurd hVu (hzero i)
    · have hc : ¬ (u = t ∧ i = k) := by
        rintro ⟨rfl, -⟩
        have := hut rfl
        subst this
        omega
      rw [hang_of_ne hne hc] at hVu ⊢
      exact h.bottom q u i hq hu hVu
  case pointer =>
    intro q u i hq hu hVu hlf
    rcases hcases (by omega) hu with ⟨-, rfl⟩ | ⟨hu, hne, -⟩
    · exact absurd hVu (hzero i)
    · by_cases hc : u = t ∧ i = k
      · rw [hc.1, hc.2, hang_self]
        exact hlt
      · rw [hang_of_ne hne hc] at hVu hlf ⊢
        exact h.pointer q u i hq hu hVu hlf

/-- No leaf changes. -/
theorem leaf_hang (v : ℕ) : leaf (hang e t k g) r v = leaf e r v := by
  have htg : t ≠ g := by
    rintro rfl
    exact hnew (mem_used (by omega) ht)
  have htable := @table_hang e r t g p k h hp ht hV hg hal hnew
  have hzero : ∀ i, ¬ Has (hang e t k g g i) PTE_V := fun i => by
    rw [hang_new htg]
    exact not_has_zero _
  have hsame : ∀ {q : List Idx} {u : ℕ} {i : Idx}, q.length ≤ 2 → table e r q = some u →
      q ++ [i] ≠ p ++ [k] → hang e t k g u i = e u i := by
    intro q u i hq hu hne
    have hug : u ≠ g := by
      rintro rfl
      exact hnew (mem_used hq hu)
    refine hang_of_ne hug ?_
    rintro ⟨rfl, rfl⟩
    exact hne (by rw [h.inj q p u hq (by omega) hu ht])
  unfold leaf
  rw [htable (by simp), htable (by simp)]
  by_cases hc₁ : [px 2 v] = p ++ [k]
  · -- the new page is on the upper level
    have hnone : table e r [px 2 v] = none := by
      rw [hc₁, table_concat, ht, Option.bind_some, child_of_not_valid hV]
    have hc₀ : [px 2 v, px 1 v] ≠ p ++ [k] := by
      rw [← hc₁]
      simp
    have hnone₀ : table e r [px 2 v, px 1 v] = none := by
      rw [show [px 2 v, px 1 v] = [px 2 v] ++ [px 1 v] from rfl, table_concat, hnone]
      rfl
    rw [if_pos hc₁, if_neg hc₀, hnone, hnone₀]
    simp only [Option.bind_some, if_neg (hzero _), Option.bind_none]
  · rw [if_neg hc₁]
    cases ht₁ : table e r [px 2 v] with
    | none => rfl
    | some t₁ =>
      simp only [Option.bind_some]
      by_cases hc₀ : [px 2 v, px 1 v] = p ++ [k]
      · -- the new page is on the lower level
        have hnone₀ : table e r [px 2 v, px 1 v] = none := by
          rw [hc₀, table_concat, ht, Option.bind_some, child_of_not_valid hV]
        have hc₁ : [px 2 v] ++ [px 1 v] = p ++ [k] := hc₀
        obtain ⟨rfl, hk⟩ := List.append_inj' hc₁ rfl
        obtain rfl : px 1 v = k := List.singleton_inj.mp hk
        obtain rfl : t₁ = t := by
          rw [ht] at ht₁
          exact (Option.some.inj ht₁).symm
        rw [if_pos hc₀, hnone₀]
        simp only [if_neg (hzero _), if_neg hV]
      · rw [if_neg hc₀]
        cases ht₀ : table e r [px 2 v, px 1 v] with
        | none => simp only [hsame (i := px 1 v) (by simp) ht₁ hc₀]
        | some t₀ =>
          have hc : [px 2 v, px 1 v] ++ [px 0 v] ≠ p ++ [k] := by
            intro hc
            have := congrArg List.length hc
            simp only [List.length_append, List.length_cons, List.length_nil] at this
            omega
          simp only [hsame (i := px 0 v) (by simp) ht₀ hc]

end Hang

/-! ### One round -/

/-- The state has a table at `r`, and fresh pages for it. -/
structure Ready (s : State) (r : ℕ) : Prop where
  tree : Tree s.entry r
  fresh : Fresh s.entry r s.pages

variable {s s' : State} {pgtbl level vaddr paddr sz perm : ℕ}

/-- Pages that are fresh stay fresh while no page becomes used. -/
theorem Fresh.congr {pages : List ℕ} (h : Fresh e r pages)
    (ht : ∀ q, q.length ≤ 2 → table e' r q = table e r q) : Fresh e' r pages := by
  refine ⟨h.nodup, h.kva, h.aligned, h.phys, fun newpg hn hu => h.unused newpg hn ?_⟩
  obtain ⟨q, hq, hqt⟩ := hu
  exact ⟨q, hq, by rw [← ht q hq, hqt]⟩

/-- The pages after the first one, when that one became used. -/
theorem Fresh.tail {newpg : ℕ} {pages : List ℕ} (h : Fresh e r (newpg :: pages))
    (ht : ∀ q, q.length ≤ 2 → table e' r q = table e r q ∨ table e' r q = some (KVA_TO_PA newpg)) :
    Fresh e' r pages := by
  have hnodup := List.nodup_cons.mp (List.map_cons ▸ h.nodup)
  refine ⟨hnodup.2, fun g hg => h.kva g (by simp [hg]), fun g hg => h.aligned g (by simp [hg]),
    fun g hg => h.phys g (by simp [hg]), fun g hg hu => ?_⟩
  obtain ⟨q, hq, hqt⟩ := hu
  rcases ht q hq with hsame | hnew
  · exact h.unused g (by simp [hg]) ⟨q, hq, by rw [← hsame, hqt]⟩
  · rw [hnew, Option.some.injEq] at hqt
    have hmem : KVA_TO_PA g ∈ pages.map KVA_TO_PA := List.mem_map_of_mem hg
    rw [← hqt] at hmem
    exact hnodup.1 hmem

/-- **The next level is there**, and no leaf has changed; or no page is left, or a leaf is in the
way. -/
theorem wp_nextLevel (hs : Ready s r) (hp : p.length ≤ 1) (ht : table s.entry r p = some t)
    (hpgtbl : KVA_TO_PA pgtbl = t) :
    wp (nextLevel level vaddr pgtbl k) s
      (fun o s' => Ready s' r ∧ s.pages.length ≤ s'.pages.length + 1 ∧
        (∀ v, leaf s'.entry r v = leaf s.entry r v) ∧
        table s'.entry r (p ++ [k]) = some (KVA_TO_PA o) ∧
        ∀ q, q.length ≤ p.length → table s'.entry r q = table s.entry r q)
      (fun panic _ => panic = .noPage ∧ s.pages = [] ∨
        panic = .alreadyMapped level vaddr ∧ Has (s.entry t k) PTE_V ∧ IsLeaf (s.entry t k)) := by
  unfold nextLevel readPte
  refine wp_bind.mpr (wp_bind.mpr (wp_get.mpr (wp_pure.mpr ?_)))
  rw [hpgtbl]
  split_ifs with hV
  · -- a valid entry
    refine wp_bind.mpr (wp_ensure.mpr ⟨fun hleaf => wp_pure.mpr ?_, fun hleaf => ?_⟩)
    · refine ⟨hs, by omega, fun v => rfl, ?_, fun q _ => rfl⟩
      rw [table_concat, ht, Option.bind_some, child, if_pos ⟨hV, hleaf⟩,
        KVA_TO_PA_PA_TO_KVA (PTE2PA_lt _)]
    · exact Or.inr ⟨rfl, hV, not_not.mp hleaf⟩
  · unfold allockernelpage
    refine wp_bind.mpr (wp_bind.mpr (wp_get.mpr ?_))
    cases hpages : s.pages with
    | nil => exact wp_throw.mpr (Or.inl ⟨rfl, rfl⟩)
    | cons newpg pages =>
      have hfresh := hs.fresh
      rw [hpages] at hfresh
      have hmem : newpg ∈ newpg :: pages := List.mem_cons_self
      have hphys := hfresh.phys newpg hmem
      have hal := hfresh.aligned newpg hmem
      have hnew := hfresh.unused newpg hmem
      refine wp_bind.mpr (wp_modify.mpr (wp_pure.mpr (wp_bind.mpr (wp_modify.mpr
        (wp_bind.mpr (wp_modify.mpr (wp_pure.mpr ?_)))))))
      have htail := fun e' => @Fresh.tail _ e' _ _ _ hfresh
      rw [hpgtbl]
      generalize KVA_TO_PA newpg = g at hphys hal hnew htail ⊢
      change Ready ⟨hang s.entry t k g, pages⟩ r ∧ _
      have htable : ∀ {q : List Idx}, q.length ≤ 2 → _ :=
        @table_hang s.entry r t g p k hs.tree hp ht hV hphys hal hnew
      refine ⟨⟨hs.tree.hang hp ht hV hphys hal hnew, htail _ fun q hq => ?_⟩, by simp,
        leaf_hang hs.tree hp ht hV hphys hal hnew, ?_, fun q hq => ?_⟩
      · rw [htable hq]
        split_ifs
        · exact Or.inr rfl
        · exact Or.inl rfl
      · have hlen : (p ++ [k]).length ≤ 2 := by
          rw [List.length_append, List.length_singleton]
          omega
        exact (htable hlen).trans (if_pos rfl)
      · refine (htable (by omega)).trans (if_neg ?_)
        rintro rfl
        rw [List.length_append, List.length_singleton] at hq
        omega

/-- What one round makes: the leaf of the page number `v` and of those in its slot. -/
def Put (e e' : Pages) (r vaddr paddr perm sz : ℕ) (v d : ℕ) : Prop :=
  d = PGSIZE_2M ∧ IS_ALIGNED vaddr PGSIZE_2M ∧ IS_ALIGNED paddr PGSIZE_2M ∧ PGSIZE_2M ≤ sz ∧
    (∀ w, leaf e' r w = if px 2 w = px 2 v ∧ px 1 w = px 1 v then some (1, mkPte paddr perm)
      else leaf e r w) ∨
  d = PGSIZE ∧
    ∀ w, leaf e' r w = if px 2 w = px 2 v ∧ px 1 w = px 1 v ∧ px 0 w = px 0 v then
      some (0, mkPte paddr perm) else leaf e r w

theorem isLeaf_mkPte (paddr : ℕ) (h : IsLeaf perm) : IsLeaf (mkPte paddr perm) := by
  unfold IsLeaf mkPte
  rcases h with h | h | h
  · exact Or.inl ((has_or _ _ _).mpr (Or.inl ((has_or _ _ _).mpr (Or.inr h))))
  · exact Or.inr (Or.inl ((has_or _ _ _).mpr (Or.inl ((has_or _ _ _).mpr (Or.inr h)))))
  · exact Or.inr (Or.inr ((has_or _ _ _).mpr (Or.inl ((has_or _ _ _).mpr (Or.inr h)))))

/-- A store of a leaf in a free slot below the top. -/
theorem Ready.setLeaf (h : Ready s r) (hp : p ≠ []) (hlen : p.length ≤ 2)
    (ht : table s.entry r p = some t) (hV : ¬ Has (s.entry t k) PTE_V) (hpte : IsLeaf pte) :
    Ready { s with entry := setEntry s.entry t k pte } r :=
  ⟨h.tree.setLeaf hp hlen ht hV hpte,
    h.fresh.congr fun q _ => table_setEntry (child_of_not_valid hV) hpte q⟩

/-- **One round puts one leaf where there was none**, or no page is left, or there is a leaf. -/
theorem wp_mapOne (hs : Ready s r) (hr : KVA_TO_PA pgtbl = r) (hperm : IsLeaf perm)
    (hv : vaddr / 4096 = v) :
    wp (mapOne pgtbl perm vaddr paddr sz) s
      (fun d s' => Ready s' r ∧ s.pages.length ≤ s'.pages.length + 2 ∧ leaf s.entry r v = none ∧
        Put s.entry s'.entry r vaddr paddr perm sz v d)
      (fun panic _ => panic = .noPage ∧ s.pages.length < 2 ∨ leaf s.entry r v ≠ none) := by
  unfold mapOne
  simp only [vpn_eq, hv]
  refine wp_seq (wp_mono (wp_nextLevel (p := []) hs (by simp) (rfl : table s.entry r [] = some r) hr)
    (fun _ _ h => h) fun panic _ hE => ?_) ?_
  · rcases hE with ⟨hpanic, hnil⟩ | ⟨-, hV, hleaf⟩
    · exact Or.inl ⟨hpanic, by rw [hnil]; simp⟩
    · exact absurd hleaf (hs.tree.top _ hV)
  rintro pgtbl₁ s₁ ⟨hs₁, hlen₁, hleaf₁, ht₁, -⟩
  rw [List.nil_append] at ht₁
  generalize hg₁ : KVA_TO_PA pgtbl₁ = t₁ at ht₁
  unfold readPte
  refine wp_bind.mpr (wp_bind.mpr (wp_get.mpr (wp_pure.mpr ?_)))
  rw [hg₁]
  split_ifs with hc
  · -- a leaf of 2 MiB
    obtain ⟨hV, hva, hpa, hsz⟩ := hc
    refine wp_bind.mpr (wp_modify.mpr (wp_pure.mpr ?_))
    rw [hg₁]
    have hput := leaf_setEntry_one hs₁.tree ht₁ hV (has_mkPte_V paddr perm) (isLeaf_mkPte paddr hperm)
    refine ⟨hs₁.setLeaf (by simp) (by simp) ht₁ hV (isLeaf_mkPte paddr hperm), by dsimp; omega, ?_,
      Or.inl ⟨rfl, hva, hpa, hsz, fun w => ?_⟩⟩
    · rw [← hleaf₁, leaf, ht₁, Option.bind_some]
      have hnone : table s₁.entry r [px 2 v, px 1 v] = none := by
        rw [show [px 2 v, px 1 v] = [px 2 v] ++ [px 1 v] from rfl, table_concat, ht₁,
          Option.bind_some, child_of_not_valid hV]
      rw [hnone]
      exact if_neg hV
    · rw [← hleaf₁ w]
      exact hput w
  · refine wp_seq (wp_mono (wp_nextLevel (p := [px 2 v]) hs₁ (by simp) ht₁ hg₁)
      (fun _ _ h => h) fun panic _ hE => ?_) ?_
    · rcases hE with ⟨hpanic, hnil⟩ | ⟨-, hV, hlf⟩
      · rw [hnil] at hlen₁
        exact Or.inl ⟨hpanic, by simp at hlen₁; omega⟩
      · refine Or.inr ?_
        have hnone : table s₁.entry r [px 2 v, px 1 v] = none := by
          rw [show [px 2 v, px 1 v] = [px 2 v] ++ [px 1 v] from rfl, table_concat, ht₁,
            Option.bind_some, child, if_neg fun hc => hc.2 hlf]
        rw [← hleaf₁, leaf, ht₁, Option.bind_some, hnone]
        simp [hV]
    rintro pgtbl₀ s₂ ⟨hs₂, hlen₂, hleaf₂, ht₀, -⟩
    change table s₂.entry r [px 2 v, px 1 v] = _ at ht₀
    generalize hg₀ : KVA_TO_PA pgtbl₀ = t₀ at ht₀
    have ht₁' : ∃ t, table s₂.entry r [px 2 v] = some t := by
      rw [show [px 2 v, px 1 v] = [px 2 v] ++ [px 1 v] from rfl, table_concat] at ht₀
      cases h : table s₂.entry r [px 2 v] with
      | none => rw [h] at ht₀; cases ht₀
      | some t => exact ⟨t, rfl⟩
    obtain ⟨t₂, ht₂⟩ := ht₁'
    have hleaf : leaf s.entry r v =
        if Has (s₂.entry t₀ (px 0 v)) PTE_V then some (0, s₂.entry t₀ (px 0 v)) else none := by
      rw [← hleaf₁, ← hleaf₂, leaf, ht₂, Option.bind_some, ht₀]
    refine wp_bind.mpr (wp_bind.mpr (wp_get.mpr (wp_pure.mpr ?_)))
    refine wp_bind.mpr (wp_ensure.mpr ⟨fun hV => ?_, fun hV => Or.inr ?_⟩)
    · refine wp_bind.mpr (wp_modify.mpr (wp_pure.mpr ?_))
      rw [hg₀]
      have hput := leaf_setEntry_zero hs₂.tree ht₀ hV (has_mkPte_V paddr perm)
        (isLeaf_mkPte paddr hperm)
      refine ⟨hs₂.setLeaf (by simp) (by simp) ht₀ hV (isLeaf_mkPte paddr hperm), by dsimp; omega, ?_,
        Or.inr ⟨rfl, fun w => ?_⟩⟩
      · rw [hleaf, if_neg hV]
      · rw [← hleaf₁ w, ← hleaf₂ w]
        exact hput w
    · rw [hleaf, if_pos (not_not.mp hV)]
      simp

end UCore.Vm.Kvm

import UCore.Vm.Lives

/-! # Access to user memory

`copy_to_user`, `copy_from_user` and `copystr_from_user`: page by page through `walkaddr` and the
direct mapping. A buffer of the kernel is a function or a list of bytes. The one test of an address
is that of `walkaddr`, which asks for a valid entry with `PTE_U`: so the accessors reach user pages
below `MAXVA` only, whatever other permissions these have (`accessors_grant`), and the only panic is
that of a first page above `MAXVA`. -/

namespace UCore.Vm.Uaccess

open UCore.Lib.Bytes UCore.Lib.Hoare UCore.Riscv UCore.Mem.State UCore.Mem.Kalloc UCore.Mem.Boot
open UCore.Vm.Spaces UCore.Vm.Tables UCore.Vm.Growth UCore.Vm.Walk UCore.Vm.Map UCore.Vm.Refine
open UCore.Vm.VmaList UCore.Vm.Count UCore.Vm.Process UCore.Vm.Family UCore.Vm.Lives

/-! ### The code -/

/-- The bytes of one round: to the end of the page of `va`, but at most `len`. -/
def chunk (va len : ℕ) : ℕ := min (PGSIZE - (va - PGROUNDDOWN va)) len

theorem sub_PGROUNDDOWN (va : ℕ) : va - PGROUNDDOWN va = va % 4096 := by
  rw [PGROUNDDOWN_eq]; omega

theorem chunk_eq (va len : ℕ) : chunk va len = min (4096 - va % 4096) len := by
  rw [chunk, sub_PGROUNDDOWN, PGSIZE_eq]

theorem chunk_pos (va : ℕ) {len : ℕ} (h : len ≠ 0) : 0 < chunk va len := by
  rw [chunk_eq]; omega

variable (L : Layout)

/-- `copy_to_user(mm, dstva, src, len)`. -/
def copyToUser (mm : Mm) (dstva : ℕ) (src : ℕ → UInt8) (len : ℕ) : KM ℤ :=
  if _h : len = 0 then
    return 0
  else do
    let va0 := PGROUNDDOWN dstva
    let pa0 ← walkaddr L mm va0
    if pa0 = 0 then
      return -1
    else
      let n := chunk dstva len
      kblit L (PA_TO_KVA pa0 + (dstva - va0)) n src
      copyToUser mm ((va0 + PGSIZE) % 2 ^ 64) (fun k => src (n + k)) (len - n)
termination_by len
decreasing_by
  have := chunk_pos dstva _h
  omega

/-- `copy_from_user(mm, dst, srcva, len)`, with the bytes that went to `dst`. -/
def copyFromUser (mm : Mm) (srcva len : ℕ) : KM (ℤ × List UInt8) :=
  if _h : len = 0 then
    return (0, [])
  else do
    let va0 := PGROUNDDOWN srcva
    let pa0 ← walkaddr L mm va0
    if pa0 = 0 then
      return (-1, [])
    else
      let n := chunk srcva len
      let bytes ← kread L (PA_TO_KVA pa0 + (srcva - va0)) n
      let (ret, rest) ← copyFromUser mm ((va0 + PGSIZE) % 2 ^ 64) (len - n)
      return (ret, bytes ++ rest)
termination_by len
decreasing_by
  have := chunk_pos srcva _h
  omega

/-- The inner loop of `copystr_from_user`: the bytes that went to `dst`, and `got_null`. -/
def copystrPage : ℕ → ℕ → KM (List UInt8 × Bool)
  | _, 0 => return ([], false)
  | p, n + 1 => do
    let c ← kread8 L p
    if c = 0 then
      return ([0], true)
    else
      let (bytes, gotNull) ← copystrPage (p + 1) n
      return (c :: bytes, gotNull)

/-- `copystr_from_user(mm, dst, srcva, max)` with `len` bytes so far, and the bytes that went to
`dst`. -/
def copystrLoop (mm : Mm) (srcva max len : ℕ) : KM (ℤ × List UInt8) :=
  if _h : max = 0 then
    return (len, [])
  else do
    let va0 := PGROUNDDOWN srcva
    let pa0 ← walkaddr L mm va0
    if pa0 = 0 then
      return (-1, [])
    else
      let n := chunk srcva max
      let (bytes, gotNull) ← copystrPage L (PA_TO_KVA pa0 + (srcva - va0)) n
      if gotNull then
        return (len + bytes.length - 1, bytes)
      else
        let (ret, rest) ← copystrLoop mm ((va0 + PGSIZE) % 2 ^ 64) (max - n) (len + n)
        return (ret, bytes ++ rest)
termination_by max
decreasing_by
  have := chunk_pos srcva _h
  omega

/-- `copystr_from_user(mm, dst, srcva, max)`. -/
def copystrFromUser (mm : Mm) (srcva max : ℕ) : KM (ℤ × List UInt8) := copystrLoop L mm srcva max 0

variable {L} {ι : Type} {s s' : KState} {A : View ι} {i : ι} {mm : Mm}

/-! ### One page -/

/-- The user pages of the table of `mm` lead to frames below `MAXVA`. So it is in every address space
of a process (`UserTable.of_userMm`), and in one whose vma list is not complete. -/
structure UserTable (L : Layout) (A : View ι) (i : ι) (mm : Mm) : Prop where
  root : ∃ r, A.tbl i [] = some r ∧ mm.pgt = PA_TO_KVA r
  frame : ∀ v < NVPN, UserPte (A.pte i v) → UserFrame L A i v (PTE2PA (A.pte i v))

theorem UserTable.of_userMm (h : UserMm L A i mm) : UserTable L A i mm :=
  ⟨h.listed.root, fun _ hv hu => h.listed.userFrame (h.covered hv hu.1 hu.2)⟩

variable [DecidableEq ι]

/-- What `walkaddr` says of the page of `va`. -/
theorem wp_walkaddr_page (h : Reps L s A) (hmm : UserTable L A i mm) (va : ℕ) :
    wp (walkaddr L mm (PGROUNDDOWN va)) s
      (fun o s' => s' = s ∧ PGROUNDDOWN va ≤ MAXVA ∧
        (o = 0 ∧ ¬ UserPte (A.pte i (va / 4096)) ∨ UserFrame L A i (va / 4096) o))
      fun e s' => s' = s ∧ e = .invalidUserVA ∧ MAXVA < PGROUNDDOWN va := by
  obtain ⟨r, hr, hpgt⟩ := hmm.root
  by_cases hva : PGROUNDDOWN va ≤ MAXVA
  · have hal : PGALIGNED (PGROUNDDOWN va) := by
      rw [PGALIGNED_iff, PGROUNDDOWN_eq]; omega
    have hdiv : PGROUNDDOWN va / 4096 = va / 4096 := by rw [PGROUNDDOWN_eq]; omega
    refine (wp_walkaddr h hr hpgt hva hal).imp ?_
    rintro o s' ⟨hs, ho⟩
    have hlt := vpn_lt hva
    rw [hdiv] at ho hlt
    refine ⟨hs, hva, ?_⟩
    by_cases hu : UserPte (A.pte i (va / 4096))
    · rw [userTarget, if_pos ⟨hu.1, hu.2⟩] at ho
      rw [ho]
      exact Or.inr (hmm.frame _ hlt hu)
    · rw [userTarget, if_neg fun hc => hu ⟨hc.1, hc.2⟩] at ho
      exact Or.inl ⟨ho, hu⟩
  · unfold walkaddr
    refine wp_bind.mpr (wp_ensure.mpr ⟨fun hc => absurd hc hva, fun _ => ⟨rfl, rfl, ?_⟩⟩)
    omega

omit [DecidableEq ι] in
theorem userPte_of_frame {v f : ℕ} (h : UserFrame L A i v f) : UserPte (A.pte i v) :=
  ⟨h.valid, h.user⟩

omit [DecidableEq ι] in
/-- After a user page comes an address that is no reason to panic. -/
theorem next_page {va f : ℕ} (h : UserFrame L A i (va / 4096) f) :
    (PGROUNDDOWN va + PGSIZE) % 2 ^ 64 = PGROUNDDOWN va + 4096 ∧
      PGROUNDDOWN (PGROUNDDOWN va + 4096) ≤ MAXVA := by
  have hlt := h.lt
  rw [PGSIZE_eq, PGROUNDDOWN_eq, PGROUNDDOWN_eq, MAXVA_eq]
  omega

/-- The first `n` bytes of the range lie in user pages, and the next one, if any, does not. -/
def Reaches (A : View ι) (i : ι) (va len n : ℕ) : Prop :=
  n ≤ len ∧ (∀ k < n, UserPte (A.pte i ((va + k) / 4096))) ∧
    (n < len → ¬ UserPte (A.pte i ((va + n) / 4096)))

omit [DecidableEq ι] in
theorem reaches_zero {va len : ℕ} (h : len = 0 ∨ ¬ UserPte (A.pte i (va / 4096))) :
    Reaches A i va len 0 :=
  ⟨Nat.zero_le _, fun k hk => by omega, fun h0 => h.resolve_left (by omega)⟩

/-- The address of a byte of the next round. -/
theorem next_add (va len : ℕ) {k : ℕ} (hk : k < len - chunk va len) :
    PGROUNDDOWN va + 4096 + k = va + (chunk va len + k) := by
  have hle := chunk_eq va len
  rw [PGROUNDDOWN_eq]
  omega

omit [DecidableEq ι] in
/-- One round, then the others. -/
theorem Reaches.next {va len n : ℕ} (hu : UserPte (A.pte i (va / 4096)))
    (h : Reaches A i (PGROUNDDOWN va + 4096) (len - chunk va len) n) :
    Reaches A i va len (chunk va len + n) := by
  obtain ⟨hn, hin, hout⟩ := h
  have hle := chunk_eq va len
  refine ⟨by omega, fun k hk => ?_, fun hlt => ?_⟩
  · by_cases hkn : k < chunk va len
    · rwa [show (va + k) / 4096 = va / 4096 by omega]
    · have := hin (k - chunk va len) (by omega)
      rwa [next_add va len (by omega), show chunk va len + (k - chunk va len) = k by omega] at this
  · have := hout (by omega)
    rwa [next_add va len (by omega)] at this

/-! ### Writing -/

/-- From `s` to `s'` only user bytes of the range changed. -/
structure Wrote (L : Layout) (A : View ι) (i : ι) (va len : ℕ) (s s' : KState) : Prop where
  state : s' = { s with mem := s'.mem }
  reps : Reps L s' A
  only : ∀ x, s'.mem x ≠ s.mem x → ∃ k < len, ∃ f, UserFrame L A i ((va + k) / 4096) f ∧
    x = f + (va + k) % 4096

omit [DecidableEq ι] in
theorem Wrote.refl (h : Reps L s A) (va len : ℕ) : Wrote L A i va len s s :=
  ⟨rfl, h, fun _ hx => absurd rfl hx⟩

omit [DecidableEq ι] in
/-- One round. -/
theorem wrote_blit {va f : ℕ} (len : ℕ) (src : ℕ → UInt8) (h : Reps L s A)
    (hf : UserFrame L A i (va / 4096) f) :
    Wrote L A i va (chunk va len) s
      { s with mem := blit s.mem (f + va % 4096) (chunk va len) src } := by
  have hn := chunk_eq va len
  refine ⟨rfl, h.blit hf.frame.aligned (hf.not_kernel h.ok) (by omega) (by omega), fun x hx => ?_⟩
  by_cases hmem : f + va % 4096 ≤ x ∧ x < f + va % 4096 + chunk va len
  · refine ⟨x - (f + va % 4096), by omega, f, ?_, by omega⟩
    rw [show (va + (x - (f + va % 4096))) / 4096 = va / 4096 by omega]
    exact hf
  · exact absurd (blit_of_not_mem hmem) hx

omit [DecidableEq ι] in
/-- One round, then the others. -/
theorem Wrote.next {va len n : ℕ} {s₁ : KState} (h₁ : Wrote L A i va (chunk va len) s s₁)
    (hn : n ≤ len - chunk va len) (h₂ : Wrote L A i (PGROUNDDOWN va + 4096) n s₁ s') :
    Wrote L A i va (chunk va len + n) s s' := by
  refine ⟨?_, h₂.reps, fun x hx => ?_⟩
  · have hs₁ := h₁.state
    have hs' := h₂.state
    rw [hs₁] at hs'
    exact hs'
  · by_cases hx₁ : s₁.mem x = s.mem x
    · obtain ⟨k, hk, f, hf, he⟩ := h₂.only x (by rwa [hx₁])
      rw [next_add va len (by omega)] at hf he
      exact ⟨chunk va len + k, by omega, f, hf, he⟩
    · obtain ⟨k, hk, hf⟩ := h₁.only x hx₁
      exact ⟨k, by omega, hf⟩

/-- The bytes of `src` are at the user addresses from `va` on. -/
def Stored (L : Layout) (A : View ι) (i : ι) (m : Mem) (va len : ℕ) (src : ℕ → UInt8) : Prop :=
  ∀ k < len, ∃ f, UserFrame L A i ((va + k) / 4096) f ∧ m (f + (va + k) % 4096) = src k

omit [DecidableEq ι] in
/-- The bytes of one round stay in the others. -/
theorem Stored.next {va len n f : ℕ} {src : ℕ → UInt8} {m : Mem} (h : A.Ok L)
    (hf : UserFrame L A i (va / 4096) f) (hn : n ≤ len - chunk va len)
    (hw : Wrote L A i (PGROUNDDOWN va + 4096) n
      { s with mem := blit m (f + va % 4096) (chunk va len) src } s')
    (h₂ : Stored L A i s'.mem (PGROUNDDOWN va + 4096) n fun k => src (chunk va len + k)) :
    Stored L A i s'.mem va (chunk va len + n) src := by
  have hle := chunk_eq va len
  intro k hk
  by_cases hkn : k < chunk va len
  · have hva : (va + k) / 4096 = va / 4096 ∧ (va + k) % 4096 = va % 4096 + k := by omega
    rw [hva.1, hva.2]
    refine ⟨f, hf, ?_⟩
    have hsame : s'.mem (f + (va % 4096 + k)) =
        blit m (f + va % 4096) (chunk va len) src (f + (va % 4096 + k)) := by
      by_contra hne
      obtain ⟨j, hj, g, hg, he⟩ := hw.only _ hne
      have hfa := hf.frame.aligned
      have hga := hg.frame.aligned
      have hfg : f = g := by omega
      have := (hf.unique (hfg ▸ hg) h).2
      rw [PGROUNDDOWN_eq] at this
      omega
    rw [hsame, blit_of_mem (by omega) (by omega)]
    congr 1
    omega
  · obtain ⟨g, hg, he⟩ := h₂ (k - chunk va len) (by omega)
    have hk' : chunk va len + (k - chunk va len) = k := by omega
    rw [next_add va len (by omega), hk'] at hg he
    refine ⟨g, hg, he.trans ?_⟩
    show src (chunk va len + (k - chunk va len)) = src k
    rw [hk']

/-- **`copy_to_user`** stores the bytes up to the first page that is not the user's, and changes no
others; it panics only if the first page of a range that is not empty lies above `MAXVA`. -/
theorem wp_copyToUser (hmm : UserTable L A i mm) (dstva : ℕ) (src : ℕ → UInt8) (len : ℕ)
    (h : Reps L s A) :
    wp (copyToUser L mm dstva src len) s
      (fun o s' => ∃ n, Reaches A i dstva len n ∧ o = (if n = len then 0 else -1) ∧
        Stored L A i s'.mem dstva n src ∧ Wrote L A i dstva n s s')
      fun e s' => s' = s ∧ e = .invalidUserVA ∧ 0 < len ∧ MAXVA < PGROUNDDOWN dstva := by
  induction len using Nat.strong_induction_on generalizing s dstva src with
  | _ len ih =>
  rw [copyToUser]
  split_ifs with h0
  · exact ⟨0, reaches_zero (Or.inl h0), (if_pos h0.symm).symm, fun k hk => by omega,
      Wrote.refl h _ _⟩
  refine wp_bind.mpr (wp_mono (wp_walkaddr_page h hmm dstva) ?_ ?_)
  swap
  · rintro e s' ⟨hs, he, hva⟩
    exact ⟨hs, he, by omega, hva⟩
  rintro o s₁ ⟨hs₁, hva, ho⟩
  rw [hs₁]
  rcases ho with ⟨rfl, hn⟩ | hf
  · exact ⟨0, reaches_zero (Or.inr hn), (if_neg fun hc => h0 hc.symm).symm,
      fun k hk => by omega, Wrote.refl h _ _⟩
  have hn := chunk_pos dstva h0
  have hle := chunk_eq dstva len
  obtain ⟨hnext, hnext'⟩ := next_page hf
  rw [if_neg (by have := hf.frame.pos; omega), hnext, sub_PGROUNDDOWN]
  refine wp_bind.mpr (wp_kblit hf.frame rfl (by omega) ?_)
  have h₁ := wrote_blit len src h hf
  refine wp_mono (ih _ (by omega) _ _ h₁.reps) ?_ ?_
  · rintro o s' ⟨n, hr, ho, hst, h₂⟩
    refine ⟨_, hr.next (userPte_of_frame hf), ?_, hst.next h.ok hf hr.1 h₂, h₁.next hr.1 h₂⟩
    rw [ho]
    have := hr.1
    exact if_congr (by omega) rfl rfl
  · rintro e s' ⟨-, -, -, hc⟩
    omega

/-! ### Reading -/

/-- The bytes are those of user memory from `va` on. -/
def UserBytes (L : Layout) (A : View ι) (i : ι) (m : Mem) (va : ℕ) (bytes : List UInt8) : Prop :=
  ∀ k b, bytes[k]? = some b → ∃ f, UserFrame L A i ((va + k) / 4096) f ∧ b = m (f + (va + k) % 4096)

omit [DecidableEq ι] in
theorem userBytes_nil (m : Mem) (va : ℕ) : UserBytes L A i m va [] := by
  intro k b hb
  simp at hb

omit [DecidableEq ι] in
theorem UserBytes.append {m : Mem} {va : ℕ} {xs ys : List UInt8} (hx : UserBytes L A i m va xs)
    (hy : UserBytes L A i m (va + xs.length) ys) : UserBytes L A i m va (xs ++ ys) := by
  intro k b hb
  by_cases hk : k < xs.length
  · rw [List.getElem?_append_left hk] at hb
    exact hx k b hb
  · rw [List.getElem?_append_right (by omega)] at hb
    obtain ⟨f, hf, he⟩ := hy _ b hb
    rw [show va + xs.length + (k - xs.length) = va + k by omega] at hf he
    exact ⟨f, hf, he⟩

omit [DecidableEq ι] in
/-- The bytes of one round, then those of the others. -/
theorem UserBytes.next {m : Mem} {va len : ℕ} {xs ys : List UInt8} (hx : UserBytes L A i m va xs)
    (hxs : xs.length = chunk va len) (hys : ys.length ≤ len - chunk va len)
    (hy : UserBytes L A i m (PGROUNDDOWN va + 4096) ys) : UserBytes L A i m va (xs ++ ys) := by
  refine hx.append fun k b hb => ?_
  have hk : k < ys.length := (List.getElem?_eq_some_iff.mp hb).1
  have := hy k b hb
  rwa [next_add va len (by omega), ← Nat.add_assoc, ← hxs] at this

omit [DecidableEq ι] in
/-- Bytes inside one page. -/
theorem userBytes_page {m : Mem} {va f n : ℕ} {bytes : List UInt8}
    (hf : UserFrame L A i (va / 4096) f) (hn : va % 4096 + n ≤ 4096) (hlen : bytes.length ≤ n)
    (hb : ∀ k b, bytes[k]? = some b → b = m (f + va % 4096 + k)) : UserBytes L A i m va bytes := by
  intro k b hk
  have hlt : k < bytes.length := (List.getElem?_eq_some_iff.mp hk).1
  refine ⟨f, ?_, ?_⟩
  · rw [show (va + k) / 4096 = va / 4096 by omega]; exact hf
  · rw [hb k b hk, show (va + k) % 4096 = va % 4096 + k by omega, Nat.add_assoc]

/-- **`copy_from_user`** reads the bytes up to the first page that is not the user's; it panics like
`copy_to_user`. -/
theorem wp_copyFromUser (hmm : UserTable L A i mm) (h : Reps L s A) (srcva len : ℕ) :
    wp (copyFromUser L mm srcva len) s
      (fun o s' => s' = s ∧ Reaches A i srcva len o.2.length ∧
        o.1 = (if o.2.length = len then 0 else -1) ∧ UserBytes L A i s.mem srcva o.2)
      fun e s' => s' = s ∧ e = .invalidUserVA ∧ 0 < len ∧ MAXVA < PGROUNDDOWN srcva := by
  induction len using Nat.strong_induction_on generalizing srcva with
  | _ len ih =>
  rw [copyFromUser]
  split_ifs with h0
  · exact ⟨rfl, reaches_zero (Or.inl h0), (if_pos h0.symm).symm, userBytes_nil _ _⟩
  refine wp_bind.mpr (wp_mono (wp_walkaddr_page h hmm srcva) ?_ ?_)
  swap
  · rintro e s' ⟨hs, he, hva⟩
    exact ⟨hs, he, by omega, hva⟩
  rintro f s₁ ⟨hs₁, hva, ho⟩
  rw [hs₁]
  rcases ho with ⟨rfl, hn⟩ | hf
  · exact ⟨rfl, reaches_zero (Or.inr hn), (if_neg fun hc => h0 hc.symm).symm, userBytes_nil _ _⟩
  have hn := chunk_pos srcva h0
  have hle := chunk_eq srcva len
  obtain ⟨hnext, hnext'⟩ := next_page hf
  rw [if_neg (by have := hf.frame.pos; omega), hnext, sub_PGROUNDDOWN]
  refine wp_bind.mpr (wp_kread hf.frame rfl (by omega) ?_)
  generalize hbs : (List.range (chunk srcva len)).map (fun j => s.mem (f + srcva % 4096 + j)) = bs
  have hlen : bs.length = chunk srcva len := by rw [← hbs]; simp
  have hbytes : UserBytes L A i s.mem srcva bs := by
    refine userBytes_page (n := chunk srcva len) hf (by omega) hlen.le fun k b hb => ?_
    obtain ⟨hk, hb⟩ := List.getElem?_eq_some_iff.mp hb
    subst hbs
    rw [List.getElem_map, List.getElem_range] at hb
    exact hb.symm
  refine wp_bind.mpr (wp_mono (ih (len - chunk srcva len) (by omega) _) ?_ ?_)
  · rintro ⟨ret, rest⟩ s' ⟨hs', hr, hret, hrest⟩
    change Reaches A i _ _ rest.length at hr
    change ret = if rest.length = _ then _ else _ at hret
    have hsum : (bs ++ rest).length = chunk srcva len + rest.length := by
      rw [List.length_append, hlen]
    refine ⟨hs', ?_, ?_, hbytes.next hlen hr.1 hrest⟩
    · show Reaches A i _ _ (bs ++ rest).length
      rw [hsum]
      exact hr.next (userPte_of_frame hf)
    · show ret = if (bs ++ rest).length = len then _ else _
      rw [hret, hsum]
      have := hr.1
      exact if_congr (by omega) rfl rfl
  · rintro e s' ⟨-, -, -, hc⟩
    omega

/-- The bytes of a string with its null byte, or bytes without one. -/
def Ends (bytes : List UInt8) (gotNull : Bool) : Prop :=
  if gotNull then ∃ str, bytes = str ++ [0] ∧ 0 ∉ str else 0 ∉ bytes

omit [DecidableEq ι] in
/-- The inner loop of `copystr_from_user` reads on until the end or a null byte. -/
theorem wp_copystrPage {f p : ℕ} (hf : L.Frame f) : ∀ {n o : ℕ}, p = PA_TO_KVA f + o →
    o + n ≤ 4096 → wpOk (copystrPage L p n) s fun r s' => s' = s ∧ Ends r.1 r.2 ∧
      r.1.length ≤ n ∧ (r.2 = false → r.1.length = n) ∧
      ∀ k b, r.1[k]? = some b → b = s.mem (f + o + k) := by
  intro n
  induction n generalizing p with
  | zero =>
    intro o _ _
    exact ⟨rfl, List.not_mem_nil, le_rfl, fun _ => rfl, fun k b hb => by simp at hb⟩
  | succ n ih =>
    intro o hp ho
    refine wp_bind.mpr (wp_kread8 hf hp (by omega) ?_)
    split_ifs with h0
    · refine ⟨rfl, ⟨[], rfl, List.not_mem_nil⟩, by simp, (fun hc => by cases hc), fun k b hb => ?_⟩
      obtain ⟨hk, hb⟩ := List.getElem?_eq_some_iff.mp hb
      simp only [List.length_singleton, Nat.lt_one_iff] at hk
      subst hk
      rw [Nat.add_zero, h0]
      exact hb.symm
    · refine (ih (o := o + 1) (by rw [hp, Nat.add_assoc]) (by omega)).seq ?_
      rintro ⟨bytes, gotNull⟩ s' ⟨hs', hends, hlen, hfull, hb⟩
      change bytes.length ≤ n at hlen
      refine ⟨hs', ?_, by simpa using hlen, fun hg => by simpa using hfull hg, fun k b hk => ?_⟩
      · show Ends (_ :: bytes) gotNull
        have h0' : (0 : UInt8) ≠ s.mem (f + o) := fun hc => h0 hc.symm
        unfold Ends at hends ⊢
        split_ifs at hends ⊢
        · obtain ⟨str, he, hno⟩ := hends
          change bytes = str ++ [0] at he
          exact ⟨_ :: str, by rw [he]; rfl, by simp [h0', hno]⟩
        · change 0 ∉ bytes at hends
          simp [h0', hends]
      · cases k with
        | zero =>
          rw [List.getElem?_cons_zero, Option.some.injEq] at hk
          exact hk.symm
        | succ k =>
          rw [hb k b hk]
          congr 1
          omega

/-- What `copystr_from_user` returns with the bytes it read: the length of a string, the number of
bytes read when there is no null byte among `max`, or `-1` at a page that is not the user's. -/
def CopystrRet (A : View ι) (i : ι) (srcva max len : ℕ) (bytes : List UInt8) (ret : ℤ) : Prop :=
  (∃ str, bytes = str ++ [0] ∧ 0 ∉ str ∧ str.length < max ∧ ret = len + str.length) ∨
  (0 ∉ bytes ∧ bytes.length = max ∧ ret = len + max) ∨
  (0 ∉ bytes ∧ bytes.length < max ∧ ¬ UserPte (A.pte i ((srcva + bytes.length) / 4096)) ∧ ret = -1)

omit [DecidableEq ι] in
theorem CopystrRet.length_le {srcva max len : ℕ} {bytes : List UInt8} {ret : ℤ}
    (h : CopystrRet A i srcva max len bytes ret) : bytes.length ≤ max := by
  rcases h with ⟨str, rfl, -, hlt, -⟩ | ⟨-, he, -⟩ | ⟨-, hlt, -⟩
  · rw [List.length_append, List.length_singleton]
    omega
  · exact he.le
  · exact hlt.le

omit [DecidableEq ι] in
/-- One round without a null byte, then the others. -/
theorem CopystrRet.next {srcva max len : ℕ} {bs rest : List UInt8} {ret : ℤ} (hbs : 0 ∉ bs)
    (hlen : bs.length = chunk srcva max)
    (h : CopystrRet A i (PGROUNDDOWN srcva + 4096) (max - chunk srcva max) (len + chunk srcva max)
      rest ret) : CopystrRet A i srcva max len (bs ++ rest) ret := by
  have hle := chunk_eq srcva max
  rcases h with ⟨str, rfl, hno, hlt, hret⟩ | ⟨hno, he, hret⟩ | ⟨hno, hlt, hmiss, hret⟩
  · refine Or.inl ⟨bs ++ str, by rw [List.append_assoc], by simp [hbs, hno], ?_, ?_⟩
    · rw [List.length_append, hlen]
      omega
    · rw [hret, List.length_append, hlen]
      push_cast
      omega
  · refine Or.inr (Or.inl ⟨by simp [hbs, hno], ?_, ?_⟩)
    · rw [List.length_append, hlen, he]
      omega
    · rw [hret]
      omega
  · refine Or.inr (Or.inr ⟨by simp [hbs, hno], ?_, ?_, hret⟩)
    · rw [List.length_append, hlen]
      omega
    · rwa [List.length_append, hlen, ← next_add srcva max hlt]

/-- **`copystr_from_user`** reads user bytes up to a null byte, the limit, or a page that is not the
user's; it panics like `copy_to_user`. -/
theorem wp_copystrLoop (hmm : UserTable L A i mm) (h : Reps L s A) (srcva max len : ℕ) :
    wp (copystrLoop L mm srcva max len) s
      (fun o s' => s' = s ∧ CopystrRet A i srcva max len o.2 o.1 ∧
        UserBytes L A i s.mem srcva o.2)
      fun e s' => s' = s ∧ e = .invalidUserVA ∧ 0 < max ∧ MAXVA < PGROUNDDOWN srcva := by
  induction max using Nat.strong_induction_on generalizing srcva len with
  | _ max ih =>
  rw [copystrLoop]
  split_ifs with h0
  · refine ⟨rfl, Or.inr (Or.inl ⟨List.not_mem_nil, h0.symm, ?_⟩), userBytes_nil _ _⟩
    rw [h0]
    exact (Int.add_zero _).symm
  refine wp_bind.mpr (wp_mono (wp_walkaddr_page h hmm srcva) ?_ ?_)
  swap
  · rintro e s' ⟨hs, he, hva⟩
    exact ⟨hs, he, by omega, hva⟩
  rintro f s₁ ⟨hs₁, hva, ho⟩
  rw [hs₁]
  rcases ho with ⟨rfl, hn⟩ | hf
  · exact ⟨rfl, Or.inr (Or.inr ⟨List.not_mem_nil, by show 0 < max; omega, hn, rfl⟩),
      userBytes_nil _ _⟩
  have hn := chunk_pos srcva h0
  have hle := chunk_eq srcva max
  obtain ⟨hnext, hnext'⟩ := next_page hf
  rw [if_neg (by have := hf.frame.pos; omega), hnext, sub_PGROUNDDOWN]
  refine (wp_copystrPage hf.frame rfl (by omega)).seq ?_
  rintro ⟨bs, gotNull⟩ s₂ ⟨hs₂, hends, hlen, hfull, hb⟩
  rw [hs₂]
  have hbytes : UserBytes L A i s.mem srcva bs := userBytes_page hf (by omega) hlen hb
  cases gotNull with
  | true =>
    obtain ⟨str, hstr, hno⟩ := hends
    change bs = str ++ [0] at hstr
    have hlen' : bs.length = str.length + 1 := by
      rw [hstr, List.length_append, List.length_singleton]
    change bs.length ≤ _ at hlen
    refine ⟨rfl, Or.inl ⟨str, hstr, hno, by omega, ?_⟩, hbytes⟩
    show (len : ℤ) + bs.length - 1 = _
    omega
  | false =>
    have hlen₁ : bs.length = chunk srcva max := hfull rfl
    refine wp_bind.mpr (wp_mono (ih (max - chunk srcva max) (by omega) _ _) ?_ ?_)
    · rintro ⟨ret, rest⟩ s' ⟨hs', hret, hrest⟩
      exact ⟨hs', hret.next hends hlen₁, hbytes.next hlen₁ hret.length_le hrest⟩
    · rintro e s' ⟨-, -, -, hc⟩
      omega

/-! ### What is granted -/

/-- The byte `x` of memory is that of the user address `va`, which lies below `MAXVA`, and whose
entry has the flags. -/
def Grants (flags : List ℕ) (m : Mem) (mm : Mm) (va x : ℕ) : Prop :=
  va < MAXVA ∧ (∀ flag ∈ flags, Has (pteAt m mm (va / 4096)) flag) ∧
    x = PTE2PA (pteAt m mm (va / 4096)) + va % 4096

/-- From `m` to `m'` a byte changed only if it is granted with the flags, at an address of the
range. -/
def OnlyWrites (flags : List ℕ) (mm : Mm) (va len : ℕ) (m m' : Mem) : Prop :=
  ∀ x, m' x ≠ m x → ∃ k < len, Grants flags m mm (va + k) x

/-- The bytes are those of the range from its start on, each granted with the flags. -/
def OnlyReads (flags : List ℕ) (mm : Mm) (va len : ℕ) (m : Mem) (bytes : List UInt8) : Prop :=
  bytes.length ≤ len ∧ ∀ k b, bytes[k]? = some b → ∃ x, Grants flags m mm (va + k) x ∧ b = m x

/-- The accessors of user memory write and read only what the flags grant. -/
structure AccessorsGrant (writeFlags readFlags : List ℕ) (L : Layout) (s : KState) (mm : Mm) :
    Prop where
  copyToUser : ∀ dstva src len, wp (copyToUser L mm dstva src len) s
    (fun _ s' => OnlyWrites writeFlags mm dstva len s.mem s'.mem)
    fun _ s' => OnlyWrites writeFlags mm dstva len s.mem s'.mem
  copyFromUser : ∀ srcva len, wp (copyFromUser L mm srcva len) s
    (fun o s' => s' = s ∧ OnlyReads readFlags mm srcva len s.mem o.2) fun _ s' => s' = s
  copystrFromUser : ∀ srcva max, wp (copystrFromUser L mm srcva max) s
    (fun o s' => s' = s ∧ OnlyReads readFlags mm srcva max s.mem o.2) fun _ s' => s' = s

omit [DecidableEq ι] in
theorem UserFrame.grants (h : Reps L s A) (hmm : UserMm L A i mm) {va f : ℕ}
    (hf : UserFrame L A i (va / 4096) f) :
    Grants [PTE_V, PTE_U] s.mem mm va (f + va % 4096) := by
  have hlt := hf.lt
  have hpte := pteAt_user hmm h (v := va / 4096) (by rw [NVPN_eq]; omega)
  refine ⟨by rw [MAXVA_eq]; omega, fun flag hflag => ?_, ?_⟩
  · rw [hpte]
    simp only [List.mem_cons, List.not_mem_nil, or_false] at hflag
    rcases hflag with rfl | rfl
    · exact hf.valid
    · exact hf.user
  · rw [hpte, hf.target]

omit [DecidableEq ι] in
theorem UserBytes.onlyReads (h : Reps L s A) (hmm : UserMm L A i mm) {va len : ℕ}
    {bytes : List UInt8} (hlen : bytes.length ≤ len) (hb : UserBytes L A i s.mem va bytes) :
    OnlyReads [PTE_V, PTE_U] mm va len s.mem bytes := by
  refine ⟨hlen, fun k b hk => ?_⟩
  obtain ⟨f, hf, he⟩ := hb k b hk
  exact ⟨_, UserFrame.grants h hmm hf, he⟩

theorem UserMm.accessorsGrant (h : Reps L s A) (hmm : UserMm L A i mm) :
    AccessorsGrant [PTE_V, PTE_U] [PTE_V, PTE_U] L s mm := by
  constructor
  case copyToUser =>
    intro dstva src len
    refine wp_mono (wp_copyToUser (.of_userMm hmm) dstva src len h) ?_ ?_
    · rintro o s' ⟨n, hr, -, -, hw⟩ x hx
      obtain ⟨k, hk, f, hf, rfl⟩ := hw.only x hx
      exact ⟨k, lt_of_lt_of_le hk hr.1, UserFrame.grants h hmm hf⟩
    · rintro e s' ⟨hs, -⟩ x hx
      rw [hs] at hx
      exact absurd rfl hx
  case copyFromUser =>
    intro srcva len
    refine wp_mono (wp_copyFromUser (.of_userMm hmm) h srcva len) ?_ fun e s' he => he.1
    rintro o s' ⟨hs, hr, -, hb⟩
    exact ⟨hs, UserBytes.onlyReads h hmm hr.1 hb⟩
  case copystrFromUser =>
    intro srcva max
    refine wp_mono (wp_copystrLoop (.of_userMm hmm) h srcva max 0) ?_ fun e s' he => he.1
    rintro o s' ⟨hs, hret, hb⟩
    exact ⟨hs, UserBytes.onlyReads h hmm hret.length_le hb⟩

/-- **The accessors reach user pages below `MAXVA` only**: for every address space of every run,
every address and every length, a byte is written or read only if its entry is valid and the
user's. -/
theorem accessors_grant {s₀ : KState} {fs : List ℕ} {mms : ι → Option Mm} (hfree : FreeOk L s₀ fs)
    (hlog : LogOk s₀.log fs)
    (hrun : Relation.ReflTransGen (Life L) (s₀, fun _ => none) (s, mms)) (hmm : mms i = some mm) :
    AccessorsGrant [PTE_V, PTE_U] [PTE_V, PTE_U] L s mm := by
  obtain ⟨A, hA, hall⟩ := lives_inv hfree hlog hrun
  exact UserMm.accessorsGrant hA (hall i mm hmm)

theorem accessors_grant_sample : ∃ (s₀ s : KState) (mms : Bool → Option Mm) (mm : Mm),
    Relation.ReflTransGen (Life sampleLayout) (s₀, fun _ => none) (s, mms) ∧
    mms true = some mm ∧ mm.vma = [sampleVma] ∧ s.mem (PTE2PA (pteAt s.mem mm 1)) = 97 ∧
    AccessorsGrant [PTE_V, PTE_U] [PTE_V, PTE_U] sampleLayout s mm := by
  obtain ⟨s₀, s, mm, hfree, hlog, hrun, hlist, hbyte, -⟩ := exists_writer 97
  have hmm := Function.update_self true (some mm) fun _ => none
  exact ⟨s₀, s, _, mm, hrun, hmm, hlist, hbyte, accessors_grant hfree hlog hrun hmm⟩

/-- A vma of one page that is execute-only. -/
def executeOnly : Vma := ⟨0x1000, 0x2000, PTE_X ||| PTE_U⟩

theorem executeOnly_valid : Vma.Valid executeOnly where
  start_le := by decide
  end_le := by decide
  start_al := by decide
  end_al := by decide
  perm := by decide
  flags := by decide

/-- The accessors do not ask for the permission that the hardware asks for: in an address space
with one execute-only page `copy_to_user` writes it and `copy_from_user` reads it. -/
theorem accessors_ignore_permissions : ∃ (s₀ s : KState) (mms : Bool → Option Mm) (mm : Mm),
    kpgmgrinit sampleLayout zeroState = .ok () s₀ ∧
    Relation.ReflTransGen (Life sampleLayout) (s₀, fun _ => none) (s, mms) ∧
    mms true = some mm ∧ mm.vma = [executeOnly] ∧
    (∀ readFlags, ¬ AccessorsGrant [PTE_V, PTE_U, PTE_W] readFlags sampleLayout s mm) ∧
    ∀ writeFlags, ¬ AccessorsGrant writeFlags [PTE_V, PTE_U, PTE_R] sampleLayout s mm := by
  obtain ⟨s₀, hboot, hfree, hlog, hroom⟩ := sample_room
  obtain ⟨s, mm, hrun, hlist, -⟩ := exists_run (n := 0) executeOnly_valid (by decide) (by decide)
    (by decide) hfree hlog (hroom.mono (by decide)) true
  have hmm := Function.update_self true (some mm) fun _ => none
  obtain ⟨A, hA, hinv⟩ := invariant hfree hlog hrun
  have hi := hinv true mm hmm
  have hv : (1 : ℕ) ∈ vpns executeOnly := by decide
  obtain ⟨f, hf, hmaps⟩ := hi.listed.leaf executeOnly (by rw [hlist]; simp) 1 hv
  have hu : UserPte (A.pte true 1) :=
    (UserMm.userPte_iff hi (by decide)).mpr (mem_listVpns.mpr ⟨_, by rw [hlist]; simp, hv⟩)
  have hpte : pteAt s.mem mm 1 = A.pte true 1 := pteAt_user hi hA (by decide)
  have hno : ∀ k ∈ [1, 2], ¬ Has (pteAt s.mem mm 1) (1 <<< k) := by
    intro k hk
    rw [hpte]
    simp only [List.mem_cons, List.not_mem_nil, or_false] at hk
    have hlt := hf.lt
    rcases hk with rfl | rfl
    · rw [SameAD.has hmaps (by decide), has_mkPte (by omega) (by decide) (by decide)]
      decide
    · rw [SameAD.has hmaps (by decide), has_mkPte (by omega) (by decide) (by decide)]
      decide
  have hall : ∀ n, Reaches A true 0x1000 1 n → n = 1 := by
    rintro n ⟨hle, -, hout⟩
    by_contra hne
    obtain rfl : n = 0 := by omega
    exact hout (by omega) hu
  have hlife := Relation.ReflTransGen.mono (fun _ _ h => Life.turn (.call h)) _ _ hrun
  refine ⟨s₀, s, _, mm, hboot, hlife, hmm, hlist, fun _ hc => ?_, fun _ hc => ?_⟩
  · -- a byte that differs from the one there
    obtain ⟨c, hne⟩ : ∃ c, c ≠ s.mem (PTE2PA (A.pte true 1)) :=
      ⟨s.mem (PTE2PA (A.pte true 1)) + 1, fun h => by simp at h⟩
    have hspec : wpOk (copyToUser sampleLayout mm 0x1000 (fun _ => c) 1) s _ :=
      wp_mono (wp_copyToUser (.of_userMm hi) 0x1000 (fun _ => c) 1 hA) (fun _ _ h => h) fun _ _ h =>
        absurd h.2.2.2 (by decide)
    obtain ⟨o, s', hx, n, hr, -, hst, -⟩ := wpOk_iff.mp hspec
    obtain ⟨g, hg, he⟩ := hst 0 (by rw [hall n hr]; decide)
    have hgf : PTE2PA (A.pte true 1) = g := hg.target
    obtain ⟨k, hk, -, hflags, -⟩ := (wp_of_eq_ok hx).mp (hc.copyToUser 0x1000 (fun _ => c) 1) g (by
      rw [hgf] at hne
      exact he ▸ hne)
    obtain rfl : k = 0 := by omega
    exact hno 2 (by simp) (hflags PTE_W (by simp))
  · have hspec : wpOk (copyFromUser sampleLayout mm 0x1000 1) s _ :=
      wp_mono (wp_copyFromUser (.of_userMm hi) hA 0x1000 1) (fun _ _ h => h) fun _ _ h =>
        absurd h.2.2.2 (by decide)
    obtain ⟨⟨ret, bytes⟩, s', hx, -, hr, -⟩ := wpOk_iff.mp hspec
    have hlen : bytes.length = 1 := hall _ hr
    obtain ⟨b, rfl⟩ := List.length_eq_one_iff.mp hlen
    obtain ⟨-, -, hread⟩ := (wp_of_eq_ok hx).mp (hc.copyFromUser 0x1000 1)
    obtain ⟨x, ⟨-, hflags, -⟩, -⟩ := hread 0 b rfl
    exact hno 1 (by simp) (hflags PTE_R (by simp))

end UCore.Vm.Uaccess

import Mathlib.Data.Finset.Card
import Mathlib.Order.Interval.Finset.Nat
import UCore.Vm.Uaccess

/-! # The copies, by user addresses

The results of `copy_to_user`, `copy_from_user` and `copystr_from_user` in terms of the entries of the
page table: a byte is `Mapped` if its entry is valid and the user's, and `translate` is where it is in
memory. In a table whose user pages lead to frames (which are distinct in every good view)
`copy_to_user` stores exactly the bytes before the first page that is not mapped
(`copy_to_user_exact`). `copystr_from_user` does what it should exactly if there is a null byte or a
page that is not mapped among the `max` bytes (`copystr_meets_iff`). -/

namespace UCore.Vm.UserCopy

open UCore.Lib.Bytes UCore.Lib.Hoare UCore.Riscv UCore.Mem.State UCore.Mem.Kalloc UCore.Mem.Boot
open UCore.Vm.Spaces UCore.Vm.Tables UCore.Vm.Walk UCore.Vm.VmaList UCore.Vm.Process
open UCore.Vm.Family UCore.Vm.Uaccess

variable {L : Layout} {ι : Type} {s s' : KState} {A : View ι} {i : ι} {mm : Mm} {va len n : ℕ}

/-- The page of `va` is mapped with `PTE_V` and `PTE_U`. -/
def Mapped (m : Mem) (mm : Mm) (va : ℕ) : Prop := UserPte (pteAt m mm (va / 4096))

/-- Where the byte at `va` is in memory. -/
def translate (m : Mem) (mm : Mm) (va : ℕ) : ℕ := PTE2PA (pteAt m mm (va / 4096)) + va % 4096

/-- The first `n` bytes of the range are mapped, and the next one, if any, is not. -/
def MappedPrefix (m : Mem) (mm : Mm) (va len n : ℕ) : Prop :=
  n ≤ len ∧ (∀ k < n, Mapped m mm (va + k)) ∧ (n < len → ¬ Mapped m mm (va + n))

theorem mappedPrefix_eq {m : Mem} (h : MappedPrefix m mm va len n) :
    n = len ↔ ∀ k < len, Mapped m mm (va + k) := by
  obtain ⟨hle, hin, hout⟩ := h
  refine ⟨fun he => he ▸ hin, fun hall => ?_⟩
  by_contra hne
  exact hout (by omega) (hall n (by omega))

/-! ### The bytes before the first page that is not mapped -/

instance (m : Mem) (mm : Mm) (va : ℕ) : Decidable (Mapped m mm va) := by
  unfold Mapped UserPte
  infer_instance

/-- The user bytes from `va` on, at most `n`, up to a page that is not mapped. -/
def mappedBytes (m : Mem) (mm : Mm) : ℕ → ℕ → List UInt8
  | _, 0 => []
  | va, n + 1 =>
    if Mapped m mm va then m (translate m mm va) :: mappedBytes m mm (va + 1) n else []

theorem MappedPrefix.tail {m : Mem} (h : MappedPrefix m mm va (len + 1) (n + 1)) :
    MappedPrefix m mm (va + 1) len n := by
  obtain ⟨hle, hin, hout⟩ := h
  refine ⟨Nat.le_of_succ_le_succ hle, fun k hk => ?_, fun hlt => ?_⟩
  · rw [show va + 1 + k = va + (k + 1) by omega]
    exact hin (k + 1) (Nat.succ_lt_succ hk)
  · rw [show va + 1 + n = va + (n + 1) by omega]
    exact hout (Nat.succ_lt_succ hlt)

theorem mappedBytes_eq {m : Mem} : ∀ {len va : ℕ} {bytes : List UInt8},
    MappedPrefix m mm va len bytes.length →
    (∀ (k : ℕ) (b : UInt8), bytes[k]? = some b → m (translate m mm (va + k)) = b) →
    mappedBytes m mm va len = bytes
  | 0, va, bytes, hpre, _ => (List.eq_nil_of_length_eq_zero (Nat.le_zero.mp hpre.1)).symm
  | len + 1, va, [], hpre, _ => if_neg (hpre.2.2 (Nat.succ_pos len))
  | len + 1, va, b :: bytes, hpre, hb => by
    have h0 : Mapped m mm va := hpre.2.1 0 (Nat.succ_pos _)
    have htail : ∀ (k : ℕ) (c : UInt8), bytes[k]? = some c →
        m (translate m mm (va + 1 + k)) = c := fun k c hk => by
      rw [show va + 1 + k = va + (k + 1) by omega]
      exact hb (k + 1) c hk
    have hb0 : m (translate m mm va) = b := hb 0 b rfl
    rw [mappedBytes, if_pos h0, mappedBytes_eq hpre.tail htail, hb0]

/-! ### Entries and the view -/

theorem pteAt_table (h : Reps L s A) (hmm : UserTable L A i mm) {v : ℕ} (hv : v < NVPN) :
    pteAt s.mem mm v = A.pte i v := by
  obtain ⟨r, hr, hpgt⟩ := hmm.root
  exact pteAt_eq h hr hpgt hv

theorem UserFrame.mapped (h : Reps L s A) (hmm : UserTable L A i mm) {f : ℕ}
    (hf : UserFrame L A i (va / 4096) f) :
    Mapped s.mem mm va ∧ translate s.mem mm va = f + va % 4096 := by
  have hlt := hf.lt
  unfold Mapped translate
  rw [pteAt_table h hmm (by rw [NVPN_eq]; omega), hf.target]
  exact ⟨userPte_of_frame hf, rfl⟩

theorem page_le (hva : va ≤ MAXVA) : va / 4096 ≤ 2 ^ 26 := by
  rw [MAXVA_eq] at hva
  omega

/-- Bytes that follow user bytes lie at most in the page of `MAXVA`. -/
theorem reach_le (hmm : UserTable L A i mm) (hva : va / 4096 ≤ 2 ^ 26)
    (hin : ∀ k < n, UserPte (A.pte i ((va + k) / 4096))) : (va + n) / 4096 ≤ 2 ^ 26 := by
  induction n with
  | zero => exact hva
  | succ n ih =>
    have hle := ih fun k hk => hin k (by omega)
    have hlt := (hmm.frame _ (by rw [NVPN_eq]; omega) (hin n (by omega))).lt
    omega

theorem mappedPrefix_of_reaches (h : Reps L s A) (hmm : UserTable L A i mm)
    (hva : va / 4096 ≤ 2 ^ 26) (hr : Reaches A i va len n) : MappedPrefix s.mem mm va len n := by
  obtain ⟨hle, hin, hout⟩ := hr
  have hpte : ∀ k ≤ n, pteAt s.mem mm ((va + k) / 4096) = A.pte i ((va + k) / 4096) := by
    intro k hk
    have := reach_le hmm hva fun j hj => hin j (lt_of_lt_of_le hj hk)
    exact pteAt_table h hmm (by rw [NVPN_eq]; omega)
  refine ⟨hle, fun k hk => ?_, fun hlt => ?_⟩
  · rw [Mapped, hpte k hk.le]
    exact hin k hk
  · rw [Mapped, hpte n le_rfl]
    exact hout hlt

/-- There are not more user bytes than an `int` counts. -/
theorem UserBytes.fit {m : Mem} {bytes : List UInt8} (hok : A.Ok L)
    (hb : UserBytes L A i m va bytes) : bytes.length < 2 ^ 31 := by
  by_cases h0 : bytes.length = 0
  · omega
  have hframe : ∀ v ∈ Finset.Icc (va / 4096) ((va + bytes.length - 1) / 4096),
      UserFrame L A i v (PTE2PA (A.pte i v)) := by
    intro v hv
    rw [Finset.mem_Icc] at hv
    have hk : v * 4096 - va < bytes.length := by omega
    obtain ⟨f, hf, -⟩ := hb _ _ (List.getElem?_eq_getElem hk)
    rw [show (va + (v * 4096 - va)) / 4096 = v by omega] at hf
    rw [hf.target]
    exact hf
  have hcard := Finset.card_le_card_of_injOn (s := Finset.Icc (va / 4096)
      ((va + bytes.length - 1) / 4096)) (t := Finset.Ico 0x80200 0x84000)
    (fun v => PTE2PA (A.pte i v) / 4096) (fun v hv => ?_) fun v hv w hw he => ?_
  · rw [Nat.card_Icc, Nat.card_Ico] at hcard
    omega
  · have hF := (hframe v hv).frame
    have h1 := hF.pos
    have h2 := hF.lt
    simp only [Finset.coe_Ico, Set.mem_Ico]
    omega
  · have hfv := hframe v hv
    have hfw := hframe w hw
    have h1 := hfv.frame.aligned
    have h2 := hfw.frame.aligned
    simp only at he
    have he' : PTE2PA (A.pte i v) = PTE2PA (A.pte i w) := by omega
    exact (hfv.unique (he' ▸ hfw) hok).2

variable [DecidableEq ι]

/-! ### Copying out and in -/

/-- `copy_to_user` returns `0` if the whole range is mapped and `-1` else. It stores the bytes of `src`
up to the first page that is not mapped, and changes nothing else; after a return of `0`,
`copy_from_user` returns these bytes. -/
structure CopiesOut (L : Layout) (s : KState) (mm : Mm) (dstva : ℕ) (src : ℕ → UInt8) (len : ℕ)
    (o : ℤ) (s' : KState) : Prop where
  ret : o = 0 ∨ o = -1
  zero_iff : o = 0 ↔ ∀ k < len, Mapped s.mem mm (dstva + k)
  bytes : ∃ n, MappedPrefix s.mem mm dstva len n ∧
    (∀ k < n, s'.mem (translate s.mem mm (dstva + k)) = src k) ∧
    ∀ x, (∀ k < n, x ≠ translate s.mem mm (dstva + k)) → s'.mem x = s.mem x
  state : s' = { s with mem := s'.mem }
  back : o = 0 → copyFromUser L mm dstva len s' = .ok (0, (List.range len).map src) s'

/-- **`copy_to_user` copies**, and `copy_from_user` is its inverse. -/
theorem copy_to_user_exact (h : Reps L s A) (hmm : UserTable L A i mm) (dstva : ℕ)
    (hva : dstva ≤ MAXVA) (src : ℕ → UInt8) (len : ℕ) :
    ∃ o s', copyToUser L mm dstva src len s = .ok o s' ∧ CopiesOut L s mm dstva src len o s' := by
  have hpage : ¬ MAXVA < PGROUNDDOWN dstva := by
    rw [PGROUNDDOWN_eq]
    omega
  have hspec : wpOk (copyToUser L mm dstva src len) s _ :=
    wp_mono (wp_copyToUser hmm dstva src len h) (fun _ _ h => h) fun _ _ he => hpage he.2.2.2
  obtain ⟨o, s', hx, n, hr, ho, hst, hw⟩ := wpOk_iff.mp hspec
  have hpre := mappedPrefix_of_reaches h hmm (page_le hva) hr
  have hzero : o = 0 ↔ n = len := by
    rw [ho]
    split_ifs with hn <;> simp [hn]
  refine ⟨o, s', hx, ?_, hzero.trans (mappedPrefix_eq hpre), ⟨n, hpre, ?_, ?_⟩, hw.state, ?_⟩
  · rw [ho]
    split_ifs
    · exact Or.inl rfl
    · exact Or.inr rfl
  · intro k hk
    obtain ⟨f, hf, hb⟩ := hst k hk
    rw [(UserFrame.mapped h hmm hf).2, hb]
  · intro x hx'
    by_contra hne
    obtain ⟨k, hk, f, hf, rfl⟩ := hw.only x hne
    exact hx' k hk (UserFrame.mapped h hmm hf).2.symm
  · intro h0
    obtain rfl := hzero.mp h0
    have hback : wpOk (copyFromUser L mm dstva n) s' _ :=
      wp_mono (wp_copyFromUser hmm hw.reps dstva n) (fun _ _ h => h) fun _ _ he => hpage he.2.2.2
    obtain ⟨⟨ret, bytes⟩, s'', hx'', rfl, hr', hret, hbytes⟩ := wpOk_iff.mp hback
    have hlen : bytes.length = n := by
      by_contra hne
      have hlt : bytes.length < n := lt_of_le_of_ne hr'.1 hne
      exact hr'.2.2 hlt (hr.2.1 _ hlt)
    have hb : bytes = (List.range n).map src := by
      refine List.ext_getElem (by simp [hlen]) fun k hk hk' => ?_
      obtain ⟨f, hf, he⟩ := hbytes k _ (List.getElem?_eq_getElem hk)
      obtain ⟨g, hg, he'⟩ := hst k (by omega)
      have hfg : f = g := by rw [← hf.target, hg.target]
      rw [List.getElem_map, List.getElem_range, he, hfg, he']
    change ret = if bytes.length = n then _ else _ at hret
    rw [if_pos hlen] at hret
    rw [hx'', hret, hb]

/-! ### Strings -/

/-- The user string at `srcva`: its bytes and the null byte after them are mapped, within `max`
bytes. -/
structure UserString (m : Mem) (mm : Mm) (srcva max : ℕ) (str : List UInt8) : Prop where
  no_null : 0 ∉ str
  lt : str.length < max
  mapped : ∀ k ≤ str.length, Mapped m mm (srcva + k)
  bytes : ∀ (k : ℕ) (b : UInt8), (str ++ [0])[k]? = some b → m (translate m mm (srcva + k)) = b

/-- All `max` bytes are mapped, and none is a null byte. -/
def Unterminated (m : Mem) (mm : Mm) (srcva max : ℕ) : Prop :=
  ∀ k < max, Mapped m mm (srcva + k) ∧ m (translate m mm (srcva + k)) ≠ 0

/-- The result is the length of the user string, which went to `dst` with its null byte and nothing
else; where there is none, the result is `-1`. -/
def CopystrMeets (m : Mem) (mm : Mm) (srcva max : ℕ) (o : ℤ × List UInt8) : Prop :=
  (∀ str, UserString m mm srcva max str → o = (↑str.length, str ++ [0])) ∧
    ((¬ ∃ str, UserString m mm srcva max str) → o.1 = -1)

theorem UserString.not_unterminated {m : Mem} {srcva max : ℕ} {str : List UInt8}
    (h : UserString m mm srcva max str) : ¬ Unterminated m mm srcva max := fun hu =>
  (hu _ h.lt).2 (h.bytes str.length 0 (by simp))

/-- There is one string. -/
theorem UserString.unique {m : Mem} {srcva max : ℕ} {str str' : List UInt8}
    (h : UserString m mm srcva max str) (h' : UserString m mm srcva max str') : str = str' := by
  have hget : ∀ {str str' : List UInt8}, UserString m mm srcva max str →
      UserString m mm srcva max str' → ∀ k < str.length, k < str'.length + 1 →
      str[k]? = (str' ++ [0])[k]? := by
    intro str str' h h' k hk hk'
    have hb := h.bytes k str[k] (by rw [List.getElem?_append_left hk, List.getElem?_eq_getElem])
    have hlt : k < (str' ++ [0]).length := by simpa using hk'
    have hb' := h'.bytes k _ (List.getElem?_eq_getElem hlt)
    rw [List.getElem?_eq_getElem hk, List.getElem?_eq_getElem hlt, ← hb, ← hb']
  have hlen : ∀ {str str' : List UInt8}, UserString m mm srcva max str →
      UserString m mm srcva max str' → ¬ str'.length < str.length := by
    intro str str' h h' hlt
    have hk := hget h h' str'.length hlt (by omega)
    rw [List.getElem?_append_right le_rfl, Nat.sub_self, List.getElem?_cons_zero] at hk
    exact h.no_null (List.mem_of_getElem? hk)
  have he : str.length = str'.length :=
    le_antisymm (not_lt.mp (hlen h h')) (not_lt.mp (hlen h' h))
  refine List.ext_getElem? fun k => ?_
  by_cases hk : k < str.length
  · rw [hget h h' k hk (by omega), List.getElem?_append_left (by omega)]
  · rw [List.getElem?_eq_none (by omega), List.getElem?_eq_none (by omega)]

omit [DecidableEq ι] in
/-- What `copystr_from_user` read, by user addresses: the string, or all bytes up to the limit or a
page that is not mapped. -/
theorem copystrRet_cases (h : Reps L s A) (hmm : UserTable L A i mm) {srcva max : ℕ}
    (hva : srcva / 4096 ≤ 2 ^ 26) {bytes : List UInt8} {ret : ℤ}
    (hret : CopystrRet A i srcva max 0 bytes ret) (hb : UserBytes L A i s.mem srcva bytes) :
    (∃ str, UserString s.mem mm srcva max str ∧ bytes = str ++ [0] ∧ ret = str.length) ∨
      (¬ ∃ str, UserString s.mem mm srcva max str) ∧ bytes = mappedBytes s.mem mm srcva max ∧
        (Unterminated s.mem mm srcva max ∧ ret = max ∨
          ¬ Unterminated s.mem mm srcva max ∧ ret = -1) := by
  have hin : ∀ k < bytes.length, UserPte (A.pte i ((srcva + k) / 4096)) := fun k hk => by
    obtain ⟨f, hf, -⟩ := hb k _ (List.getElem?_eq_getElem hk)
    exact userPte_of_frame hf
  have hbyte : ∀ (k : ℕ) (b : UInt8), bytes[k]? = some b →
      s.mem (translate s.mem mm (srcva + k)) = b := fun k b hk => by
    obtain ⟨f, hf, he⟩ := hb k b hk
    rw [(UserFrame.mapped h hmm hf).2, he]
  rcases hret with ⟨str, rfl, hno, hlt, hret⟩ | ⟨hno, he, hret⟩ | ⟨hno, hlt, hmiss, hret⟩
  · have hpre := mappedPrefix_of_reaches h hmm hva
      (show Reaches A i srcva (str.length + 1) _ from ⟨by simp, hin, fun hc => by simp at hc⟩)
    refine Or.inl ⟨str, ⟨hno, hlt, fun k hk => hpre.2.1 k ?_, hbyte⟩, rfl, by simpa using hret⟩
    rw [List.length_append, List.length_singleton]
    omega
  · have hpre := mappedPrefix_of_reaches h hmm hva ⟨he.le, hin, fun hc => absurd hc he.not_lt⟩
    have hu : Unterminated s.mem mm srcva max := fun k hk => by
      have hk' : k < bytes.length := by omega
      refine ⟨hpre.2.1 k hk', fun h0 => hno ?_⟩
      rw [← h0, hbyte k _ (List.getElem?_eq_getElem hk')]
      exact List.getElem_mem hk'
    exact Or.inr ⟨fun ⟨str, hstr⟩ => hstr.not_unterminated hu, (mappedBytes_eq hpre hbyte).symm,
      Or.inl ⟨hu, by simpa using hret⟩⟩
  · have hpre := mappedPrefix_of_reaches h hmm hva ⟨hlt.le, hin, fun _ => hmiss⟩
    have hnot := hpre.2.2 hlt
    refine Or.inr ⟨?_, (mappedBytes_eq hpre hbyte).symm, Or.inr ⟨fun hu => hnot (hu _ hlt).1, hret⟩⟩
    rintro ⟨str, hstr⟩
    by_cases hk : bytes.length ≤ str.length
    · exact hnot (hstr.mapped _ hk)
    · have hk' : str.length < bytes.length := by omega
      have h0 := hstr.bytes str.length 0 (by simp)
      rw [hbyte _ _ (List.getElem?_eq_getElem hk')] at h0
      exact hno (h0 ▸ List.getElem_mem hk')

/-- **`copystr_from_user` does what it should** unless it finds `max` mapped bytes and no null byte among
them. It does not panic, changes nothing, and returns a number that an `int` can hold. -/
theorem copystr_meets_iff (h : Reps L s A) (hmm : UserTable L A i mm) (srcva max : ℕ)
    (hva : srcva ≤ MAXVA) (_hmax : 0 < max) :
    ∃ o, copystrFromUser L mm srcva max s = .ok o s ∧ o.1 < 2 ^ 31 ∧
      (CopystrMeets s.mem mm srcva max o ↔ ¬ Unterminated s.mem mm srcva max) := by
  have hspec : wpOk (copystrFromUser L mm srcva max) s _ :=
    wp_mono (wp_copystrLoop hmm h srcva max 0) (fun _ _ h => h) fun _ _ he => by
      have := he.2.2.2
      rw [PGROUNDDOWN_eq] at this
      omega
  obtain ⟨⟨ret, bytes⟩, s', hx, rfl, hret, hb⟩ := wpOk_iff.mp hspec
  have hfit := UserBytes.fit h.ok hb
  change CopystrRet A i srcva max 0 bytes ret at hret
  change bytes.length < 2 ^ 31 at hfit
  have hint : ret < 2 ^ 31 := by
    rcases hret with ⟨str, rfl, -, -, hr⟩ | ⟨-, he, hr⟩ | ⟨-, -, -, hr⟩
    · rw [List.length_append] at hfit
      omega
    · omega
    · omega
  refine ⟨_, hx, hint, ?_⟩
  rcases copystrRet_cases h hmm (page_le hva) hret hb with
    ⟨str, hstr, he, hr⟩ | ⟨hno, -, ⟨hu, hr⟩ | ⟨hu, hr⟩⟩
  · refine ⟨fun _ => hstr.not_unterminated, fun _ => ⟨fun str' hstr' => ?_, fun hno => ?_⟩⟩
    · rw [← hstr.unique hstr', he, hr]
    · exact absurd ⟨str, hstr⟩ hno
  · refine ⟨fun hmeets => ?_, fun hn => absurd hu hn⟩
    have := hmeets.2 fun ⟨str, hstr⟩ => hstr.not_unterminated hu
    change ret = -1 at this
    omega
  · exact ⟨fun _ => hu, fun _ => ⟨fun str hstr => absurd ⟨str, hstr⟩ hno, fun _ => hr⟩⟩

/-! ### A machine with a user page -/

omit [DecidableEq ι] in
/-- The page of `va` is mapped iff a vma covers it. -/
theorem mapped_iff_listed (h : Reps L s A) (hmm : UserMm L A i mm) (hva : va / 4096 < NVPN) :
    Mapped s.mem mm va ↔ va / 4096 ∈ listVpns mm.vma := by
  rw [Mapped, pteAt_user hmm h hva, UserMm.userPte_iff hmm hva]

/-- A machine with one user page, at `0x1000`, and what is in it. -/
theorem exists_page (src : ℕ → UInt8) : ∃ (s : KState) (A : View Bool) (mm : Mm),
    Reps sampleLayout s A ∧ UserMm sampleLayout A true mm ∧ mm.vma = [sampleVma] ∧
    (∀ va, va / 4096 < NVPN → (Mapped s.mem mm va ↔ va / 4096 = 1)) ∧
    ∀ k < 4096, s.mem (translate s.mem mm (0x1000 + k)) = src k := by
  obtain ⟨s₀, -, hfree, hlog, hroom⟩ := sample_room
  obtain ⟨s, mm, hrun, hlist, -⟩ := exists_run (n := 0) sampleVma_valid (by decide) (by decide)
    (by decide) hfree hlog (hroom.mono (by decide)) true
  obtain ⟨A, hA, hinv⟩ := invariant hfree hlog hrun
  have hmm := hinv true mm (Function.update_self true (some mm) fun _ => none)
  have hpage : listVpns mm.vma = [1] := by rw [hlist]; decide
  have hu : UserPte (A.pte true (0x1000 / 4096)) :=
    (UserMm.userPte_iff hmm (by decide)).mpr (by rw [hpage]; decide)
  have hf := hmm.listed.userFrame (v := 0x1000 / 4096) (by rw [hpage]; decide)
  have hw := wrote_blit 4096 src hA hf
  refine ⟨_, A, mm, hw.reps, hmm, hlist, fun va hva => ?_, fun k hk => ?_⟩
  · rw [mapped_iff_listed hw.reps hmm hva, hpage, List.mem_singleton]
  · have hf' : UserFrame sampleLayout A true ((0x1000 + k) / 4096)
        (PTE2PA (A.pte true (0x1000 / 4096))) := by
      rw [show (0x1000 + k) / 4096 = 0x1000 / 4096 by omega]
      exact hf
    rw [(UserFrame.mapped hw.reps (.of_userMm hmm) hf').2]
    have hn : chunk 0x1000 4096 = 4096 := by decide
    change blit s.mem _ _ src _ = _
    rw [hn, blit_of_mem (by omega) (by omega)]
    exact congrArg src (by omega)

/-- A copy over the end of the page stores the first part. -/
theorem copy_to_user_exact_sample : ∃ (s : KState) (A : View Bool) (mm : Mm),
    Reps sampleLayout s A ∧ UserMm sampleLayout A true mm ∧
    ∃ o s', copyToUser sampleLayout mm 0x1ffe (fun _ => 1) 4 s = .ok o s' ∧
      CopiesOut sampleLayout s mm 0x1ffe (fun _ => 1) 4 o s' := by
  obtain ⟨s, A, mm, hA, hmm, -⟩ := exists_page fun _ => 0
  exact ⟨s, A, mm, hA, hmm, copy_to_user_exact hA (.of_userMm hmm) 0x1ffe (by decide) (fun _ => 1) 4⟩

/-- A string of two bytes. -/
theorem copystr_meets_iff_sample : ∃ (s : KState) (A : View Bool) (mm : Mm),
    Reps sampleLayout s A ∧ UserMm sampleLayout A true mm ∧
    UserString s.mem mm 0x1000 200 [97, 98] ∧
    copystrFromUser sampleLayout mm 0x1000 200 s = .ok (2, [97, 98, 0]) s := by
  obtain ⟨s, A, mm, hA, hmm, -, hmap, hbytes⟩ := exists_page fun k => [97, 98].getD k 0
  have hstr : UserString s.mem mm 0x1000 200 [97, 98] := by
    refine ⟨by decide, by decide, fun k hk => ?_, fun k b hk => ?_⟩
    · rw [List.length_cons, List.length_cons, List.length_nil] at hk
      exact (hmap _ (by rw [NVPN_eq]; omega)).mpr (by omega)
    · obtain ⟨hk', rfl⟩ := List.getElem?_eq_some_iff.mp hk
      change k < 3 at hk'
      rw [hbytes k (by omega)]
      interval_cases k <;> rfl
  obtain ⟨o, hx, -, hiff⟩ := copystr_meets_iff hA (.of_userMm hmm) 0x1000 200 (by decide) (by decide)
  have ho := (hiff.mpr hstr.not_unterminated).1 _ hstr
  rw [ho] at hx
  exact ⟨s, A, mm, hA, hmm, hstr, hx⟩

/-- Where the limit comes before the null byte, `copystr_from_user` returns the limit, and the bytes
have no null byte. -/
theorem copystr_limit : ∃ (s : KState) (A : View Bool) (mm : Mm),
    Reps sampleLayout s A ∧ UserMm sampleLayout A true mm ∧
    copystrFromUser sampleLayout mm 0x1000 4 s = .ok (4, [1, 1, 1, 1]) s ∧
    ¬ CopystrMeets s.mem mm 0x1000 4 (4, [1, 1, 1, 1]) := by
  obtain ⟨s, A, mm, hA, hmm, hlist, hmap, hbytes⟩ := exists_page fun _ => 1
  have hu : Unterminated s.mem mm 0x1000 4 := fun k hk => by
    refine ⟨(hmap _ (by rw [NVPN_eq]; omega)).mpr (by omega), ?_⟩
    rw [hbytes k (by omega)]
    decide
  have hones : mappedBytes s.mem mm 0x1000 4 = [1, 1, 1, 1] := by
    refine mappedBytes_eq ⟨le_rfl, fun k hk => (hu k hk).1, fun hc => absurd hc (by decide)⟩
      fun k b hk => ?_
    obtain ⟨hk', rfl⟩ := List.getElem?_eq_some_iff.mp hk
    change k < 4 at hk'
    rw [hbytes k (by omega)]
    interval_cases k <;> rfl
  refine ⟨s, A, mm, hA, hmm, ?_, fun hmeets => ?_⟩
  · have hspec : wpOk (copystrFromUser sampleLayout mm 0x1000 4) s _ :=
      wp_mono (wp_copystrLoop (.of_userMm hmm) hA 0x1000 4 0) (fun _ _ h => h) fun _ _ he =>
        absurd he.2.2.2 (by decide)
    obtain ⟨⟨ret, bytes⟩, s', hx, rfl, hret, hb⟩ := wpOk_iff.mp hspec
    change CopystrRet A true 0x1000 4 0 bytes ret at hret
    rcases copystrRet_cases hA (.of_userMm hmm) (by decide) hret hb with
      ⟨str, hstr, -⟩ | ⟨-, hbs, ⟨-, rfl⟩ | ⟨hnot, -⟩⟩
    · exact absurd hu hstr.not_unterminated
    · rw [hx, hbs, hones]
      rfl
    · exact absurd hu hnot
  · exact absurd (hmeets.2 fun ⟨str, hstr⟩ => hstr.not_unterminated hu) (by decide)

end UCore.Vm.UserCopy

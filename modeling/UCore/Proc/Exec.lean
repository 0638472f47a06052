import UCore.Proc.Apps
import UCore.Vm.UserCopy

/-! # execve

`exec` and `sys_exec`. The buffer for the name lies on the kernel stack, and what `copystr_from_user`
returns is not looked at: where the user has no string at the address, the name is what the copy
stored before it stopped, then the old bytes of the stack. `sys_exec` then fails as it should exactly
if that name is no beginning of an app's name (`sys_exec_fails_iff`). -/

namespace UCore.Proc.Exec

open UCore.Lib.Bytes UCore.Lib.Hoare UCore.Riscv UCore.Mem.State UCore.Mem.Boot
open UCore.Vm.Spaces UCore.Vm.Tables UCore.Vm.Walk UCore.Vm.Map UCore.Vm.VmaList UCore.Vm.Process
open UCore.Vm.Family UCore.Vm.Uaccess UCore.Vm.UserCopy
open UCore.Proc.State UCore.Proc.Loader UCore.Proc.Apps

/-! ### The code -/

section Code
variable (L : Layout)

/-- `exec(name)`, with the process after it. -/
def exec (userApps : List UserApp) (name : List UInt8) (p : Proc) : KM (ℤ × Proc) :=
  match Apps.getElf userApps name with
  | none => return (-1, p)
  | some app =>
    match p.mm with
    | none => throw .trapFromKernel
    | some mm => do
      let mm ← mmFreePages L mm
      let (_, p) ← loadUserElf L app.elf { p with mm := some mm }
      return (0, p)

/-- The bytes from `name` on, after a copy of `bytes` to it. `stack` is what was there before, up to
the end of the kernel stack. -/
def nameBuffer (bytes stack : List UInt8) : List UInt8 := bytes ++ stack.drop bytes.length

/-- The string at the start of a buffer. -/
def cstr (buffer : List UInt8) : List UInt8 := buffer.takeWhile (· ≠ 0)

/-- `sys_exec(va)`. The name is read if there is an app to compare it with, and the read runs off the
stack if the buffer has no null byte. -/
def sysExec (userApps : List UserApp) (stack : List UInt8) (va : ℕ) (p : Proc) : KM (ℤ × Proc) :=
  match p.mm with
  | none => throw .trapFromKernel
  | some mm => do
    let (_, bytes) ← copystrFromUser L mm va 200
    ensure (userApps ≠ [] → 0 ∈ nameBuffer bytes stack) .trapFromKernel
    exec L userApps (cstr (nameBuffer bytes stack)) p

end Code

/-! ### Names -/

theorem not_mem_cstr (buffer : List UInt8) : 0 ∉ cstr buffer := fun h => by
  have hne := List.all_takeWhile (p := (· ≠ (0 : UInt8))) (l := buffer)
  rw [List.all_eq_true] at hne
  simpa using hne 0 h

/-- An app is found iff the bytes that are compared begin its name. -/
theorem getElf_eq_none_iff (userApps : List UserApp) {name : List UInt8} (hname : 0 ∉ name) :
    Apps.getElf userApps name = none ↔ ∀ app ∈ userApps, ¬ key name <+: app.name := by
  rw [getElf_eq_find _ hname, List.find?_eq_none]
  exact forall₂_congr fun app _ => by rw [List.isPrefixOf_iff_prefix]

variable {L : Layout} {ι : Type} {s s' : KState} {A : View ι} {i : ι} {mm : Mm} {p p' : Proc}
  {userApps : List UserApp} {name : List UInt8}

theorem exec_none (h : Apps.getElf userApps name = none) :
    exec L userApps name p s = .ok (-1, p) s := by
  unfold exec
  rw [h]
  rfl

/-- Where an app is found, `exec` does not return `-1`. -/
theorem exec_some {app : UserApp} (h : Apps.getElf userApps name = some app) :
    exec L userApps name p s ≠ .ok (-1, p') s' := by
  intro hx
  have hzero : wp (exec L userApps name p) s (fun o _ => o.1 = 0) fun _ _ => True := by
    unfold exec
    rw [h]
    cases p.mm with
    | none => exact trivial
    | some mm =>
      refine wp_seq wp_trivial fun mm' s₁ _ => ?_
      exact wp_seq wp_trivial fun o s₂ _ => wp_pure.mpr rfl
  have h0 : (-1 : ℤ) = 0 := (wp_of_eq_ok hx).mp hzero
  exact absurd h0 (by decide)

/-! ### execve -/

variable [DecidableEq ι]

/-- Where the user has no string, `copystr_from_user` stores the bytes before the first page that is
not mapped, and panics like `walkaddr`. -/
theorem copystr_no_string (h : Reps L s A) (hmm : UserTable L A i mm) {va : ℕ}
    (hno : ¬ ∃ str, UserString s.mem mm va 200 str) :
    if PGROUNDDOWN va ≤ MAXVA then
      ∃ ret, copystrFromUser L mm va 200 s = .ok (ret, mappedBytes s.mem mm va 200) s
    else copystrFromUser L mm va 200 s = .error .invalidUserVA s := by
  split_ifs with hva
  · have hspec : wpOk (copystrFromUser L mm va 200) s _ :=
      wp_mono (wp_copystrLoop hmm h va 200 0) (fun _ _ h => h) fun _ _ he => by
        have := he.2.2.2
        omega
    obtain ⟨⟨ret, bytes⟩, s', hx, rfl, hret, hb⟩ := wpOk_iff.mp hspec
    have hpage : va / 4096 ≤ 2 ^ 26 := by
      rw [PGROUNDDOWN_eq, MAXVA_eq] at hva
      omega
    rcases copystrRet_cases h hmm hpage hret hb with ⟨str, hstr, -⟩ | ⟨-, hbs, -⟩
    · exact absurd ⟨str, hstr⟩ hno
    · rw [← hbs]
      exact ⟨ret, hx⟩
  · have hspec : wp (copystrFromUser L mm va 200) s (fun _ _ => False)
        fun e s' => e = .invalidUserVA ∧ s' = s := by
      unfold copystrFromUser
      rw [copystrLoop, dif_neg (by decide)]
      refine wp_bind.mpr (wp_mono (wp_walkaddr_page h hmm va) ?_ ?_)
      · exact fun _ _ ho => absurd ho.2.1 hva
      · exact fun _ _ he => ⟨he.2.1, he.1⟩
    cases hx : copystrFromUser L mm va 200 s with
    | ok o s' => exact ((wp_of_eq_ok hx).mp hspec).elim
    | error e s' =>
      obtain ⟨rfl, rfl⟩ := (wp_of_eq_error hx).mp hspec
      rfl

/-- `sys_exec` goes on with what the copy left. -/
theorem sysExec_no_string (h : Reps L s A) (hmm : UserTable L A i mm) (hp : p.mm = some mm)
    (userApps : List UserApp) (stack : List UInt8) {va : ℕ}
    (hno : ¬ ∃ str, UserString s.mem mm va 200 str) {buffer : List UInt8}
    (hbuffer : nameBuffer (mappedBytes s.mem mm va 200) stack = buffer) :
    sysExec L userApps stack va p s = if PGROUNDDOWN va ≤ MAXVA then
      (if userApps ≠ [] → 0 ∈ buffer then exec L userApps (cstr buffer) p s
        else .error .trapFromKernel s) else .error .invalidUserVA s := by
  subst hbuffer
  have hcopy := copystr_no_string h hmm hno
  unfold sysExec
  rw [hp]
  split_ifs at hcopy ⊢ with hva hnul
  · obtain ⟨ret, hx⟩ := hcopy
    exact (bind_of_eq_ok hx).trans (bind_of_eq_ok (by rw [ensure_eq, if_pos hnul]))
  · obtain ⟨ret, hx⟩ := hcopy
    exact (bind_of_eq_ok hx).trans (bind_of_eq_error (by rw [ensure_eq, if_neg hnul]))
  · exact bind_of_eq_error hcopy

/-- **`sys_exec` fails without effect**, where the user has no string of fewer than 200 bytes at the
address, exactly if the address is one that `walkaddr` takes and the name in the buffer, which ends
at a null byte on the stack, begins the name of no app. -/
theorem sys_exec_fails_iff (h : Reps L s A) (hmm : UserTable L A i mm) (hp : p.mm = some mm)
    (userApps : List UserApp) (stack : List UInt8) (va : ℕ)
    (hno : ¬ ∃ str, UserString s.mem mm va 200 str) :
    sysExec L userApps stack va p s = .ok (-1, p) s ↔ PGROUNDDOWN va ≤ MAXVA ∧
      (userApps ≠ [] → 0 ∈ nameBuffer (mappedBytes s.mem mm va 200) stack) ∧
      ∀ app ∈ userApps,
        ¬ key (cstr (nameBuffer (mappedBytes s.mem mm va 200) stack)) <+: app.name := by
  rw [sysExec_no_string h hmm hp userApps stack hno rfl, ← getElf_eq_none_iff _ (not_mem_cstr _)]
  by_cases hva : PGROUNDDOWN va ≤ MAXVA
  swap
  · rw [if_neg hva]
    constructor
    · intro hx
      cases hx
    · exact fun hc => absurd hc.1 hva
  rw [if_pos hva]
  by_cases hnul : userApps ≠ [] → 0 ∈ nameBuffer (mappedBytes s.mem mm va 200) stack
  swap
  · rw [if_neg hnul]
    constructor
    · intro hx
      cases hx
    · exact fun hc => absurd hc.2.1 hnul
  rw [if_pos hnul]
  constructor
  · intro hx
    refine ⟨hva, hnul, ?_⟩
    by_contra hsome
    obtain ⟨app, happ⟩ := Option.ne_none_iff_exists'.mp hsome
    exact exec_some happ hx
  · rintro ⟨-, -, hnone⟩
    exact exec_none hnone

/-- A process with the `mm`. -/
def sampleProc (mm : Mm) : Proc where
  state := .running
  pid := 1
  exitCode := 0
  parent := none
  mm := some mm
  vmaUstack := none
  vmaBrk := none
  vmaTrapframe := none
  vmaTrampoline := none
  trapframe := 0

/-- A process whose page `0` is not mapped. -/
theorem exists_unmapped : ∃ (s : KState) (A : View Bool) (mm : Mm),
    Reps sampleLayout s A ∧ UserMm sampleLayout A true mm ∧ mappedBytes s.mem mm 0 200 = [] ∧
    ¬ ∃ str, UserString s.mem mm 0 200 str := by
  obtain ⟨s, A, mm, hA, hmm, -, hmap, -⟩ := exists_page fun _ => 0
  have h0 : ¬ Mapped s.mem mm 0 := fun hc => absurd ((hmap 0 (by decide)).mp hc) (by decide)
  exact ⟨s, A, mm, hA, hmm, if_neg h0, fun ⟨str, hstr⟩ => h0 (hstr.mapped 0 (Nat.zero_le _))⟩

theorem sys_exec_fails_iff_sample : ∃ (s : KState) (A : View Bool) (mm : Mm),
    Reps sampleLayout s A ∧ UserMm sampleLayout A true mm ∧
    (sysExec sampleLayout [sampleApp [115, 104]] [120, 0] 0 (sampleProc mm) s =
        .ok (-1, sampleProc mm) s ↔ PGROUNDDOWN 0 ≤ MAXVA ∧
      ([sampleApp [115, 104]] ≠ [] → 0 ∈ nameBuffer (mappedBytes s.mem mm 0 200) [120, 0]) ∧
      ∀ app ∈ [sampleApp [115, 104]],
        ¬ key (cstr (nameBuffer (mappedBytes s.mem mm 0 200) [120, 0])) <+: app.name) := by
  obtain ⟨s, A, mm, hA, hmm, -, hno⟩ := exists_unmapped
  exact ⟨s, A, mm, hA, hmm, sys_exec_fails_iff hA (.of_userMm hmm) rfl _ _ 0 hno⟩

/-- A null address and an old stack of null bytes: the empty name is the beginning of the name of the
first app, and `sys_exec` does not return `-1`. -/
theorem exec_empty_name : ∃ (s : KState) (A : View Bool) (mm : Mm),
    Reps sampleLayout s A ∧ UserMm sampleLayout A true mm ∧
    (¬ ∃ str, UserString s.mem mm 0 200 str) ∧ ∀ p' s',
    sysExec sampleLayout [sampleApp [115, 104]] (0 :: List.replicate 199 0) 0 (sampleProc mm) s ≠
      .ok (-1, p') s' := by
  obtain ⟨s, A, mm, hA, hmm, hbytes, hno⟩ := exists_unmapped
  generalize List.replicate 199 (0 : UInt8) = rest
  have hbuffer : nameBuffer (mappedBytes s.mem mm 0 200) (0 :: rest) = 0 :: rest := by
    rw [hbytes]
    rfl
  have hname : cstr (0 :: rest) = [] := by simp [cstr]
  have hget : Apps.getElf [sampleApp [115, 104]] [] = some (sampleApp [115, 104]) := rfl
  refine ⟨s, A, mm, hA, hmm, hno, fun p' s' => ?_⟩
  rw [sysExec_no_string hA (.of_userMm hmm) rfl _ _ hno hbuffer, if_pos (by decide),
    if_pos fun _ => by simp, hname]
  exact exec_some hget

end UCore.Proc.Exec

import UCore.Vm.UserCopy

/-! # Writes to the console

`user_console_write` copies the user's bytes to a buffer on the kernel stack and sends the buffer. It does
not look at what `copy_from_user` returns: if a page of the range is not readable, the rest of the buffer
is sent as the stack had it. So it meets its purpose for ranges that are readable as a whole, and for no
others (`write_meets_iff`), and what it sends depends on the stack for the others (`stack_leaks_iff`). -/

namespace UCore.Console.Write

open UCore.Lib.Bytes UCore.Lib.Hoare UCore.Riscv UCore.Mem.State UCore.Mem.Kalloc UCore.Mem.Boot
open UCore.Vm.Spaces UCore.Vm.Tables UCore.Vm.Walk UCore.Vm.VmaList UCore.Vm.Process
open UCore.Vm.Family UCore.Vm.Uaccess UCore.Vm.UserCopy

/-! ### The code -/

/-- How a write ends. -/
inductive Outcome
  /-- It returns, and has sent these bytes to the UART. -/
  | ret (k : ℤ) (sent : List UInt8)
  /-- `kbuf` does not fit on the kernel stack. -/
  | overflow

def STDOUT : ℤ := 1

/-- The byte `k` of `kbuf` after a copy of `bytes`; before it, the stack held `old`. -/
def kbuf (old : ℕ → UInt8) (bytes : List UInt8) (k : ℕ) : UInt8 := bytes[k]?.getD (old k)

variable (L : Layout) (room : ℕ) (old : ℕ → UInt8)

/-- `user_console_write(buf, len)`, with `room` bytes left on the kernel stack. -/
def userConsoleWrite (mm : Mm) (buf : ℕ) (len : ℤ) : KM Outcome :=
  if len ≤ 0 then
    return .ret (-1) []
  else if room < len then
    return .overflow
  else do
    let (_, bytes) ← copyFromUser L mm buf len.toNat
    return .ret len ((List.range len.toNat).map (kbuf old bytes))

/-- `sys_write(fd, va, len)`: the length is a `uint`. -/
def sysWrite (mm : Mm) (fd : ℤ) (va len : ℕ) : KM Outcome :=
  if fd ≠ STDOUT then return .ret (-1) [] else userConsoleWrite L room old mm va (len % 2 ^ 32 : ℕ)

/-! ### What it is for -/

/-- The user can read the byte at `va`. -/
def Readable (m : Mem) (mm : Mm) (va : ℕ) : Prop := va < MAXVA ∧ Mapped m mm va

/-- `b` is the byte that the user has at `va`. -/
def UserByte (m : Mem) (mm : Mm) (va : ℕ) (b : UInt8) : Prop :=
  Readable m mm va ∧ b = m (translate m mm va)

/-- All bytes are sent. -/
def SendsAll (m : Mem) (mm : Mm) (buf len : ℕ) (o : Outcome) : Prop :=
  ∃ sent, o = .ret len sent ∧ sent.length = len ∧
    ∀ (k : ℕ) (b : UInt8), sent[k]? = some b → UserByte m mm (buf + k) b

/-- A byte is not readable, and the write is refused. -/
def Refuses (m : Mem) (mm : Mm) (buf len : ℕ) (o : Outcome) : Prop :=
  (∃ k < len, ¬ Readable m mm (buf + k)) ∧
    ∃ sent, o = .ret (-1) sent ∧ ∀ b ∈ sent, ∃ k < len, UserByte m mm (buf + k) b

/-- Whatever the stack held, the write sends all bytes or refuses, and what it does is the same. -/
def WriteMeets (s : KState) (mm : Mm) (buf len : ℕ) : Prop :=
  (∀ old, ∃ o, userConsoleWrite L room old mm buf len s = .ok o s ∧
    (SendsAll s.mem mm buf len o ∨ Refuses s.mem mm buf len o)) ∧
  ∀ old old', userConsoleWrite L room old mm buf len s = userConsoleWrite L room old' mm buf len s

variable {L room old} {ι : Type} {s : KState} {A : View ι} {i : ι} {mm : Mm} {buf len : ℕ}

/-! ### The buffer -/

theorem kbuf_full {bytes : List UInt8} (h : bytes.length = len) (old : ℕ → UInt8) :
    (List.range len).map (kbuf old bytes) = bytes := by
  refine List.ext_getElem (by simp [h]) fun k hk hk' => ?_
  rw [List.getElem_map, List.getElem_range, kbuf, List.getElem?_eq_getElem hk']
  rfl

/-- A byte that was not copied is what the stack held. -/
theorem kbuf_missing {bytes : List UInt8} {k : ℕ} (h : bytes.length ≤ k) : kbuf old bytes k = old k := by
  rw [kbuf, List.getElem?_eq_none h]
  rfl

/-! ### The copy -/

/-- `bytes` are the user's bytes from `buf` on, at most `len`, up to one that is not readable. -/
structure Copied (m : Mem) (mm : Mm) (buf len : ℕ) (bytes : List UInt8) : Prop where
  le : bytes.length ≤ len
  user : ∀ (k : ℕ) (b : UInt8), bytes[k]? = some b → UserByte m mm (buf + k) b
  stop : bytes.length < len → ¬ Readable m mm (buf + bytes.length)

theorem Copied.readable {m : Mem} {bytes : List UInt8} (h : Copied m mm buf len bytes) {k : ℕ}
    (hk : k < bytes.length) : Readable m mm (buf + k) :=
  (h.user k _ (List.getElem?_eq_getElem hk)).1

theorem Copied.full_iff {m : Mem} {bytes : List UInt8} (h : Copied m mm buf len bytes) :
    bytes.length = len ↔ ∀ k < len, Readable m mm (buf + k) := by
  refine ⟨fun hlen k hk => h.readable (by omega), fun hall => ?_⟩
  by_contra hne
  have hlt : bytes.length < len := lt_of_le_of_ne h.le hne
  exact h.stop hlt (hall _ hlt)

variable [DecidableEq ι]

theorem wp_copyFromUser_copied (h : Reps L s A) (hmm : UserTable L A i mm)
    (hva : PGROUNDDOWN buf ≤ MAXVA) (len : ℕ) :
    wpOk (copyFromUser L mm buf len) s fun o s' => s' = s ∧ Copied s.mem mm buf len o.2 := by
  refine wp_mono (wp_copyFromUser hmm h buf len) ?_ fun _ _ he =>
    absurd he.2.2.2 (Nat.not_lt.mpr hva)
  rintro ⟨ret, bytes⟩ s' ⟨rfl, hreach, -, hbytes⟩
  refine ⟨rfl, hreach.1, fun k b hk => ?_, fun hlt hread => ?_⟩
  · obtain ⟨f, hf, rfl⟩ := hbytes k b hk
    obtain ⟨hmapped, htrans⟩ := UserFrame.mapped h hmm hf
    have hframe := hf.lt
    refine ⟨⟨?_, hmapped⟩, by rw [htrans]⟩
    rw [MAXVA_eq]
    omega
  · obtain ⟨hmax, hmapped⟩ := hread
    rw [MAXVA_eq] at hmax
    rw [Mapped, pteAt_table h hmm (by rw [NVPN_eq]; omega)] at hmapped
    exact hreach.2.2 hlt hmapped

/-- **What a write does** if it neither overflows nor panics: it sends `len` bytes, of which `bytes` are
the user's, and returns `len`. -/
theorem write_sends (h : Reps L s A) (hmm : UserTable L A i mm) (hlen : 0 < len) (hroom : len ≤ room)
    (hva : PGROUNDDOWN buf ≤ MAXVA) : ∃ bytes, Copied s.mem mm buf len bytes ∧
      ∀ old, userConsoleWrite L room old mm buf len s =
        .ok (.ret len ((List.range len).map (kbuf old bytes))) s := by
  obtain ⟨⟨ret, bytes⟩, s', hx, rfl, hcopied⟩ := wpOk_iff.mp (wp_copyFromUser_copied h hmm hva len)
  refine ⟨bytes, hcopied, fun old => ?_⟩
  unfold userConsoleWrite
  rw [if_neg (by omega), if_neg (by omega)]
  change (copyFromUser L mm buf len >>= _) s' = _
  simp only [bind, EStateM.bind, hx]
  rfl

/-- Above `MAXVA` it panics. -/
theorem write_panics (h : Reps L s A) (hmm : UserTable L A i mm) (hlen : 0 < len) (hroom : len ≤ room)
    (hva : ¬ PGROUNDDOWN buf ≤ MAXVA) (old : ℕ → UInt8) :
    wp (userConsoleWrite L room old mm buf len) s (fun _ _ => False) fun _ _ => True := by
  have hcopy : wp (copyFromUser L mm buf len) s (fun _ _ => False) fun _ _ => True := by
    rw [copyFromUser, dif_neg (by omega)]
    exact wp_bind.mpr (wp_mono (wp_walkaddr_page h hmm buf) (fun _ _ ho => absurd ho.2.1 hva)
      fun _ _ _ => trivial)
  unfold userConsoleWrite
  rw [if_neg (by omega), if_neg (by omega)]
  exact wp_bind.mpr (wp_mono hcopy (fun _ _ ho => ho.elim) fun _ _ _ => trivial)

/-- Without room it does not return. -/
theorem write_overflows (hlen : 0 < len) (hroom : room < len) (old : ℕ → UInt8) :
    userConsoleWrite L room old mm buf len s = .ok .overflow s := by
  unfold userConsoleWrite
  rw [if_neg (by omega), if_pos (by omega)]
  rfl

/-! ### Where it is right -/

theorem sendsAll_readable {m : Mem} {o : Outcome} (h : SendsAll m mm buf len o) :
    ∀ k < len, Readable m mm (buf + k) := by
  obtain ⟨sent, -, hlen, hsent⟩ := h
  intro k hk
  exact (hsent k _ (List.getElem?_eq_getElem (by omega))).1

/-- **A write is right if the kernel stack has room and the whole range is readable**, and only then. -/
theorem write_meets_iff (h : Reps L s A) (hmm : UserTable L A i mm) (buf : ℕ) (hlen : 0 < len) :
    WriteMeets L room s mm buf len ↔ len ≤ room ∧ ∀ k < len, Readable s.mem mm (buf + k) := by
  constructor
  · rintro ⟨hmeets, -⟩
    obtain ⟨o, hx, ho⟩ := hmeets fun _ => 0
    rcases Nat.lt_or_ge room len with hroom | hroom
    · rw [write_overflows hlen hroom] at hx
      obtain ⟨rfl⟩ := EStateM.Result.ok.inj hx
      rcases ho with ⟨sent, hret, -⟩ | ⟨-, sent, hret, -⟩
      · exact absurd hret nofun
      · exact absurd hret nofun
    · refine ⟨hroom, ?_⟩
      by_cases hva : PGROUNDDOWN buf ≤ MAXVA
      · obtain ⟨bytes, -, hw⟩ := write_sends h hmm hlen hroom hva
        rw [hw] at hx
        obtain ⟨rfl⟩ := EStateM.Result.ok.inj hx
        rcases ho with hsends | ⟨-, sent, hret, -⟩
        · exact sendsAll_readable hsends
        · have hk := (Outcome.ret.inj hret).1
          omega
      · exact ((wp_of_eq_ok hx).mp (write_panics h hmm hlen hroom hva _)).elim
  · rintro ⟨hroom, hall⟩
    have hva : PGROUNDDOWN buf ≤ MAXVA := by
      have hmax := (hall 0 hlen).1
      rw [PGROUNDDOWN_eq]
      omega
    obtain ⟨bytes, hcopied, hw⟩ := write_sends h hmm hlen hroom hva
    have hlength := hcopied.full_iff.mpr hall
    refine ⟨fun old => ⟨_, hw old, Or.inl ⟨bytes, ?_, hlength, hcopied.user⟩⟩, fun old old' => ?_⟩
    · rw [kbuf_full hlength]
    · rw [hw, hw, kbuf_full hlength, kbuf_full hlength]

/-- **What is sent depends on the stack** if a byte of the range is not readable, and only then. -/
theorem stack_leaks_iff (h : Reps L s A) (hmm : UserTable L A i mm) (hlen : 0 < len)
    (hroom : len ≤ room) (hva : PGROUNDDOWN buf ≤ MAXVA) :
    (∃ old old', userConsoleWrite L room old mm buf len s ≠ userConsoleWrite L room old' mm buf len s) ↔
      ∃ k < len, ¬ Readable s.mem mm (buf + k) := by
  obtain ⟨bytes, hcopied, hw⟩ := write_sends h hmm hlen hroom hva
  constructor
  · rintro ⟨old, old', hne⟩
    by_contra hno
    have hlength := hcopied.full_iff.mpr fun k hk => by_contra fun hn => hno ⟨k, hk, hn⟩
    exact hne (by rw [hw, hw, kbuf_full hlength, kbuf_full hlength])
  · rintro ⟨k, hk, hno⟩
    have hlt : bytes.length < len :=
      lt_of_le_of_ne hcopied.le fun he => hno (hcopied.full_iff.mp he k hk)
    refine ⟨fun _ => 0, fun _ => 1, fun heq => ?_⟩
    rw [hw, hw] at heq
    obtain ⟨hret, -⟩ := EStateM.Result.ok.inj heq
    have hget := congrArg (·[bytes.length]?) (Outcome.ret.inj hret).2
    simp only [List.getElem?_map, List.getElem?_range hlt, Option.map_some, kbuf_missing le_rfl] at hget
    exact absurd hget (by decide)

/-- A write of two bytes of a page. -/
theorem write_meets_iff_sample : ∃ (s : KState) (A : View Bool) (mm : Mm), Reps sampleLayout s A ∧
    UserMm sampleLayout A true mm ∧ WriteMeets sampleLayout 4096 s mm 0x1ffe 2 := by
  obtain ⟨s, A, mm, hA, hmm, -, hmap, -⟩ := exists_page fun _ => 0
  refine ⟨s, A, mm, hA, hmm, ?_⟩
  refine (write_meets_iff hA (.of_userMm hmm) 0x1ffe (by decide)).mpr ⟨by decide, fun k hk => ?_⟩
  refine ⟨?_, (hmap _ (by rw [NVPN_eq]; omega)).mpr (by omega)⟩
  rw [MAXVA_eq]
  omega

/-- **The kernel stack is sent**: two bytes of a page, and two of the page after it, which is not
mapped. -/
theorem stack_sent : ∃ (s : KState) (A : View Bool) (mm : Mm), Reps sampleLayout s A ∧
    UserMm sampleLayout A true mm ∧
    (∀ old, sysWrite sampleLayout 4096 old mm STDOUT 0x1ffe 4 s = .ok (.ret 4 [7, 7, old 2, old 3]) s) ∧
    ¬ WriteMeets sampleLayout 4096 s mm 0x1ffe 4 := by
  obtain ⟨s, A, mm, hA, hmm, -, hmap, hbytes⟩ := exists_page fun _ => 7
  have hread : ∀ k < 4, (Readable s.mem mm (0x1ffe + k) ↔ k < 2) := by
    intro k hk
    rw [Readable, MAXVA_eq, hmap _ (by rw [NVPN_eq]; omega)]
    omega
  refine ⟨s, A, mm, hA, hmm, fun old => ?_, fun hmeets => ?_⟩
  · obtain ⟨bytes, hcopied, hw⟩ := @write_sends _ 4096 _ _ _ _ _ 0x1ffe 4 _ hA (.of_userMm hmm)
      (by decide) (by decide) (by decide)
    have hlength : bytes.length = 2 := by
      have hle := hcopied.le
      refine le_antisymm (Nat.not_lt.mp fun hlt => ?_) (Nat.not_lt.mp fun hlt => ?_)
      · exact absurd ((hread 2 (by decide)).mp (hcopied.readable hlt)) (by decide)
      · exact hcopied.stop (by omega) ((hread _ (by omega)).mpr hlt)
    obtain ⟨a, b, rfl⟩ := List.length_eq_two.mp hlength
    have ha : a = 7 := (hcopied.user 0 a rfl).2.trans (hbytes 0xffe (by decide))
    have hb : b = 7 := (hcopied.user 1 b rfl).2.trans (hbytes 0xfff (by decide))
    rw [ha, hb] at hw
    exact hw old
  · have hall := ((write_meets_iff hA (.of_userMm hmm) 0x1ffe (by decide)).mp hmeets).2
    exact absurd ((hread 2 (by decide)).mp (hall 2 (by decide))) (by decide)

end UCore.Console.Write

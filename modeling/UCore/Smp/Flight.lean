import Mathlib.Data.Set.Function
import Mathlib.Order.Interval.Set.Basic
import UCore.Smp.Start

/-! # One hart in flight

Every statement of every hart, and every answer of the firmware, keeps the invariant of the start
(`step_inv`): a step of the boot hart changes what the harts share only while nobody is in flight, and a
hart in flight names a cpu and counts itself while the boot hart waits for it. -/

namespace UCore.Smp.Flight

open UCore.Smp.Start

variable {n b h h' i : ℕ} {s s' : Sys} {t : Hart}

/-! ### The invariant -/

/-- The hart knows which cpu it is, and so does `struct cpu`. -/
def Named (n : ℕ) (cpu : ℕ → Cpu) (h : ℕ) (t : Hart) : Prop :=
  t.tp < n ∧ cpu t.tp = ⟨h, t.tp, schedTop t.tp⟩

/-- On the stack of its cpu, with the page table of the kernel. -/
def Settled (t : Hart) : Prop := t.satp = .kernel ∧ t.sp = some (.sched (schedTop t.tp))

/-- A started hart. -/
def OtherOk (n : ℕ) (s : Sys) (h : ℕ) (t : Hart) : Prop :=
  match t.place with
  | .stopped => t.satp = .bare ∧ t.sp = none
  | .secondarycpuEntry c => t.satp = .bare ∧ t.sp = some .boot ∧ t.inits = [] ∧
    c = s.bootedCount + 1 ∧ c < n
  | .nameCpu c => t.satp = .bare ∧ t.sp = some .boot ∧ t.inits = [] ∧ c = s.bootedCount + 1 ∧ c < n ∧
    t.tp = c
  | .useRelocate => t.satp = .bare ∧ t.sp = some .boot ∧ t.inits = [] ∧ t.tp = s.bootedCount + 1 ∧
    Named n s.cpu h t
  | .useKernel => t.satp = .relocate ∧ t.sp = some .boot ∧ t.inits = [] ∧ t.tp = s.bootedCount + 1 ∧
    Named n s.cpu h t
  | .secondarycpuJump => t.satp = .kernel ∧ t.sp = some .boot ∧ t.inits = [] ∧
    t.tp = s.bootedCount + 1 ∧ Named n s.cpu h t
  | .countRead => Settled t ∧ t.inits = [] ∧ t.tp = s.bootedCount + 1 ∧ Named n s.cpu h t
  | .countWrite v => Settled t ∧ t.inits = [] ∧ t.tp = s.bootedCount + 1 ∧ Named n s.cpu h t ∧
    v = s.bootedCount
  | .waitInit => Settled t ∧ t.inits = [] ∧ t.tp ≤ s.bootedCount ∧ Named n s.cpu h t
  | .haltInit todo => Settled t ∧ t.inits ++ todo = haltInits ∧ t.tp ≤ s.bootedCount ∧
    Named n s.cpu h t ∧ s.haltSpecificInit = true
  | .scheduler => Settled t ∧ t.inits = haltInits ∧ t.tp ≤ s.bootedCount ∧ Named n s.cpu h t ∧
    s.haltSpecificInit = true
  | _ => False

/-- `cpuid` of the next hart, when those below `hartid` were tried. -/
def Room (b hartid cpuid : ℕ) : Prop := cpuid + (if b < hartid then 1 else 0) ≤ hartid + 1

/-- The tops of the stacks are there. -/
def Tops (n : ℕ) (s : Sys) : Prop := ∀ i < n, (s.cpu i).schedKstackTop = schedTop i

/-- The loop over the harts. -/
structure Looping (n b : ℕ) (s : Sys) (t : Hart) : Prop where
  settled : Settled t
  tp : t.tp = 0
  named : Named n s.cpu b t
  tops : Tops n s
  inits : t.inits = []
  mapped : s.mapped = true
  wait : s.haltSpecificInit = false

/-- The boot hart. -/
def BootOk (n b : ℕ) (s : Sys) (t : Hart) : Prop :=
  match t.place with
  | .bootcpuEntry => t.satp = .bare ∧ t.sp = some .boot ∧ t.inits = []
  | .bootcpuStartRelocation => t.satp = .bare ∧ t.sp = some .boot ∧ t.inits = [] ∧ t.tp = 0 ∧
    (s.cpu 0).mhartId = b ∧ (s.cpu 0).cpuid = 0 ∧ s.bootedCount = 0 ∧ s.haltSpecificInit = false
  | .kvmInit => t.satp = .relocate ∧ t.sp = some .boot ∧ t.inits = [] ∧ t.tp = 0 ∧
    (s.cpu 0).mhartId = b ∧ (s.cpu 0).cpuid = 0 ∧ s.bootedCount = 0 ∧ s.haltSpecificInit = false ∧
    s.mapped = true
  | .bootcpuJump => t.satp = .kernel ∧ t.sp = some .boot ∧ t.inits = [] ∧ t.tp = 0 ∧
    Named n s.cpu b t ∧ Tops n s ∧ s.bootedCount = 0 ∧ s.haltSpecificInit = false ∧ s.mapped = true
  | .startLoop hartid cpuid => Looping n b s t ∧ hartid ≤ n ∧ cpuid = s.bootedCount + 1 ∧
    Room b hartid cpuid
  | .hartStart hartid cpuid saved => Looping n b s t ∧ hartid < n ∧ hartid ≠ b ∧
    cpuid = s.bootedCount + 1 ∧ saved = s.bootedCount ∧ Room b hartid cpuid
  | .waitBooted hartid cpuid saved => Looping n b s t ∧ hartid < n ∧ hartid ≠ b ∧ cpuid = saved + 1 ∧
    Room b hartid cpuid ∧ ((s.hart hartid).place.inFlight = true ∧ s.bootedCount = saved ∨
      (s.hart hartid).place.inFlight = false ∧ s.bootedCount = cpuid)
  | .scrub => Settled t ∧ t.inits = [] ∧ t.tp = 0 ∧ Named n s.cpu b t ∧ s.haltSpecificInit = false
  | .platformInit todo => Settled t ∧ t.inits ++ todo = platformInits ∧ t.tp = 0 ∧ Named n s.cpu b t ∧
    s.haltSpecificInit = false
  | .scheduler => Settled t ∧ t.inits = platformInits ∧ t.tp = 0 ∧ Named n s.cpu b t ∧
    s.haltSpecificInit = true
  | _ => False

/-- The harts that are online are the cpus `1 .. booted_count`. -/
def Counted (b : ℕ) (s : Sys) : Prop :=
  Set.BijOn (fun h => (s.hart h).tp) {h | h ≠ b ∧ (s.hart h).place.online = true}
    (Set.Icc 1 s.bootedCount)

/-- **The invariant**: one hart at most is in flight, and the boot hart waits for it; the others that were
started are online, with the cpus `1 .. booted_count`. -/
structure Inv (n b : ℕ) (s : Sys) : Prop where
  boot : BootOk n b s (s.hart b)
  other : ∀ h, h ≠ b → OtherOk n s h (s.hart h)
  flight : ∀ h, h ≠ b → (s.hart h).place.inFlight = true →
    ∃ cpuid, (s.hart b).place = .waitBooted h cpuid s.bootedCount
  started : ∀ h, h ≠ b → (s.hart h).place ≠ .stopped → h < (s.hart b).place.limit n
  counted : (s.hart b).place ≠ .bootcpuEntry → Counted b s

/-! ### What a step leaves alone -/

theorem OtherOk.mono (hok : OtherOk n s h t) (hcpu : s'.cpu = s.cpu)
    (hcount : s'.bootedCount = s.bootedCount)
    (hhalt : s.haltSpecificInit = true → s'.haltSpecificInit = true) : OtherOk n s' h t := by
  rcases t with ⟨place, tp, satp, sp, inits⟩
  cases place with
  | haltInit todo =>
    obtain ⟨h1, h2, h3, h4, h5⟩ := hok
    exact ⟨h1, h2, hcount ▸ h3, hcpu ▸ h4, hhalt h5⟩
  | scheduler =>
    obtain ⟨h1, h2, h3, h4, h5⟩ := hok
    exact ⟨h1, h2, hcount ▸ h3, hcpu ▸ h4, hhalt h5⟩
  | _ => first | exact False.elim hok | simpa only [OtherOk, hcpu, hcount] using hok

/-- Nobody is in flight unless the boot hart waits for it. -/
theorem Inv.landed (hi : Inv n b s)
    (hw : ∀ k c, (s.hart b).place ≠ .waitBooted k c s.bootedCount) :
    ∀ k, k ≠ b → (s.hart k).place.inFlight = false := fun k hk => by
  by_contra hne
  obtain ⟨c, hc⟩ := hi.flight k hk (Bool.eq_true_of_not_eq_false hne)
  exact hw k c hc

theorem Inv.all_stopped (hi : Inv n b s) (hlim : (s.hart b).place.limit n = 0) :
    ∀ k, k ≠ b → (s.hart k).place = .stopped := fun k hk => by
  by_contra hne
  have := hi.started k hk hne
  omega

theorem other_of_stopped (hi : Inv n b s) (hst : ∀ k, k ≠ b → (s.hart k).place = .stopped)
    (hne : h ≠ b) : OtherOk n s' h (s.hart h) := by
  have hok := hi.other h hne
  unfold OtherOk at hok ⊢
  rw [hst h hne] at hok ⊢
  exact hok

/-- **A step of the boot hart** while nobody is in flight. -/
theorem Inv.boot_put (hi : Inv n b s) (hq : ∀ k, k ≠ b → (s.hart k).place.inFlight = false)
    (hs : s'.hart = Function.update s.hart b t) (hboot : BootOk n b s' t)
    (hother : ∀ k, k ≠ b → OtherOk n s' k (s.hart k))
    (hlim : (s.hart b).place.limit n ≤ t.place.limit n)
    (hcount : Set.BijOn (fun k => (s.hart k).tp) {k | k ≠ b ∧ (s.hart k).place.online = true}
      (Set.Icc 1 s'.bootedCount)) : Inv n b s' := by
  have hb : s'.hart b = t := by rw [hs, Function.update_self]
  have hk : ∀ k, k ≠ b → s'.hart k = s.hart k := fun k hne => by rw [hs, Function.update_of_ne hne]
  refine ⟨hb ▸ hboot, fun k hne => ?_, fun k hne hf => ?_, fun k hne hp => ?_, fun _ => ?_⟩
  · rw [hk k hne]; exact hother k hne
  · rw [hk k hne, hq k hne] at hf; cases hf
  · rw [hk k hne] at hp; rw [hb]; exact (hi.started k hne hp).trans_le hlim
  · have hset : {k | k ≠ b ∧ (s'.hart k).place.online = true} =
        {k | k ≠ b ∧ (s.hart k).place.online = true} := by
      ext k
      exact and_congr_right fun hne => by rw [hk k hne]
    unfold Counted
    rw [hset]
    exact hcount.congr fun k hkm => by
      change (s.hart k).tp = (s'.hart k).tp
      rw [hk k hkm.1]

/-! ### The steps of the boot hart -/

theorem Room.next {hartid cpuid : ℕ} (h : Room b hartid cpuid) : Room b (hartid + 1) cpuid := by
  unfold Room at h ⊢
  split_ifs at h ⊢ <;> omega

theorem Room.started {hartid cpuid : ℕ} (h : Room b hartid cpuid) (hne : hartid ≠ b) :
    Room b (hartid + 1) (cpuid + 1) := by
  unfold Room at h ⊢
  split_ifs at h ⊢ <;> omega

/-- There is a cpu left for a hart that is to be started. -/
theorem Room.lt {hartid cpuid : ℕ} (h : Room b hartid cpuid) (hne : hartid ≠ b) (hlt : hartid < n)
    (hb : b < n) : cpuid < n := by
  unfold Room at h
  split_ifs at h <;> omega

theorem Looping.move {p : Place} {u : Hart} (h : Looping n b s t) :
    Looping n b (s.put h' u) { t with place := p } :=
  ⟨h.settled, h.tp, h.named, h.tops, h.inits, h.mapped, h.wait⟩

/-- A step of the boot hart that does not touch what the harts share. -/
theorem Inv.boot_move (hi : Inv n b s) (hq : ∀ k, k ≠ b → (s.hart k).place.inFlight = false)
    (hboot : BootOk n b (s.put b t) t) (hlim : (s.hart b).place.limit n ≤ t.place.limit n)
    (hentry : (s.hart b).place ≠ .bootcpuEntry) : Inv n b (s.put b t) :=
  hi.boot_put hq rfl hboot (fun k hne => (hi.other k hne).mono rfl rfl id) hlim (hi.counted hentry)

theorem counted_none (hst : ∀ k, k ≠ b → (s.hart k).place = .stopped) :
    Set.BijOn (fun k => (s.hart k).tp) {k | k ≠ b ∧ (s.hart k).place.online = true} (Set.Icc 1 0) := by
  have hset : {k | k ≠ b ∧ (s.hart k).place.online = true} = ∅ := by
    refine Set.eq_empty_of_forall_notMem fun k hk => ?_
    have hon := hk.2
    rw [hst k hk.1] at hon
    cases hon
  rw [hset, Set.Icc_eq_empty (by omega)]
  exact Set.bijOn_empty _

/-- **A statement of the boot hart** keeps the invariant. -/
theorem Inv.boot_exec (hb : b < n) (hi : Inv n b s) : Inv n b (exec n b s) := by
  have hboot := hi.boot
  have hlanded := hi.landed
  unfold exec
  generalize ht : s.hart b = t at *
  rcases t with ⟨place, tp, satp, sp, inits⟩
  unfold BootOk at hboot
  cases place with
  | bootcpuEntry =>
    obtain ⟨h1, h2, h3⟩ := hboot
    have hst := hi.all_stopped (by rw [ht]; rfl)
    dsimp only
    rw [getcpu_of_lt (by omega)]
    refine hi.boot_put (hlanded nofun) rfl ⟨h1, h2, h3, rfl, ?_, ?_, rfl, rfl⟩
      (fun k hne => other_of_stopped hi hst hne) (by rw [ht]; exact le_rfl) (counted_none hst)
    · simp
    · simp
  | bootcpuStartRelocation =>
    obtain ⟨-, h2, h3, h4, h5, h6, h7, h8⟩ := hboot
    have hst := hi.all_stopped (by rw [ht]; rfl)
    refine hi.boot_put (hlanded nofun) rfl ⟨rfl, h2, h3, h4, h5, h6, h7, h8, rfl⟩
      (fun k hne => other_of_stopped hi hst hne) (by rw [ht]; exact le_rfl) ?_
    exact hi.counted (by rw [ht]; nofun)
  | kvmInit =>
    obtain ⟨-, h2, h3, h4, h5, h6, h7, h8, h9⟩ := hboot
    have hst := hi.all_stopped (by rw [ht]; rfl)
    change tp = 0 at h4
    subst h4
    refine hi.boot_put (hlanded nofun) rfl ⟨rfl, h2, h3, rfl, ⟨Nat.zero_lt_of_lt hb, ?_⟩, ?_, h7, h8, h9⟩
      (fun k hne => other_of_stopped hi hst hne) (by rw [ht]; exact le_rfl) ?_
    · change (if (0 : ℕ) < n then _ else _) = _
      rw [if_pos (by omega)]
      cases hc : s.cpu 0
      rw [hc] at h5 h6
      cases h5; cases h6; rfl
    · intro i hlt
      change (if i < n then _ else _ : Cpu).schedKstackTop = _
      rw [if_pos hlt]
    · exact hi.counted (by rw [ht]; nofun)
  | bootcpuJump =>
    obtain ⟨h1, -, h3, h4, h5, h6, h7, h8, h9⟩ := hboot
    change tp = 0 at h4
    subst h4
    dsimp only
    rw [getcpu_of_lt (by omega)]
    refine hi.boot_move (hlanded nofun) ⟨⟨⟨h1, ?_⟩, rfl, h5, h6, h3, h9, h8⟩, by omega, by
      rw [put_bootedCount, h7], ?_⟩ (by rw [ht]; exact le_rfl) (by rw [ht]; nofun)
    · exact congrArg (fun a => some (Stack.sched a)) (h6 0 (by omega))
    · unfold Room
      rw [if_neg (Nat.not_lt_zero b)]
  | startLoop hartid cpuid =>
    obtain ⟨h1, h2, h3, h4⟩ := hboot
    have hid : (s.cpu tp).mhartId = b := congrArg Cpu.mhartId h1.named.2
    dsimp only
    split_ifs with hlt
    · rw [getcpu_of_lt h1.named.1]
      split_ifs with hown
      · refine hi.boot_move (hlanded nofun) ⟨h1.move, by omega, h3, h4.next⟩ ?_ (by rw [ht]; nofun)
        rw [ht]; exact Nat.le_succ _
      · refine hi.boot_move (hlanded nofun) ⟨h1.move, hlt, fun he => hown (he.trans hid.symm), h3, rfl,
          h4⟩ ?_ (by rw [ht]; nofun)
        rw [ht]; exact le_rfl
    · refine hi.boot_move (hlanded nofun) ⟨h1.settled, h1.inits, h1.tp, h1.named, h1.wait⟩ ?_
        (by rw [ht]; nofun)
      rw [ht]; exact h2
  | waitBooted hartid cpuid saved =>
    obtain ⟨h1, h2, h3, h4, h5, h6⟩ := hboot
    dsimp only
    split_ifs with heq
    · exact hi
    · have hcount : s.bootedCount = cpuid := h6.resolve_left (fun hc => heq hc.2) |>.2
      refine hi.boot_move (hlanded fun k c he => heq ?_) ⟨h1.move, h2, ?_, h5.started h3⟩ ?_
        (by rw [ht]; nofun)
      · exact (Place.waitBooted.inj he).2.2.symm
      · rw [put_bootedCount, hcount]
      · rw [ht]; exact le_rfl
  | scrub =>
    obtain ⟨h1, h2, h3, h4, h5⟩ := hboot
    refine hi.boot_put (hlanded nofun) rfl ⟨h1, ?_, h3, h4, h5⟩
      (fun k hne => (hi.other k hne).mono rfl rfl id) (by rw [ht]; exact le_rfl) ?_
    · exact congrArg (· ++ platformInits) h2
    · exact hi.counted (by rw [ht]; nofun)
  | platformInit todo =>
    obtain ⟨h1, h2, h3, h4, h5⟩ := hboot
    cases todo with
    | nil =>
      refine hi.boot_put (hlanded nofun) rfl ⟨h1, ?_, h3, h4, rfl⟩
        (fun k hne => (hi.other k hne).mono rfl rfl fun _ => rfl) (by rw [ht]; exact le_rfl) ?_
      · exact (List.append_nil _).symm.trans h2
      · exact hi.counted (by rw [ht]; nofun)
    | cons i todo =>
      refine hi.boot_move (hlanded nofun) ⟨h1, ?_, h3, h4, h5⟩ (by rw [ht]; exact le_rfl)
        (by rw [ht]; nofun)
      exact (List.append_assoc inits [i] todo).trans h2
  | _ => first | exact hboot.elim | exact hi

/-! ### The steps of the others -/

/-- What the boot hart relies on: the fields of its own `struct cpu` and the tops, the count, and
whether the hart it waits for is in flight. -/
theorem BootOk.mono (hok : BootOk n b s t) (hcpu : s'.cpu 0 = s.cpu 0) (htops : Tops n s → Tops n s')
    (hhalt : s'.haltSpecificInit = s.haltSpecificInit) (hmapped : s'.mapped = s.mapped)
    (hcount : (∀ k c v, t.place ≠ .waitBooted k c v) → s'.bootedCount = s.bootedCount)
    (hwait : ∀ k c v, t.place = .waitBooted k c v →
      ((s.hart k).place.inFlight = true ∧ s.bootedCount = v ∨
        (s.hart k).place.inFlight = false ∧ s.bootedCount = c) →
      ((s'.hart k).place.inFlight = true ∧ s'.bootedCount = v ∨
        (s'.hart k).place.inFlight = false ∧ s'.bootedCount = c)) : BootOk n b s' t := by
  have hnamed : ∀ {u : Hart}, u.tp = 0 → Named n s.cpu b u → Named n s'.cpu b u := fun h0 hn =>
    ⟨hn.1, by rw [h0, hcpu, ← h0]; exact hn.2⟩
  have hloop : ∀ {u : Hart}, Looping n b s u → Looping n b s' u := fun hl =>
    ⟨hl.settled, hl.tp, hnamed hl.tp hl.named, htops hl.tops, hl.inits, hmapped.trans hl.mapped,
      hhalt.trans hl.wait⟩
  rcases t with ⟨place, tp, satp, sp, inits⟩
  cases place with
  | bootcpuEntry => exact hok
  | bootcpuStartRelocation =>
    obtain ⟨h1, h2, h3, h4, h5, h6, h7, h8⟩ := hok
    exact ⟨h1, h2, h3, h4, hcpu ▸ h5, hcpu ▸ h6, (hcount nofun).trans h7, hhalt.trans h8⟩
  | kvmInit =>
    obtain ⟨h1, h2, h3, h4, h5, h6, h7, h8, h9⟩ := hok
    exact ⟨h1, h2, h3, h4, hcpu ▸ h5, hcpu ▸ h6, (hcount nofun).trans h7, hhalt.trans h8,
      hmapped.trans h9⟩
  | bootcpuJump =>
    obtain ⟨h1, h2, h3, h4, h5, h6, h7, h8, h9⟩ := hok
    exact ⟨h1, h2, h3, h4, hnamed h4 h5, htops h6, (hcount nofun).trans h7, hhalt.trans h8,
      hmapped.trans h9⟩
  | startLoop hartid cpuid =>
    obtain ⟨h1, h2, h3, h4⟩ := hok
    exact ⟨hloop h1, h2, (hcount nofun).symm ▸ h3, h4⟩
  | hartStart hartid cpuid saved =>
    obtain ⟨h1, h2, h3, h4, h5, h6⟩ := hok
    exact ⟨hloop h1, h2, h3, (hcount nofun).symm ▸ h4, (hcount nofun).symm ▸ h5, h6⟩
  | waitBooted hartid cpuid saved =>
    obtain ⟨h1, h2, h3, h4, h5, h6⟩ := hok
    exact ⟨hloop h1, h2, h3, h4, h5, hwait _ _ _ rfl h6⟩
  | scrub =>
    obtain ⟨h1, h2, h3, h4, h5⟩ := hok
    exact ⟨h1, h2, h3, hnamed h3 h4, hhalt.trans h5⟩
  | platformInit todo =>
    obtain ⟨h1, h2, h3, h4, h5⟩ := hok
    exact ⟨h1, h2, h3, hnamed h3 h4, hhalt.trans h5⟩
  | scheduler =>
    obtain ⟨h1, h2, h3, h4, h5⟩ := hok
    exact ⟨h1, h2, h3, hnamed h3 h4, hhalt.trans h5⟩
  | _ => exact False.elim hok

/-- A step of another hart that does not touch what the harts share, and neither starts nor counts. -/
theorem Inv.other_move (hi : Inv n b s) (hne : h ≠ b) (hok : OtherOk n (s.put h t) h t)
    (hst : (s.hart h).place ≠ .stopped) (hfl : t.place.inFlight = (s.hart h).place.inFlight)
    (hon : t.place.online = (s.hart h).place.online)
    (htp : t.place.online = true → t.tp = (s.hart h).tp) : Inv n b (s.put h t) := by
  have hb : (s.put h t).hart b = s.hart b := put_hart_of_ne hne.symm
  have hf : ∀ k, ((s.put h t).hart k).place.inFlight = (s.hart k).place.inFlight := fun k => by
    by_cases hk : k = h
    · rw [hk, put_hart_self, hfl]
    · rw [put_hart_of_ne hk]
  have ho : ∀ k, ((s.put h t).hart k).place.online = (s.hart k).place.online := fun k => by
    by_cases hk : k = h
    · rw [hk, put_hart_self, hon]
    · rw [put_hart_of_ne hk]
  refine ⟨?_, fun k hk => ?_, fun k hk hkf => ?_, fun k hk hkp => ?_, fun hentry => ?_⟩
  · rw [hb]
    exact hi.boot.mono rfl id rfl rfl (fun _ => rfl) fun k c v _ hw => by rw [hf k]; exact hw
  · by_cases hkh : k = h
    · rw [hkh, put_hart_self]; exact hok
    · rw [put_hart_of_ne hkh]; exact (hi.other k hk).mono rfl rfl id
  · rw [hb]
    exact hi.flight k hk (hf k ▸ hkf)
  · rw [hb]
    by_cases hkh : k = h
    · rw [hkh]; exact hi.started h hne hst
    · rw [put_hart_of_ne hkh] at hkp; exact hi.started k hk hkp
  · rw [hb] at hentry
    have hset : {k | k ≠ b ∧ ((s.put h t).hart k).place.online = true} =
        {k | k ≠ b ∧ (s.hart k).place.online = true} := by
      ext k
      exact and_congr_right fun _ => by rw [ho k]
    unfold Counted
    rw [hset]
    refine (hi.counted hentry).congr fun k hk => ?_
    change (s.hart k).tp = ((s.put h t).hart k).tp
    by_cases hkh : k = h
    · rw [hkh, put_hart_self, htp (by rw [hon, ← hkh]; exact hk.2)]
    · rw [put_hart_of_ne hkh]

/-- Who is in flight is the only one. -/
theorem Inv.alone (hi : Inv n b s) (hne : h ≠ b) (hf : (s.hart h).place.inFlight = true) (hk : h' ≠ b)
    (hf' : (s.hart h').place.inFlight = true) : h' = h := by
  obtain ⟨c, hc⟩ := hi.flight h hne hf
  obtain ⟨c', hc'⟩ := hi.flight h' hk hf'
  rw [hc] at hc'
  exact (Place.waitBooted.inj hc').1.symm

/-- The boot hart waits for the one in flight. -/
theorem Inv.awaited (hi : Inv n b s) (hne : h ≠ b) (hf : (s.hart h).place.inFlight = true) :
    ∃ cpuid, (s.hart b).place = .waitBooted h cpuid s.bootedCount ∧ Looping n b s (s.hart b) ∧
      cpuid = s.bootedCount + 1 := by
  obtain ⟨c, hc⟩ := hi.flight h hne hf
  have hboot := hi.boot
  unfold BootOk at hboot
  rw [hc] at hboot
  exact ⟨c, hc, hboot.1, hboot.2.2.2.1⟩

/-- `getcpu(cpuid)->mhart_id = hartid` and `->cpuid = cpuid` do not touch the cpu of another hart. -/
theorem Inv.name (hi : Inv n b s) (hne : h ≠ b) {c : ℕ} (hp : (s.hart h).place = .nameCpu c)
    (hc : c = s.bootedCount + 1) :
    Inv n b { s with cpu := Function.update s.cpu c { s.cpu c with mhartId := h, cpuid := c } } := by
  have hf : (s.hart h).place.inFlight = true := by rw [hp]; rfl
  have keep : ∀ {k : ℕ} {u : Hart}, u.tp ≠ c → Named n s.cpu k u →
      Named n (Function.update s.cpu c { s.cpu c with mhartId := h, cpuid := c }) k u :=
    fun hu hn => ⟨hn.1, by rw [Function.update_of_ne hu]; exact hn.2⟩
  refine ⟨?_, fun k hk => ?_, hi.flight, hi.started, hi.counted⟩
  · refine hi.boot.mono (Function.update_of_ne (by omega) ..) (fun ht i hlt => ?_) rfl rfl
      (fun _ => rfl) fun _ _ _ _ hw => hw
    show (Function.update s.cpu c { s.cpu c with mhartId := h, cpuid := c } i).schedKstackTop = _
    by_cases hic : i = c
    · rw [hic, Function.update_self, ← hic]; exact ht i hlt
    · rw [Function.update_of_ne hic]; exact ht i hlt
  · have hok := hi.other k hk
    by_cases hkh : k = h
    · subst hkh
      change OtherOk n _ k (s.hart k)
      unfold OtherOk at hok ⊢
      rw [hp] at hok ⊢
      exact hok
    · have hland : (s.hart k).place.inFlight = false := by
        by_contra hfk
        exact hkh (hi.alone hne hf hk (Bool.eq_true_of_not_eq_false hfk))
      change OtherOk n _ k (s.hart k)
      generalize s.hart k = u at hok hland ⊢
      rcases u with ⟨place, tp, satp, sp, inits⟩
      cases place with
      | stopped => exact hok
      | waitInit =>
        obtain ⟨h1, h2, h3, h4⟩ := hok
        exact ⟨h1, h2, h3, keep (by change tp ≠ c; change tp ≤ _ at h3; omega) h4⟩
      | haltInit todo =>
        obtain ⟨h1, h2, h3, h4, h5⟩ := hok
        exact ⟨h1, h2, h3, keep (by change tp ≠ c; change tp ≤ _ at h3; omega) h4, h5⟩
      | scheduler =>
        obtain ⟨h1, h2, h3, h4, h5⟩ := hok
        exact ⟨h1, h2, h3, keep (by change tp ≠ c; change tp ≤ _ at h3; omega) h4, h5⟩
      | _ => first | exact False.elim hok | cases hland

/-- `booted_count++`, the write: the hart is online, and the boot hart may go on. -/
theorem Inv.count (hi : Inv n b s) (hne : h ≠ b) {v : ℕ} (hp : (s.hart h).place = .countWrite v) :
    Inv n b ({ s with bootedCount := v + 1 }.put h { s.hart h with place := .waitInit }) := by
  have hf : (s.hart h).place.inFlight = true := by rw [hp]; rfl
  obtain ⟨c, hw, -, hc⟩ := hi.awaited hne hf
  have hok := hi.other h hne
  unfold OtherOk at hok
  rw [hp] at hok
  obtain ⟨h1, h2, h3, h4, h5⟩ := hok
  subst h5
  generalize hs' : ({ s with bootedCount := s.bootedCount + 1 }.put h
    { s.hart h with place := .waitInit } : Sys) = s'
  have hh : s'.hart h = { s.hart h with place := .waitInit } := by rw [← hs', put_hart_self]
  have hk : ∀ k, k ≠ h → s'.hart k = s.hart k := fun k hkh => by rw [← hs', put_hart_of_ne hkh]
  have hcount : s'.bootedCount = s.bootedCount + 1 := by rw [← hs']; rfl
  have hcpu : s'.cpu = s.cpu := by rw [← hs']; rfl
  have hhalt : s'.haltSpecificInit = s.haltSpecificInit := by rw [← hs']; rfl
  have hmapped : s'.mapped = s.mapped := by rw [← hs']; rfl
  have hb := hk b hne.symm
  have hland : ∀ k, k ≠ b → k ≠ h → (s.hart k).place.inFlight = false := fun k hkb hkh => by
    by_contra hfk
    exact hkh (hi.alone hne hf hkb (Bool.eq_true_of_not_eq_false hfk))
  refine ⟨?_, fun k hkb => ?_, fun k hkb hkf => ?_, fun k hkb hkp => ?_, fun _ => ?_⟩
  · rw [hb]
    refine hi.boot.mono (by rw [hcpu]) (fun ht => by unfold Tops; rwa [hcpu]) hhalt hmapped
      (fun hno => absurd hw (hno _ _ _)) fun k c' v' hw' _ => Or.inr ?_
    rw [hw] at hw'
    obtain ⟨rfl, rfl, -⟩ := Place.waitBooted.inj hw'
    exact ⟨by rw [hh]; rfl, hcount.trans hc.symm⟩
  · by_cases hkh : k = h
    · rw [hkh, hh]
      exact ⟨h1, h2, by rw [hcount]; exact h3.le, hcpu.symm ▸ h4⟩
    · rw [hk k hkh]
      have hokk := hi.other k hkb
      have hl := hland k hkb hkh
      generalize s.hart k = u at hokk hl ⊢
      rcases u with ⟨place, tp, satp, sp, inits⟩
      cases place with
      | stopped => exact hokk
      | waitInit =>
        obtain ⟨k1, k2, k3, k4⟩ := hokk
        exact ⟨k1, k2, by rw [hcount]; exact Nat.le_succ_of_le k3, hcpu.symm ▸ k4⟩
      | haltInit todo =>
        obtain ⟨k1, k2, k3, k4, k5⟩ := hokk
        exact ⟨k1, k2, by rw [hcount]; exact Nat.le_succ_of_le k3, hcpu.symm ▸ k4, hhalt.trans k5⟩
      | scheduler =>
        obtain ⟨k1, k2, k3, k4, k5⟩ := hokk
        exact ⟨k1, k2, by rw [hcount]; exact Nat.le_succ_of_le k3, hcpu.symm ▸ k4, hhalt.trans k5⟩
      | _ => first | exact False.elim hokk | cases hl
  · by_cases hkh : k = h
    · rw [hkh, hh] at hkf; cases hkf
    · rw [hk k hkh, hland k hkb hkh] at hkf; cases hkf
  · rw [hb]
    by_cases hkh : k = h
    · rw [hkh]; exact hi.started h hne (by rw [hp]; nofun)
    · rw [hk k hkh] at hkp; exact hi.started k hkb hkp
  · -- the harts online are those before and `h`, which is the cpu `booted_count`
    have hset : {k | k ≠ b ∧ (s'.hart k).place.online = true} =
        insert h {k | k ≠ b ∧ (s.hart k).place.online = true} := by
      ext k
      by_cases hkh : k = h
      · subst hkh
        exact ⟨fun _ => Or.inl rfl, fun _ => ⟨hne, by rw [hh]; rfl⟩⟩
      · refine ⟨fun hm => Or.inr ⟨hm.1, hk k hkh ▸ hm.2⟩, fun hm => ?_⟩
        obtain ⟨hm1, hm2⟩ := hm.resolve_left hkh
        exact ⟨hm1, by rw [hk k hkh]; exact hm2⟩
    have hicc : Set.Icc 1 s'.bootedCount = insert ((s.hart h).tp) (Set.Icc 1 s.bootedCount) := by
      ext x
      rw [Set.mem_insert_iff, Set.mem_Icc, Set.mem_Icc, hcount, h3]
      omega
    unfold Counted
    rw [hset, hicc]
    refine (Set.BijOn.insert (hi.counted (by rw [hw]; nofun)) ?_).congr fun k _ => ?_
    · rw [Set.mem_Icc]; change ¬ (_ ∧ (s.hart h).tp ≤ _); omega
    · change (s.hart k).tp = (s'.hart k).tp
      by_cases hkh : k = h
      · rw [hkh, hh]
      · rw [hk k hkh]

/-- **A statement of another hart** keeps the invariant. -/
theorem Inv.other_exec (hi : Inv n b s) (hne : h ≠ b) : Inv n b (exec n h s) := by
  have hok := hi.other h hne
  have hmove := fun t => hi.other_move (t := t) hne
  have haw := hi.awaited hne
  have hcnt := fun v => hi.count (v := v) hne
  have hname := fun c => hi.name (c := c) hne
  unfold exec
  generalize ht : s.hart h = t at *
  rcases t with ⟨place, tp, satp, sp, inits⟩
  unfold OtherOk at hok
  cases place with
  | secondarycpuEntry c =>
    obtain ⟨h1, h2, h3, h4, h5⟩ := hok
    exact hmove _ ⟨h1, h2, h3, h4, h5, rfl⟩ nofun rfl rfl nofun
  | nameCpu c =>
    obtain ⟨h1, h2, h3, h4, h5, h6⟩ := hok
    obtain ⟨-, -, hl, -⟩ := haw rfl
    dsimp only
    rw [getcpu_of_lt h5]
    refine (hname c rfl h4).other_move hne ⟨h1, h2, h3, h6.trans h4, ?_⟩ ?_ ?_ ?_ nofun
    · change tp = c at h6
      subst h6
      refine ⟨h5, ?_⟩
      change Function.update _ _ _ _ = _
      rw [Function.update_self]
      exact congrArg _ (hl.tops tp h5)
    · change (s.hart h).place ≠ _; rw [ht]; nofun
    · change _ = (s.hart h).place.inFlight; rw [ht]; rfl
    · change _ = (s.hart h).place.online; rw [ht]; rfl
  | useRelocate =>
    obtain ⟨h1, h2, h3, h4, h5⟩ := hok
    exact hmove _ ⟨rfl, h2, h3, h4, h5⟩ nofun rfl rfl nofun
  | useKernel =>
    obtain ⟨h1, h2, h3, h4, h5⟩ := hok
    exact hmove _ ⟨rfl, h2, h3, h4, h5⟩ nofun rfl rfl nofun
  | secondarycpuJump =>
    obtain ⟨h1, h2, h3, h4, h5⟩ := hok
    dsimp only
    rw [getcpu_of_lt h5.1]
    refine hmove _ ⟨⟨h1, ?_⟩, h3, h4, h5⟩ nofun rfl rfl nofun
    exact congrArg (fun c : Cpu => some (Stack.sched c.schedKstackTop)) h5.2
  | countRead =>
    obtain ⟨h1, h2, h3, h4⟩ := hok
    exact hmove _ ⟨h1, h2, h3, h4, rfl⟩ nofun rfl rfl nofun
  | countWrite v => exact hcnt v rfl
  | waitInit =>
    obtain ⟨h1, h2, h3, h4⟩ := hok
    dsimp only
    split_ifs with hhalt
    · exact hmove _ ⟨h1, congrArg (· ++ haltInits) h2, h3, h4, hhalt⟩ nofun rfl rfl fun _ => rfl
    · exact hi
  | haltInit todo =>
    obtain ⟨h1, h2, h3, h4, h5⟩ := hok
    cases todo with
    | nil =>
      exact hmove _ ⟨h1, (List.append_nil _).symm.trans h2, h3, h4, h5⟩ nofun rfl rfl fun _ => rfl
    | cons i todo =>
      exact hmove _ ⟨h1, (List.append_assoc inits [i] todo).trans h2, h3, h4, h5⟩ nofun rfl rfl
        fun _ => rfl
  | _ => first | exact False.elim hok | exact hi

/-! ### The answers of the firmware -/

/-- Only the boot hart calls the firmware. -/
theorem Inv.caller (hi : Inv n b s) {hartid c v : ℕ} (hp : (s.hart h).place = .hartStart hartid c v) :
    h = b := by
  by_contra hne
  have hok := hi.other h hne
  unfold OtherOk at hok
  rw [hp] at hok
  exact hok

theorem Inv.accept (hb : b < n) (hi : Inv n b s) {hartid c v tp : ℕ}
    (hp : (s.hart b).place = .hartStart hartid c v) (hst : (s.hart hartid).place = .stopped) :
    Inv n b ((s.put hartid ⟨.secondarycpuEntry c, tp, .bare, some .boot, []⟩).put b
      { s.hart b with place := .waitBooted hartid c v }) := by
  have hland := hi.landed (by rw [hp]; nofun)
  have hboot := hi.boot
  unfold BootOk at hboot
  rw [hp] at hboot
  obtain ⟨h1, h2, h3, h4, h5, h6⟩ := hboot
  generalize hs' : ((s.put hartid ⟨.secondarycpuEntry c, tp, .bare, some .boot, []⟩).put b
    { s.hart b with place := .waitBooted hartid c v } : Sys) = s'
  have hhb : s'.hart b = { s.hart b with place := .waitBooted hartid c v } := by
    rw [← hs', put_hart_self]
  have hhh : s'.hart hartid = ⟨.secondarycpuEntry c, tp, .bare, some .boot, []⟩ := by
    rw [← hs', put_hart_of_ne h3, put_hart_self]
  have hk : ∀ k, k ≠ b → k ≠ hartid → s'.hart k = s.hart k := fun k hkb hkh => by
    rw [← hs', put_hart_of_ne hkb, put_hart_of_ne hkh]
  have hcount : s'.bootedCount = s.bootedCount := by rw [← hs']; rfl
  refine ⟨?_, fun k hkb => ?_, fun k hkb hkf => ?_, fun k hkb hkp => ?_, fun _ => ?_⟩
  · rw [hhb]
    refine ⟨?_, h2, h3, by rw [h4, h5], h6, Or.inl ⟨by rw [hhh]; rfl, hcount.trans h5.symm⟩⟩
    rw [← hs']
    exact (h1.move (p := (s.hart b).place)).move
  · by_cases hkh : k = hartid
    · rw [hkh, hhh]
      exact ⟨rfl, rfl, rfl, hcount.symm ▸ h4, h6.lt h3 h2 hb⟩
    · rw [hk k hkb hkh]
      exact (hi.other k hkb).mono (by rw [← hs']; rfl) hcount (by rw [← hs']; exact id)
  · rw [hhb, hcount]
    by_cases hkh : k = hartid
    · exact ⟨c, by rw [hkh, h5]⟩
    · rw [hk k hkb hkh, hland k hkb] at hkf; cases hkf
  · rw [hhb]
    by_cases hkh : k = hartid
    · rw [hkh]; exact Nat.lt_succ_self hartid
    · rw [hk k hkb hkh] at hkp
      have hlt := hi.started k hkb hkp
      rw [hp] at hlt
      exact Nat.lt_succ_of_lt hlt
  · have hset : {k | k ≠ b ∧ (s'.hart k).place.online = true} =
        {k | k ≠ b ∧ (s.hart k).place.online = true} := by
      ext k
      refine and_congr_right fun hkb => ?_
      by_cases hkh : k = hartid
      · rw [hkh, hhh, hst]; rfl
      · rw [hk k hkb hkh]
    unfold Counted
    rw [hset, hcount]
    refine (hi.counted (by rw [hp]; nofun)).congr fun k hkm => ?_
    change (s.hart k).tp = (s'.hart k).tp
    have hkh : k ≠ hartid := by
      rintro rfl
      have := hkm.2
      rw [hst] at this
      cases this
    rw [hk k hkm.1 hkh]

theorem Inv.refuse (hi : Inv n b s) {hartid c v : ℕ}
    (hp : (s.hart b).place = .hartStart hartid c v) :
    Inv n b (s.put b { s.hart b with place := .startLoop (hartid + 1) c }) := by
  have hboot := hi.boot
  unfold BootOk at hboot
  rw [hp] at hboot
  obtain ⟨h1, h2, h3, h4, h5, h6⟩ := hboot
  refine hi.boot_move (hi.landed (by rw [hp]; nofun)) ⟨h1.move, h2, h4, h6.next⟩ ?_
    (by rw [hp]; nofun)
  rw [hp]; exact Nat.le_succ _

/-! ### Every interleaving -/

theorem entered_inv (h : Entered b s) : Inv n b s := by
  obtain ⟨hp, hsatp, hsp, hinits⟩ := h.boot
  refine ⟨?_, fun k hk => ?_, fun k hk hf => ?_, fun k hk hne => absurd (h.others k hk).1 hne,
    fun hne => absurd hp hne⟩
  · unfold BootOk; rw [hp]; exact ⟨hsatp, hsp, hinits⟩
  · unfold OtherOk; rw [(h.others k hk).1]; exact (h.others k hk).2
  · rw [(h.others k hk).1] at hf; cases hf

/-- **One step keeps the invariant.** -/
theorem step_inv (hb : b < n) (hi : Inv n b s) (hstep : Step n s s') : Inv n b s' := by
  cases hstep with
  | exec h =>
    by_cases hne : h = b
    · rw [hne]; exact hi.boot_exec hb
    · exact hi.other_exec hne
  | accept h hartid c v tp hp hst =>
    obtain rfl := hi.caller hp
    exact hi.accept hb hp hst
  | refuse h hartid c v hp =>
    obtain rfl := hi.caller hp
    exact hi.refuse hp

theorem reached_inv (hb : b < n) (h : Reached n b s) : Inv n b s := by
  obtain ⟨s₀, h₀, hrun⟩ := h
  induction hrun with
  | refl => exact entered_inv h₀
  | tail _ hstep ih => exact step_inv hb ih hstep

end UCore.Smp.Flight

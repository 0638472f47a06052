import Mathlib.Algebra.BigOperators.Group.Finset.Basic
import Mathlib.Algebra.Order.BigOperators.Group.Finset
import UCore.Lib.Runs
import UCore.Smp.Flight

/-! # The harts come online

What the invariant of the start is for: no two harts use one stack or are one cpu, no increment of
`booted_count` is lost, and no hart goes on before the platform is initialized (`start_safe`). The start
is bounded, and it ends with every hart that the firmware has started in `scheduler`
(`start_completes`). -/

namespace UCore.Smp.Online

open UCore.Lib.Runs UCore.Smp.Start UCore.Smp.Flight

variable {n b h h' i : ℕ} {s s' : Sys} {t : Hart}

/-! ### Safety -/

theorem schedTop_apart {i j : ℕ} (h : i ≠ j) :
    Stack.Apart (.sched (schedTop i)) (.sched (schedTop j)) := by
  unfold Stack.Apart schedTop KERNEL_STACK_SIZE
  rcases Nat.lt_or_gt_of_ne h with h | h
  · left; omega
  · right; omega

/-- What the start is to keep. -/
structure Safe (n b : ℕ) (s : Sys) : Prop where
  /-- No assertion of `mycpu` or `getcpu` fails. -/
  running : ∀ h, (s.hart h).place ≠ .panicked
  /-- No two harts use one stack. -/
  apart : ∀ h h' x y, h ≠ h' → (s.hart h).sp = some x → (s.hart h').sp = some y → x.Apart y
  /-- The relocation page table is there while a hart uses it. -/
  relocation : ∀ h, (s.hart h).satp = .relocate → s.mapped = true
  /-- On the stack of a cpu, `mycpu()` is that cpu, and names the hart. -/
  mycpu : ∀ h top, (s.hart h).sp = some (.sched top) → (s.hart h).tp < n ∧
    s.cpu (s.hart h).tp = ⟨h, (s.hart h).tp, top⟩
  /-- No two harts are one cpu. -/
  distinct : ∀ h h' x y, h ≠ h' → (s.hart h).sp = some (.sched x) → (s.hart h').sp = some (.sched y) →
    (s.hart h).tp ≠ (s.hart h').tp
  /-- No increment of `booted_count` is lost. -/
  counted : (s.hart b).place ≠ .bootcpuEntry → Counted b s
  /-- The platform is initialized before another hart goes on. -/
  released : ∀ h, h ≠ b → (s.hart h).place.released = true → (s.hart b).inits = platformInits
  /-- A hart enters `scheduler` with its initializations made, in order. -/
  initialized : ∀ h, (s.hart h).place = .scheduler →
    (s.hart h).inits = if h = b then platformInits else haltInits

/-- A hart on the stack of a cpu. -/
theorem inv_on_sched (hi : Inv n b s) {top : ℕ} (hsp : (s.hart h).sp = some (.sched top)) :
    top = schedTop (s.hart h).tp ∧ Named n s.cpu h (s.hart h) ∧
      (h = b ∧ (s.hart h).tp = 0 ∨
        h ≠ b ∧ (s.hart h).place.inFlight = true ∧ (s.hart h).tp = s.bootedCount + 1 ∨
        h ≠ b ∧ (s.hart h).place.online = true ∧ (s.hart h).tp ≤ s.bootedCount) := by
  have htop : Settled (s.hart h) → top = schedTop (s.hart h).tp := fun hs => by
    have := hsp.symm.trans hs.2
    simpa using this
  by_cases hb : h = b
  · subst hb
    have hok := hi.boot
    generalize s.hart h = t at hok hsp htop ⊢
    rcases t with ⟨place, tp, satp, sp, inits⟩
    have hno : sp = some .boot → False := fun h1 => by cases h1.symm.trans hsp
    cases place with
    | startLoop | hartStart | waitBooted =>
      exact ⟨htop hok.1.settled, hok.1.named, Or.inl ⟨rfl, hok.1.tp⟩⟩
    | scrub | platformInit => exact ⟨htop hok.1, hok.2.2.2.1, Or.inl ⟨rfl, hok.2.2.1⟩⟩
    | scheduler => exact ⟨htop hok.1, hok.2.2.2.1, Or.inl ⟨rfl, hok.2.2.1⟩⟩
    | bootcpuEntry | bootcpuStartRelocation | kvmInit | bootcpuJump => exact (hno hok.2.1).elim
    | _ => exact False.elim hok
  · have hok := hi.other h hb
    generalize s.hart h = t at hok hsp htop ⊢
    rcases t with ⟨place, tp, satp, sp, inits⟩
    have hno : sp = some .boot → False := fun h1 => by cases h1.symm.trans hsp
    cases place with
    | stopped => cases hok.2.symm.trans hsp
    | secondarycpuEntry | nameCpu | useRelocate | useKernel | secondarycpuJump =>
      exact (hno hok.2.1).elim
    | countRead => exact ⟨htop hok.1, hok.2.2.2, Or.inr (Or.inl ⟨hb, rfl, hok.2.2.1⟩)⟩
    | countWrite v => exact ⟨htop hok.1, hok.2.2.2.1, Or.inr (Or.inl ⟨hb, rfl, hok.2.2.1⟩)⟩
    | waitInit => exact ⟨htop hok.1, hok.2.2.2, Or.inr (Or.inr ⟨hb, rfl, hok.2.2.1⟩)⟩
    | haltInit | scheduler =>
      exact ⟨htop hok.1, hok.2.2.2.1, Or.inr (Or.inr ⟨hb, rfl, hok.2.2.1⟩)⟩
    | _ => exact False.elim hok

/-- A hart on the boot stack: the boot hart at first, then the one in flight. -/
theorem inv_on_boot (hi : Inv n b s) (hsp : (s.hart h).sp = some .boot) :
    h = b ∧ (∀ k c, (s.hart b).place ≠ .waitBooted k c s.bootedCount) ∨
      h ≠ b ∧ (s.hart h).place.inFlight = true := by
  have hno : ¬ Settled (s.hart h) := fun hs => by
    have := hsp.symm.trans hs.2
    cases this
  by_cases hb : h = b
  · subst hb
    refine Or.inl ⟨rfl, fun k c hp => hno ?_⟩
    have hok := hi.boot
    unfold BootOk at hok
    rw [hp] at hok
    exact hok.1.settled
  · refine Or.inr ⟨hb, ?_⟩
    have hok := hi.other h hb
    generalize s.hart h = t at hok hsp hno ⊢
    rcases t with ⟨place, tp, satp, sp, inits⟩
    cases place with
    | stopped => cases hok.2.symm.trans hsp
    | waitInit | haltInit | scheduler => exact absurd hok.1 hno
    | _ => first | rfl | exact False.elim hok

theorem inv_distinct (hi : Inv n b s) {x y : ℕ} (hne : h ≠ h') (hx : (s.hart h).sp = some (.sched x))
    (hy : (s.hart h').sp = some (.sched y)) : (s.hart h).tp ≠ (s.hart h').tp := by
  have hpos : ∀ k, k ≠ b → (s.hart k).place.online = true → (s.hart b).place ≠ .bootcpuEntry →
      1 ≤ (s.hart k).tp := fun k hk ho hentry => ((hi.counted hentry).mapsTo ⟨hk, ho⟩).1
  have hentry : ∀ k, k ≠ b → (s.hart k).place.online = true → (s.hart b).place ≠ .bootcpuEntry :=
    fun k hk ho hp => by
      have hst := hi.all_stopped (by rw [hp]; rfl) k hk
      rw [hst] at ho
      cases ho
  intro heq
  rcases (inv_on_sched hi hx).2.2 with ⟨rfl, h0⟩ | ⟨hb, hf, h1⟩ | ⟨hb, ho, h1⟩ <;>
    rcases (inv_on_sched hi hy).2.2 with ⟨rfl, h0'⟩ | ⟨hb', hf', h1'⟩ | ⟨hb', ho', h1'⟩
  · exact hne rfl
  · omega
  · have := hpos _ hb' ho' (hentry _ hb' ho'); omega
  · omega
  · exact hne (hi.alone hb' hf' hb hf)
  · omega
  · have := hpos _ hb ho (hentry _ hb ho); omega
  · omega
  · exact hne ((hi.counted (hentry _ hb ho)).injOn ⟨hb, ho⟩ ⟨hb', ho'⟩ heq)

/-- **The invariant is safe.** -/
theorem inv_safe (hi : Inv n b s) : Safe n b s := by
  refine ⟨fun h hp => ?_, fun h h' x y hne hx hy => ?_, fun h hsatp => ?_, fun h top hsp => ?_,
    fun h h' x y => inv_distinct hi, hi.counted, fun h hne hr => ?_, fun h hp => ?_⟩
  · by_cases hb : h = b
    · have hok := hi.boot
      unfold BootOk at hok
      rw [← hb, hp] at hok
      exact hok
    · have hok := hi.other h hb
      unfold OtherOk at hok
      rw [hp] at hok
      exact hok
  · cases x with
    | boot =>
      cases y with
      | boot =>
        rcases inv_on_boot hi hx with ⟨rfl, hw⟩ | ⟨hb, hf⟩ <;>
          rcases inv_on_boot hi hy with ⟨rfl, hw'⟩ | ⟨hb', hf'⟩
        · exact hne rfl
        · obtain ⟨c, hc⟩ := hi.flight _ hb' hf'
          exact hw _ _ hc
        · obtain ⟨c, hc⟩ := hi.flight _ hb hf
          exact hw' _ _ hc
        · exact hne (hi.alone hb' hf' hb hf)
      | sched y => trivial
    | sched x =>
      cases y with
      | boot => trivial
      | sched y =>
        rw [(inv_on_sched hi hx).1, (inv_on_sched hi hy).1]
        exact schedTop_apart (inv_distinct hi hne hx hy)
  · by_cases hb : h = b
    · subst hb
      have hok := hi.boot
      generalize s.hart h = t at hok hsatp
      rcases t with ⟨place, tp, satp, sp, inits⟩
      have hno : satp ≠ .relocate → False := fun hn => hn hsatp
      cases place with
      | kvmInit => exact hok.2.2.2.2.2.2.2.2
      | bootcpuEntry | bootcpuStartRelocation | bootcpuJump =>
        exact (hno (by rw [show satp = _ from hok.1]; nofun)).elim
      | startLoop | hartStart | waitBooted => exact hok.1.mapped
      | scrub | platformInit | scheduler =>
        exact (hno (by rw [show satp = _ from hok.1.1]; nofun)).elim
      | _ => exact False.elim hok
    · by_cases hf : (s.hart h).place.inFlight = true
      · obtain ⟨c, -, hl, -⟩ := hi.awaited hb hf
        exact hl.mapped
      · have hok := hi.other h hb
        generalize s.hart h = t at hok hsatp hf
        rcases t with ⟨place, tp, satp, sp, inits⟩
        have hno : satp ≠ .relocate → False := fun hn => hn hsatp
        cases place with
        | stopped => exact (hno (by rw [show satp = _ from hok.1]; nofun)).elim
        | waitInit | haltInit | scheduler =>
          exact (hno (by rw [show satp = _ from hok.1.1]; nofun)).elim
        | _ => first | exact absurd rfl hf | exact False.elim hok
  · obtain ⟨htop, hn, -⟩ := inv_on_sched hi hsp
    exact ⟨hn.1, htop ▸ hn.2⟩
  · have hhalt : s.haltSpecificInit = true := by
      have hok := hi.other h hne
      generalize s.hart h = t at hok hr
      rcases t with ⟨place, tp, satp, sp, inits⟩
      cases place with
      | haltInit | scheduler => exact hok.2.2.2.2
      | _ => cases hr
    have hst : (s.hart h).place ≠ .stopped := fun hp => by
      rw [hp] at hr
      cases hr
    have hlim := hi.started h hne hst
    have hok := hi.boot
    generalize s.hart b = t at hok hlim ⊢
    rcases t with ⟨place, tp, satp, sp, inits⟩
    have hoff : s.haltSpecificInit = false → inits = platformInits := fun h0 => by
      rw [h0] at hhalt
      cases hhalt
    cases place with
    | scheduler => exact hok.2.1
    | startLoop | hartStart | waitBooted => exact hoff hok.1.wait
    | scrub | platformInit => exact hoff hok.2.2.2.2
    | bootcpuEntry | bootcpuStartRelocation | kvmInit | bootcpuJump =>
      exact absurd hlim (Nat.not_lt_zero h)
    | _ => exact False.elim hok
  · split_ifs with hb
    · have hok := hi.boot
      unfold BootOk at hok
      rw [← hb, hp] at hok
      exact hok.2.1
    · have hok := hi.other h hb
      unfold OtherOk at hok
      rw [hp] at hok
      exact hok.2.1

/-- **The start is safe**, on any number of cpus, for every order of the statements and every answer of
the firmware, if the boot hart is one of those that the loop goes over. -/
theorem start_safe (hb : b < n) (h : Reached n b s) : Safe n b s := inv_safe (reached_inv hb h)

/-- A machine of four harts at `_entry`, with the `.bss` not cleared yet. -/
def atEntry (b : ℕ) : Sys where
  hart h := if h = b then ⟨.bootcpuEntry, 7, .bare, some .boot, []⟩ else ⟨.stopped, 0, .bare, none, []⟩
  cpu _ := ⟨9, 9, 9⟩
  bootedCount := 5
  haltSpecificInit := true
  mapped := false

theorem entered_atEntry (b : ℕ) : Entered b (atEntry b) :=
  ⟨by simp [atEntry], fun h hne => by simp [atEntry, hne]⟩

/-- Hart 2 has started hart 0, which is about to use the relocation page table. -/
def startingHart : Sys :=
  let s := exec 4 2 (exec 4 2 (exec 4 2 (exec 4 2 (exec 4 2 (atEntry 2)))))
  exec 4 0 (exec 4 0 ((s.put 0 ⟨.secondarycpuEntry 1, 3, .bare, some .boot, []⟩).put 2
    { s.hart 2 with place := .waitBooted 0 1 0 }))

theorem start_safe_starting : Safe 4 2 startingHart := by
  refine start_safe (by decide) ⟨atEntry 2, entered_atEntry 2, ?_⟩
  refine .tail (.tail (.tail ?_ (.accept 2 0 1 0 3 rfl rfl)) (.exec 0)) (.exec 0)
  exact .tail (.tail (.tail (.tail (.tail .refl (.exec 2)) (.exec 2)) (.exec 2)) (.exec 2)) (.exec 2)

/-! ### Progress -/

/-- The statements that are left. -/
def weight (n : ℕ) (s : Sys) : ℕ := ∑ k ∈ Finset.range n, (s.hart k).place.rank n

/-- A hart that has nothing to do, waits for the firmware, or spins. -/
def Idle (s : Sys) (h : ℕ) : Prop :=
  match (s.hart h).place with
  | .stopped | .hartStart _ _ _ | .scheduler | .panicked => True
  | .waitBooted _ _ saved => s.bootedCount = saved
  | .waitInit => s.haltSpecificInit = false
  | _ => False

theorem exec_of_idle (h' : Idle s h) : exec n h s = s := by
  unfold exec
  unfold Idle at h'
  generalize ht : s.hart h = t at *
  rcases t with ⟨place, tp, satp, sp, inits⟩
  cases place with
  | waitBooted hartid cpuid saved => exact if_pos h'
  | waitInit =>
    change (if s.haltSpecificInit = true then _ else s) = s
    rw [h']
    rfl
  | _ => first | rfl | exact False.elim h'

theorem rank_getcpu {f : Cpu → Sys} {r : ℕ} (hr : 0 < r)
    (hf : ∀ c, ((f c).hart h).place.rank n < r) : ((s.getcpu n h i f).hart h).place.rank n < r := by
  unfold Sys.getcpu
  split_ifs
  · exact hf _
  · rw [put_hart_self]; exact hr

/-- A statement is one less that is left. -/
theorem exec_rank (hne : ¬ Idle s h) :
    ((exec n h s).hart h).place.rank n < (s.hart h).place.rank n := by
  unfold Idle at hne
  unfold exec
  generalize s.hart h = t at *
  rcases t with ⟨place, tp, satp, sp, inits⟩
  cases place with
  | bootcpuEntry | bootcpuJump =>
    refine rank_getcpu (by simp only [Place.rank]; omega) fun c => ?_
    rw [put_hart_self]
    simp only [Place.rank]
    omega
  | nameCpu | secondarycpuJump =>
    refine rank_getcpu (by simp only [Place.rank]; omega) fun c => ?_
    rw [put_hart_self]
    exact Nat.lt_succ_self _
  | startLoop k c =>
    dsimp only
    split_ifs with hlt
    · refine rank_getcpu (by simp only [Place.rank]; omega) fun c => ?_
      split_ifs
      · rw [put_hart_self]; simp only [Place.rank]; omega
      · rw [put_hart_self]; simp only [Place.rank]; omega
    · rw [put_hart_self]; simp only [Place.rank]; omega
  | waitBooted k c v =>
    dsimp only at hne ⊢
    rw [if_neg hne, put_hart_self]
    simp only [Place.rank]
    omega
  | waitInit =>
    dsimp only at hne ⊢
    rw [if_pos (Bool.eq_true_of_not_eq_false hne), put_hart_self]
    exact Nat.lt_succ_self 4
  | platformInit todo | haltInit todo =>
    cases todo with
    | nil => dsimp only; rw [put_hart_self]; exact Nat.one_pos
    | cons i todo => dsimp only; rw [put_hart_self]; exact Nat.lt_succ_self _
  | scrub => dsimp only; rw [put_hart_self]; exact Nat.lt_succ_self 11
  | stopped | hartStart | scheduler | panicked => exact absurd trivial hne
  | _ =>
    dsimp only
    rw [put_hart_self]
    exact Nat.lt_succ_self _

theorem getcpu_hart_of_ne {f : Cpu → Sys} (hne : h' ≠ h) (hf : ∀ c, (f c).hart h' = s.hart h') :
    (s.getcpu n h i f).hart h' = s.hart h' := by
  unfold Sys.getcpu
  split_ifs
  · exact hf _
  · exact put_hart_of_ne hne

/-- A statement does not touch another hart. -/
theorem exec_hart_of_ne (hne : h' ≠ h) : (exec n h s).hart h' = s.hart h' := by
  unfold exec
  generalize s.hart h = t
  rcases t with ⟨place, tp, satp, sp, inits⟩
  cases place with
  | bootcpuEntry | bootcpuJump | nameCpu | secondarycpuJump =>
    exact getcpu_hart_of_ne hne fun c => put_hart_of_ne hne
  | startLoop k c =>
    dsimp only
    split_ifs
    · refine getcpu_hart_of_ne hne fun c => ?_
      split_ifs
      · exact put_hart_of_ne hne
      · exact put_hart_of_ne hne
    · exact put_hart_of_ne hne
  | waitBooted | waitInit =>
    dsimp only
    split_ifs
    · first | rfl | exact put_hart_of_ne hne
    · first | rfl | exact put_hart_of_ne hne
  | platformInit todo | haltInit todo =>
    cases todo with
    | nil => exact put_hart_of_ne hne
    | cons i todo => exact put_hart_of_ne hne
  | _ => first | rfl | exact put_hart_of_ne hne

theorem weight_lt (hlt : h < n) (hrank : (s'.hart h).place.rank n < (s.hart h).place.rank n)
    (hother : ∀ k, k ≠ h → s'.hart k = s.hart k) : weight n s' < weight n s := by
  refine Finset.sum_lt_sum (fun k _ => ?_) ⟨h, Finset.mem_range.mpr hlt, hrank⟩
  by_cases hk : k = h
  · rw [hk]; exact hrank.le
  · rw [hother k hk]

/-- Harts from `NCPU` on are never started. -/
theorem inv_lt (hb : b < n) (hi : Inv n b s) (hst : (s.hart h).place ≠ .stopped) : h < n := by
  by_cases hne : h = b
  · omega
  · have hlim := hi.started h hne hst
    have hok := hi.boot
    generalize s.hart b = t at hok hlim
    rcases t with ⟨place, tp, satp, sp, inits⟩
    cases place with
    | startLoop k c => exact hlim.trans_le hok.2.1
    | hartStart k c v => exact hlim.trans hok.2.1
    | waitBooted k c v => exact hlim.trans_le hok.2.1
    | scrub | platformInit | scheduler => exact hlim
    | _ => exact absurd hlim (Nat.not_lt_zero h)

/-- **Every step that changes anything is one less.** -/
theorem step_descends (hb : b < n) (hi : Inv n b s) (hstep : Step n s s') :
    s' = s ∨ weight n s' < weight n s := by
  cases hstep with
  | exec h =>
    by_cases hidle : Idle s h
    · exact Or.inl (exec_of_idle hidle)
    · refine Or.inr (weight_lt (inv_lt hb hi fun hp => hidle ?_) (exec_rank hidle) fun k hk =>
        exec_hart_of_ne hk)
      unfold Idle
      rw [hp]
      trivial
  | accept h hartid c v tp hp hst =>
    obtain rfl := hi.caller hp
    have hboot := hi.boot
    unfold BootOk at hboot
    rw [hp] at hboot
    obtain ⟨-, hlt, hne, -⟩ := hboot
    -- the hart that is started, and the rest
    refine Or.inr ?_
    unfold weight
    rw [← Finset.add_sum_erase _ _ (Finset.mem_range.mpr hb), ← Finset.add_sum_erase _ _
        (Finset.mem_erase.mpr ⟨hne, Finset.mem_range.mpr hlt⟩),
      ← Finset.add_sum_erase _ (fun k => (s.hart k).place.rank n) (Finset.mem_range.mpr hb),
      ← Finset.add_sum_erase _ (fun k => (s.hart k).place.rank n)
        (Finset.mem_erase.mpr ⟨hne, Finset.mem_range.mpr hlt⟩), put_hart_self,
      put_hart_of_ne hne, put_hart_self, hp, hst]
    have hrest : ∀ k ∈ ((Finset.range n).erase h).erase hartid,
        (((s.put hartid ⟨.secondarycpuEntry c, tp, .bare, some .boot, []⟩).put h
          { s.hart h with place := .waitBooted hartid c v }).hart k).place.rank n =
          (s.hart k).place.rank n := fun k hk => by
      obtain ⟨hk1, hk⟩ := Finset.mem_erase.mp hk
      rw [put_hart_of_ne (Finset.mem_erase.mp hk).1, put_hart_of_ne hk1]
    rw [Finset.sum_congr rfl hrest]
    change 15 * (n - (hartid + 1)) + 14 + (12 + _) < 15 * (n - (hartid + 1)) + 27 + (0 + _)
    omega
  | refuse h hartid c v hp =>
    obtain rfl := hi.caller hp
    refine Or.inr (weight_lt hb ?_ fun k hk => put_hart_of_ne hk)
    rw [put_hart_self, hp]
    change 15 * (n - (hartid + 1)) + 13 < 15 * (n - (hartid + 1)) + 27
    omega

/-- The boot hart and all harts that were started have left for `scheduler`. -/
def Done (b : ℕ) (s : Sys) : Prop :=
  (s.hart b).place = .scheduler ∧
    ∀ h, h ≠ b → (s.hart h).place = .stopped ∨ (s.hart h).place = .scheduler

/-- **Nobody waits forever**: where no step changes anything, the start is over. -/
theorem inv_done (hi : Inv n b s) (hstuck : ∀ s', Step n s s' → s' = s) : Done b s := by
  have hidle : ∀ h, Idle s h := fun h => by
    by_contra hne
    have hlt := exec_rank (n := n) hne
    rw [hstuck _ (.exec h)] at hlt
    exact lt_irrefl _ hlt
  have hbi := hidle b
  have hok := hi.boot
  have hb : (s.hart b).place = .scheduler := by
    generalize ht : s.hart b = t at hok
    unfold Idle at hbi
    rw [ht] at hbi
    rcases t with ⟨place, tp, satp, sp, inits⟩
    cases place with
    | scheduler => rfl
    | hartStart hartid c v =>
      have hs := hstuck _ (.refuse b hartid c v (by rw [ht]))
      have hp : ((s.put b { s.hart b with place := .startLoop (hartid + 1) c }).hart b).place =
          .hartStart hartid c v := by rw [hs, ht]
      rw [put_hart_self] at hp
      cases hp
    | waitBooted hartid c v =>
      -- the hart that it waits for can go on
      obtain ⟨-, -, -, hcv, -, hw⟩ := hok
      have hv : s.bootedCount = v := hbi
      have hf : (s.hart hartid).place.inFlight = true := (hw.resolve_right fun hc => by omega).1
      have hi' := hidle hartid
      unfold Idle at hi'
      generalize (s.hart hartid).place = p at hf hi'
      cases p <;> first | exact False.elim hi' | cases hf
    | _ => first | exact False.elim hok | exact False.elim hbi
  refine ⟨hb, fun h hne => ?_⟩
  unfold BootOk at hok
  rw [hb] at hok
  obtain ⟨-, -, -, -, hhalt⟩ := hok
  have hok := hi.other h hne
  have hi' := hidle h
  unfold Idle at hi'
  unfold OtherOk at hok
  generalize s.hart h = t at hok hi' ⊢
  rcases t with ⟨place, tp, satp, sp, inits⟩
  cases place with
  | stopped => exact Or.inl rfl
  | scheduler => exact Or.inr rfl
  | waitInit => exact absurd (hhalt.symm.trans hi') (by decide)
  | _ => first | exact False.elim hok | exact False.elim hi'

/-- A step that changes something. -/
def Move (n : ℕ) (s : Sys) (_ : Unit) (s' : Sys) : Prop := Step n s s' ∧ s' ≠ s

/-- **The start completes**, if the boot hart is one of those that the loop goes over: it is at most
`15 * NCPU + 17` steps that change anything, in any order, and if none is left the boot hart and all that
the firmware has started are in `scheduler`. -/
theorem start_completes (hb : b < n) {s₀ : Sys} (h₀ : Entered b s₀) {l : List Unit}
    (hrun : Run (Move n) s₀ l s) :
    l.length ≤ 15 * n + 17 ∧ ((∀ s', ¬ Move n s () s') → Done b s) := by
  have hstart : weight n s₀ = 15 * n + 17 := by
    unfold weight
    rw [Finset.sum_eq_single_of_mem b (Finset.mem_range.mpr hb) fun k _ hk => by
      rw [(h₀.others k hk).1]; rfl, h₀.boot.1]
    rfl
  have hall : Inv n b s ∧ l.length + weight n s ≤ 15 * n + 17 := by
    induction hrun with
    | refl => exact ⟨entered_inv h₀, by rw [hstart]; exact (Nat.zero_add _).le⟩
    | tail _ hstep ih =>
      obtain ⟨hi, hle⟩ := ih
      have hlt := (step_descends hb hi hstep.1).resolve_left hstep.2
      refine ⟨step_inv hb hi hstep.1, ?_⟩
      rw [List.length_append, List.length_singleton]
      omega
  refine ⟨by omega, fun hno => inv_done hall.1 fun s' hstep => ?_⟩
  by_contra hne
  exact hno s' ⟨hstep, hne⟩

/-! Two harts. Hart 1 boots and starts hart 0, and both go on to `scheduler`. -/

theorem move_exec (hne : ¬ Idle s h) : Move n s () (exec n h s) := by
  refine ⟨.exec h, fun he => ?_⟩
  have hlt := exec_rank (n := n) hne
  rw [he] at hlt
  exact lt_irrefl _ hlt

/-- The harts of a list take their turns, a statement each. -/
def turns (n : ℕ) (s : Sys) (l : List ℕ) : Sys := l.foldl (fun s h => exec n h s) s

/-- None of them is idle at its turn. -/
def Busy (n : ℕ) : Sys → List ℕ → Prop
  | _, [] => True
  | s, h :: l => ¬ Idle s h ∧ Busy n (exec n h s) l

theorem run_turns {s₀ : Sys} {w : List Unit} {l : List ℕ} (hrun : Run (Move n) s₀ w s)
    (hl : Busy n s l) : ∃ w', w'.length = w.length + l.length ∧ Run (Move n) s₀ w' (turns n s l) := by
  induction l generalizing w s with
  | nil => exact ⟨w, rfl, hrun⟩
  | cons h l ih =>
    obtain ⟨w', hw, hrun'⟩ := ih (hrun.tail (move_exec hl.1)) hl.2
    refine ⟨w', ?_, hrun'⟩
    rw [List.length_append, List.length_singleton] at hw
    rw [List.length_cons]
    omega

theorem turns_hart_of_notMem {l : List ℕ} (hl : h ∉ l) : (turns n s l).hart h = s.hart h := by
  induction l generalizing s with
  | nil => rfl
  | cons h' l ih =>
    rw [List.mem_cons, not_or] at hl
    exact (ih hl.2).trans (exec_hart_of_ne hl.1)

def callsFirmware : Sys := turns 2 (atEntry 1) [1, 1, 1, 1, 1]

def hartStarted : Sys :=
  (callsFirmware.put 0 ⟨.secondarycpuEntry 1, 3, .bare, some .boot, []⟩).put 1
    { callsFirmware.hart 1 with place := .waitBooted 0 1 0 }

/-- Hart 0 comes online, hart 1 initializes the platform, and hart 0 goes on. -/
def bothOnline : Sys := turns 2 hartStarted
  [0, 0, 0, 0, 0, 0, 0, 1, 1, 1, 1, 1, 1, 1, 1, 1, 1, 1, 1, 1, 1, 1, 0, 0, 0, 0, 0]

theorem bothOnline_place (h : ℕ) :
    (bothOnline.hart h).place = .scheduler ∨ (bothOnline.hart h).place = .stopped := by
  match h with
  | 0 => exact Or.inl rfl
  | 1 => exact Or.inl rfl
  | h + 2 =>
    refine Or.inr ?_
    unfold bothOnline
    rw [turns_hart_of_notMem (by simp)]
    rfl

theorem bothOnline_stuck (s' : Sys) : ¬ Move 2 bothOnline () s' := by
  rintro ⟨hstep, hne⟩
  have hno : ∀ h hartid c v, (bothOnline.hart h).place ≠ .hartStart hartid c v := by
    intro h hartid c v hp
    rcases bothOnline_place h with hs | hs
    · cases hs.symm.trans hp
    · cases hs.symm.trans hp
  cases hstep with
  | exec h =>
    refine hne (exec_of_idle ?_)
    unfold Idle
    rcases bothOnline_place h with hs | hs
    · rw [hs]; trivial
    · rw [hs]; trivial
  | accept h hartid c v tp hp => exact hno h hartid c v hp
  | refuse h hartid c v hp => exact hno h hartid c v hp

theorem start_completes_entry :
    ∃ l : List Unit, Run (Move 2) (atEntry 1) l bothOnline ∧ l.length = 33 ∧ 33 ≤ 15 * 2 + 17 ∧
      Done 1 bothOnline := by
  obtain ⟨w, hw, hrun⟩ := run_turns (n := 2) (l := [1, 1, 1, 1, 1]) (Run.refl (s := atEntry 1))
    ⟨id, id, id, id, id, trivial⟩
  have hcall : (callsFirmware.hart 1).place = .hartStart 0 1 0 := rfl
  have hrun' : Run (Move 2) (atEntry 1) (w ++ [()]) hartStarted := by
    refine hrun.tail ⟨.accept 1 0 1 0 3 hcall rfl, fun he => ?_⟩
    have hp := congrArg (fun s : Sys => (s.hart 0).place) he
    cases hp
  obtain ⟨w', hw', hrun''⟩ := run_turns hrun' (l :=
      [0, 0, 0, 0, 0, 0, 0, 1, 1, 1, 1, 1, 1, 1, 1, 1, 1, 1, 1, 1, 1, 1, 0, 0, 0, 0, 0])
    ⟨id, id, id, id, id, id, id, Nat.one_ne_zero, id, id, id, id, id, id, id, id, id, id, id, id, id, id,
      (nomatch ·), id, id, id, id, trivial⟩
  have hlen : w'.length = 33 := by
    rw [hw', List.length_append, hw]
    rfl
  have h := start_completes (by decide) (entered_atEntry 1) hrun''
  exact ⟨w', hrun'', hlen, hlen ▸ h.1, h.2 bothOnline_stuck⟩

end UCore.Smp.Online

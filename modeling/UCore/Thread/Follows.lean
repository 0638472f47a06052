import UCore.Thread.Rules

/-! # Kernel threads: the code follows the rules

One lemma for each function, with the context in which it is called and the one in which it returns.
What only prints, or takes locks under which none is taken, leaves the context as it is (`Quiet`). -/

namespace UCore.Thread.Follows

open UCore.Proc.State UCore.Thread.Code UCore.Thread.Rules

variable {n : ℕ} {Γ : Ctx n} {K : Ctx n → Prop} {p q : Fin (n + 1)} {b : Bool}

/-! ### Locks -/

theorem safe_acquire {l : Lock n} (hl : MayWait Γ l) (hK : K { Γ with held := l :: Γ.held }) :
    safeAll (acquire l) Γ K := ⟨hl.1, hl, Nat.succ_pos _, hK⟩

theorem safe_release {l : Lock n} (hl : MayUnlock Γ l) (ht : Γ.trapped = true → Γ.intr = false)
    (hK : K (Γ.unlocked l)) : safeAll (release l) Γ K := by
  refine ⟨hl, Nat.succ_pos _, ?_, ?_⟩
  · cases l <;> exact ht
  · cases l <;> exact hK

/-- A handler leaves interrupts off. -/
def Calm (Γ : Ctx n) : Prop := Γ.trapped = true → Γ.intr = false

/-- The list only prints. -/
def Prints (a : List (Stmt n)) : Prop := ∀ Γ : Ctx n, Calm Γ → safeAll a Γ fun Γ' => Γ' = Γ

/-- The list prints, and takes locks under which none is taken. -/
def Quiet (a : List (Stmt n)) : Prop :=
  ∀ Γ : Ctx n, Calm Γ → (∀ x ∈ Γ.held, ¬ Leaf x) → safeAll a Γ fun Γ' => Γ' = Γ

theorem Prints.quiet {a : List (Stmt n)} (h : Prints a) : Quiet a := fun Γ hc _ => h Γ hc

theorem Prints.safe {a : List (Stmt n)} (h : Prints a) (hc : Calm Γ) (hK : K Γ) : safeAll a Γ K :=
  safeAll_mono (fun _ h' => by rwa [h']) a Γ (h Γ hc)

theorem Quiet.safe {a : List (Stmt n)} (h : Quiet a) (hc : Calm Γ) (hl : ∀ x ∈ Γ.held, ¬ Leaf x)
    (hK : K Γ) : safeAll a Γ K := safeAll_mono (fun _ h' => by rwa [h']) a Γ (h Γ hc hl)

/-- `intr = intr_off(); if (intr) intr_on();`. -/
theorem restored_off (Γ : Ctx n) : Γ.off.restored Γ.cur = Γ := by
  unfold Ctx.off Ctx.restored Ctx.cur
  by_cases h : Γ.depth = 0
  · rw [if_pos h, if_pos h]
    cases hi : Γ.intr with
    | true => rw [if_pos rfl, ← hi]
    | false =>
      rw [if_neg Bool.false_ne_true]
      cases Γ
      cases hi
      rfl
  · rw [if_neg h, if_neg h, if_neg Bool.false_ne_true]

theorem depth_off (Γ : Ctx n) : Γ.off.depth = Γ.depth := by
  unfold Ctx.off
  split_ifs <;> rfl

theorem trapped_off (Γ : Ctx n) : Γ.off.trapped = Γ.trapped := by
  unfold Ctx.off
  split_ifs <;> rfl

@[simp] theorem prints_nil : Prints ([] : List (Stmt n)) := fun _ _ => rfl

@[simp] theorem prints_either {a c : List (Stmt n)} : Prints [.either a c] ↔ Prints a ∧ Prints c :=
  ⟨fun h => ⟨fun Γ hc => (h Γ hc).1, fun Γ hc => (h Γ hc).2⟩,
    fun h Γ hc => ⟨h.1 Γ hc, h.2 Γ hc⟩⟩

@[simp] theorem prints_loop {a : List (Stmt n)} : Prints [.loop a] ↔ Prints a :=
  ⟨fun h Γ hc => (h Γ hc).1, fun h Γ hc => ⟨h Γ hc, rfl⟩⟩

theorem Prints.masked {a : List (Stmt n)} (h : Prints a) : Prints [.masked a] := fun Γ hc => by
  have hoff : Calm Γ.off := fun ht => by
    rw [trapped_off] at ht
    unfold Ctx.off
    split_ifs
    · rfl
    · exact hc ht
  refine safeAll_mono (fun Γ' h' => ?_) a Γ.off (h Γ.off hoff)
  rw [h', depth_off, trapped_off, restored_off]
  refine ⟨fun hcur => ?_, rfl⟩
  unfold Ctx.cur at hcur
  split_ifs at hcur with hd
  refine ⟨hd, Bool.eq_false_iff.mpr fun ht => ?_⟩
  rw [hc ht] at hcur
  cases hcur

@[simp] theorem prints_uartPutchar : Prints (uartPutchar : List (Stmt n)) := prints_nil.masked

@[simp] theorem prints_printf : Prints (printf : List (Stmt n)) :=
  (prints_loop.mpr prints_uartPutchar).masked

@[simp] theorem prints_walkaddr : Prints (walkaddr : List (Stmt n)) := by simp [walkaddr]
@[simp] theorem prints_copyToUser : Prints (copyToUser : List (Stmt n)) := by simp [copyToUser]
@[simp] theorem prints_copyFromUser : Prints (copyFromUser : List (Stmt n)) := by simp [copyFromUser]
@[simp] theorem prints_copystrFromUser : Prints (copystrFromUser : List (Stmt n)) := by
  simp [copystrFromUser]

/-! ### The allocators -/

@[simp] theorem quiet_nil : Quiet ([] : List (Stmt n)) := prints_nil.quiet

@[simp] theorem quiet_printf : Quiet (printf : List (Stmt n)) := prints_printf.quiet
@[simp] theorem quiet_walkaddr : Quiet (walkaddr : List (Stmt n)) := prints_walkaddr.quiet

@[simp] theorem quiet_either {a c : List (Stmt n)} : Quiet [.either a c] ↔ Quiet a ∧ Quiet c :=
  ⟨fun h => ⟨fun Γ hc hl => (h Γ hc hl).1, fun Γ hc hl => (h Γ hc hl).2⟩,
    fun h Γ hc hl => ⟨h.1 Γ hc hl, h.2 Γ hc hl⟩⟩

@[simp] theorem quiet_loop {a : List (Stmt n)} : Quiet [.loop a] ↔ Quiet a :=
  ⟨fun h Γ hc hl => (h Γ hc hl).1, fun h Γ hc hl => ⟨h Γ hc hl, rfl⟩⟩

theorem Quiet.append {a c : List (Stmt n)} (ha : Quiet a) (hc : Quiet c) : Quiet (a ++ c) :=
  fun Γ hcalm hl => (ha Γ hcalm hl).append fun _ h => h ▸ hc Γ hcalm hl

theorem Quiet.cons {x : Stmt n} {a : List (Stmt n)} (hx : Quiet [x]) (ha : Quiet a) :
    Quiet (x :: a) := hx.append ha

/-- A section of a lock under which none is taken. -/
theorem quiet_section {l : Lock n} (hl : ∀ Γ : Ctx n, l ∉ Γ.held → (∀ x ∈ Γ.held, ¬ Leaf x) →
    MayWait Γ l) (hleaf : Leaf l) : Quiet (acquire l ++ release l) := fun Γ hc hno => by
  have hnot : l ∉ Γ.held := fun hm => hno l hm hleaf
  rw [safeAll_append]
  refine safe_acquire (hl Γ hnot hno) (safe_release ⟨List.mem_cons_self, fun q hq => ?_⟩ hc ?_)
  · subst hq
    exact hleaf.elim
  · cases l with
    | proc q => exact hleaf.elim
    | _ => simp [Ctx.unlocked]

@[simp] theorem quiet_kallocpage : Quiet (kallocpage : List (Stmt n)) :=
  quiet_section (fun _ h hl => ⟨h, hl, trivial⟩) trivial

@[simp] theorem quiet_kfreepage : Quiet (kfreepage : List (Stmt n)) := quiet_kallocpage

@[simp] theorem quiet_kalloc (a : Allocator) : Quiet (kalloc a : List (Stmt n)) :=
  quiet_section (fun _ h hl => ⟨h, hl, trivial⟩) trivial

@[simp] theorem quiet_kfree (a : Allocator) : Quiet (kfree a : List (Stmt n)) := quiet_kalloc a

@[simp] theorem quiet_allocpid : Quiet (allocpid : List (Stmt n)) :=
  quiet_section (fun _ h hl => ⟨h, hl, trivial⟩) trivial

@[simp] theorem quiet_walk : Quiet (walk : List (Stmt n)) := by simp [walk]

@[simp] theorem quiet_mmCreateVma : Quiet (mmCreateVma : List (Stmt n)) := quiet_kalloc _

@[simp] theorem quiet_freevma (f : Bool) : Quiet (freevma f : List (Stmt n)) := by
  cases f <;> simp [freevma]

@[simp] theorem quiet_mmFreePages : Quiet (mmFreePages : List (Stmt n)) :=
  quiet_loop.mpr ((quiet_freevma _).append (quiet_kfree _))

@[simp] theorem quiet_mmFree : Quiet (mmFree : List (Stmt n)) :=
  (quiet_mmFreePages.append quiet_kfreepage).append (by simp)

@[simp] theorem quiet_mmMappages : Quiet (mmMappages : List (Stmt n)) :=
  (quiet_loop.mpr (quiet_walk.append quiet_kallocpage)).cons
    (quiet_either.mpr ⟨quiet_nil, (quiet_walk.append (by simp)).append quiet_printf⟩)

@[simp] theorem quiet_mmMappagesat : Quiet (mmMappagesat : List (Stmt n)) :=
  ((quiet_kalloc _).append quiet_walk).append (by simp)

@[simp] theorem quiet_mmCopy : Quiet (mmCopy : List (Stmt n)) := by
  refine Quiet.cons (quiet_loop.mpr ?_) (quiet_either.mpr ⟨quiet_nil, ?_⟩)
  · exact (quiet_mmCreateVma.append quiet_mmMappages).append
      (quiet_loop.mpr (quiet_walkaddr.append quiet_walkaddr))
  · exact ((quiet_mmCreateVma.append quiet_mmMappages).append quiet_printf).append quiet_mmFreePages

/-! ### Sections of process locks -/

/-- The process `p`, with locks. -/
abbrev inProc (p : Fin (n + 1)) (b : Bool) (held : List (Lock n)) : Ctx n :=
  { ofProc p b with held }

/-- Another process than that of the thread. -/
theorem not_mine (ht : Γ.thread = some p) (hp : Γ.popped = none) (hq : q ≠ p) : ¬ Γ.Mine q := by
  rintro ⟨-, h | h⟩
  · exact hq (Option.some.inj (h.symm.trans ht))
  · exact absurd (h.symm.trans hp) nofun

/-- `wait_lock` and `cons.lock`. -/
def First (l : Lock n) : Prop := l = .wait ∨ l = .cons

theorem not_leaf_of_first {l : Lock n} (h : First l) : ¬ Leaf l := by
  rcases h with rfl | rfl <;> exact id

theorem ne_proc_of_first {l : Lock n} (h : First l) (q : Fin (n + 1)) : l ≠ .proc q := by
  rcases h with rfl | rfl <;> exact nofun

/-- The lock of a process comes after the first ones. -/
theorem mayWait_proc (h : ∀ x ∈ Γ.held, First x) (q : Fin (n + 1)) : MayWait Γ (.proc q) :=
  ⟨fun hm => ne_proc_of_first (h _ hm) q rfl, fun x hx => not_leaf_of_first (h x hx), Or.inl h⟩

theorem mayWait_proc_nil (h : Γ.held = []) (q : Fin (n + 1)) : MayWait Γ (.proc q) :=
  mayWait_proc (by simp [h]) q

/-- The first locks come first. -/
theorem mayWait_first {l : Lock n} (hl : First l) (h : Γ.held = []) : MayWait Γ l := by
  refine ⟨by rw [h]; exact List.not_mem_nil, by simp [h], ?_⟩
  rcases hl with rfl | rfl <;> exact h

/-- The lock of the run queue comes last. -/
theorem mayWait_queue (hl : ∀ x ∈ Γ.held, ¬ Leaf x) : MayWait Γ .queue :=
  ⟨fun hm => hl _ hm trivial, hl, trivial⟩

/-- A lock that is not that of a process. -/
theorem safe_release_other {l : Lock n} (hm : l ∈ Γ.held) (hl : ∀ q, l ≠ .proc q) (hc : Calm Γ)
    (hK : K { Γ with held := Γ.held.erase l }) : safeAll (release l) Γ K := by
  refine safe_release ⟨hm, fun q hq => absurd hq (hl q)⟩ hc ?_
  cases l with
  | proc q => exact absurd rfl (hl q)
  | _ => exact hK

/-- What is known of `q` is forgotten with its lock. -/
theorem forget {know : Option (Fin (n + 1) × ProcState)}
    (h : know = none ∨ ∃ st, know = some (q, st)) : know.filter (fun x => x.1 ≠ q) = none := by
  rcases h with rfl | ⟨st, rfl⟩
  · rfl
  · simp

/-- The lock of another process. -/
theorem safe_release_proc (hm : .proc q ∈ Γ.held) (hq : ¬ Γ.Mine q) (ht : Γ.tok ≠ some q)
    (hmade : Γ.know = some (q, .used) → Γ.made = false) (hc : Calm Γ) (hK : K { Γ with
      held := Γ.held.erase (.proc q), know := Γ.know.filter fun x => x.1 ≠ q }) :
    safeAll (release (.proc q)) Γ K := by
  refine safe_release ⟨hm, fun r hr => ?_⟩ hc ?_
  · cases hr
    exact ⟨ht, hmade, fun hs => absurd ⟨hs.1, Or.inl hs.2⟩ hq, fun h1 h2 => absurd ⟨h1, Or.inr h2⟩ hq⟩
  · have hp : (if Γ.trapped then Γ.popped else Γ.popped.filter fun x => x ≠ q) = Γ.popped := by
      split_ifs with h1
      · rfl
      · cases hpop : Γ.popped with
        | none => rfl
        | some r =>
          have hrq : r ≠ q := fun hrq =>
            hq ⟨Bool.eq_false_iff.mpr h1, Or.inr (by rw [hpop, hrq])⟩
          simp [hrq]
    rw [Ctx.unlocked_proc, hp]
    exact hK

/-- `add_task`, with what the rule for the push says. -/
theorem safe_addTask (hl : ∀ x ∈ Γ.held, ¬ Leaf x) {Γ' : Ctx n} (hK : K Γ')
    (hpush : safe (.pushQueue q) { Γ with held := .queue :: Γ.held }
      fun Δ => Δ = { Γ' with held := .queue :: Γ'.held } ∧ Calm Γ') :
    safeAll (addTask q) Γ K := by
  unfold addTask
  rw [safeAll_append, safeAll_append]
  refine safe_acquire (mayWait_queue hl) (safe_mono ?_ _ _ hpush)
  rintro _ ⟨rfl, hc'⟩
  refine safe_release_other List.mem_cons_self (fun _ => nofun) hc' ?_
  dsimp only
  rwa [List.erase_cons_head]

/-- Of a process that has been woken or made. -/
theorem safe_addTask_tok (hk : Γ.know = some (q, .runnable)) (ht : Γ.tok = some q) (hc : Calm Γ)
    (hl : ∀ x ∈ Γ.held, ¬ Leaf x) (hK : K { Γ with tok := none }) : safeAll (addTask q) Γ K :=
  safe_addTask hl hK ⟨hk, Or.inl ⟨ht, rfl, hc⟩⟩

/-- **`wakeup`**, in any thread that has no process to push. -/
theorem safe_wakeup (Γ : Ctx n) (hc : Calm Γ) (hl : ∀ x ∈ Γ.held, First x) (hk : Γ.know = none)
    (ht : Γ.tok = none) (hp : Γ.trapped = true ∨ Γ.popped = none) :
    ∀ l : List (Fin (n + 1)), safeAll (wakeup l) Γ fun Γ' => Γ' = Γ
  | [] => rfl
  | q :: l => by
    have hno : ∀ x ∈ Lock.proc q :: Γ.held, ¬ Leaf x := fun x hx => by
      rcases List.mem_cons.mp hx with rfl | hx
      · exact id
      · exact not_leaf_of_first (hl x hx)
    -- whether it has found `q` asleep or not, it gives the lock back
    have hend : ∀ know : Option (Fin (n + 1) × ProcState),
        know = none ∨ (∃ st, know = some (q, st) ∧ st ≠ .used) ∧ ¬ Γ.Mine q →
        safeAll (release (.proc q) ++ wakeup l) { Γ with held := .proc q :: Γ.held, know }
          fun Γ' => Γ' = Γ := fun know hknow => by
      rw [safeAll_append]
      have hrest := safe_wakeup Γ hc hl hk ht hp l
      have hfilter : know.filter (fun x => x.1 ≠ q) = Γ.know :=
        (forget (hknow.imp_right fun h => h.1.imp fun _ => And.left)).trans hk.symm
      refine safe_release ⟨List.mem_cons_self, fun r hr => ?_⟩ hc ?_
      · cases hr
        refine ⟨by simp [ht], fun hu => ?_, fun hs st hst => ?_, fun h1 h2 => ?_⟩
        · rcases hknow with rfl | ⟨⟨st, rfl, hst⟩, -⟩
          · cases hu
          · cases hu
            exact absurd rfl hst
        · rcases hknow with rfl | ⟨-, hm⟩
          · cases hst
          · exact absurd ⟨hs.1, Or.inl hs.2⟩ hm
        · rcases hp with hp | hp
          · exact absurd (hp.symm.trans h1) nofun
          · exact absurd (hp.symm.trans h2) nofun
      · have hpop : (if Γ.trapped then Γ.popped else Γ.popped.filter fun x => x ≠ q) = Γ.popped := by
          rcases hp with hp | hp
          · rw [if_pos hp]
          · rw [hp]
            split_ifs <;> rfl
        rw [Ctx.unlocked_proc]
        dsimp only
        rw [List.erase_cons_head, hfilter, hpop]
        exact hrest
    unfold wakeup
    rw [List.append_assoc, List.append_assoc, safeAll_append]
    refine safe_acquire (mayWait_proc hl q) ?_
    change safe (.ifState q .sleeping _ _) _ _
    refine ⟨List.mem_cons_self, fun _ hact => ?_, fun _ => ?_⟩
    · have hmine : ¬ Γ.Mine q := fun hm => by
        rcases hact hm hk with h | h <;> cases h
      have hlearn : Ctx.learnt { Γ with held := .proc q :: Γ.held } q .sleeping =
          { Γ with held := .proc q :: Γ.held, know := some (q, .sleeping) } :=
        if_pos ⟨hk, hmine⟩
      rw [hlearn]
      refine ⟨hend _ (Or.inr ⟨⟨_, rfl, nofun⟩, hmine⟩), ?_⟩
      rw [safeAll_append]
      refine ⟨List.mem_cons_self, _, .wake rfl hmine ht, ?_⟩
      refine safe_addTask_tok rfl rfl hc hno ?_
      have hw := hend _ (Or.inr ⟨⟨.runnable, rfl, nofun⟩, hmine⟩)
      rw [ht] at hw
      exact hw
    · have hw := hend none (Or.inl rfl)
      rw [← hk] at hw
      exact hw

/-! ### Switching -/

/-- The own lock. -/
theorem safe_release_own (held : List (Lock n)) (hm : .proc p ∈ held)
    (hK : K (inProc p b (held.erase (.proc p)))) :
    ∀ know : Option (Fin (n + 1) × ProcState), know = none ∨ know = some (p, .runnable) →
      safeAll (release (.proc p)) { inProc p b held with know } K := fun know hknow => by
  refine safe_release ⟨hm, fun r hr => ?_⟩ nofun ?_
  · cases hr
    refine ⟨nofun, fun _ => rfl, fun _ st hst => ?_, nofun⟩
    rcases hknow with rfl | rfl
    · cases hst
    · cases hst
      exact Or.inr rfl
  · rw [Ctx.unlocked_proc]
    dsimp only
    rw [forget (hknow.imp_right fun h => ⟨_, h⟩)]
    exact hK

theorem safe_release_self (hK : K (ofProc p b)) :
    ∀ know : Option (Fin (n + 1) × ProcState), know = none ∨ know = some (p, .runnable) →
      safeAll (release (.proc p)) { inProc p b [.proc p] with know } K :=
  safe_release_own [.proc p] List.mem_cons_self (by rwa [List.erase_cons_head])

/-- `sched`, with the lock and a new state of the process. -/
theorem safe_sched {st : ProcState} (hst : Left st) (hK : K (resumed p b)) :
    safeAll (sched p) { inProc p b [.proc p] with know := some (p, st) } K :=
  ⟨⟨b, st, hst, rfl⟩, rfl, hK⟩

/-- The own state. -/
theorem safe_setState {held : List (Lock n)} {st : ProcState} (hm : .proc p ∈ held) (hst : Left st)
    (hK : K { inProc p b held with know := some (p, st) }) :
    safeAll [.setState p st] (inProc p b held) K :=
  ⟨hm, _, .own ⟨rfl, rfl⟩ hst rfl rfl (Or.inl rfl), hK⟩

theorem safe_frame {a : List (Stmt n)} (h : safeAll a Γ fun Γ' => Γ'.cur = Γ.cur ∧ K Γ') :
    safeAll [.frame a] Γ K := h

theorem safe_yield (hK : K (ofProc p b)) : safeAll (yield p) (ofProc p b) K := by
  refine safe_frame ?_
  simp only [safeAll_append]
  refine safe_acquire (mayWait_proc_nil rfl p) ?_
  refine safe_setState List.mem_cons_self (Or.inl rfl) ?_
  refine safe_sched (Or.inl rfl) ?_
  exact safe_release_self ⟨rfl, hK⟩ none (Or.inl rfl)

/-- **`sleep`** returns with the caller's lock, and nothing else. -/
theorem safe_sleep {lk : Lock n} (hlk : First lk) (hK : K (inProc p b [lk])) :
    safeAll (sleep p lk) (inProc p b [lk]) K := by
  have hne := ne_proc_of_first hlk p
  unfold sleep
  simp only [safeAll_append]
  refine safe_acquire (mayWait_proc (by simpa using hlk) p) ?_
  refine safe_release_other (by simp) (ne_proc_of_first hlk) nofun ?_
  have herase : [Lock.proc p, lk].erase lk = [.proc p] := by simp [hne.symm]
  dsimp only
  rw [herase]
  refine safe_setState List.mem_cons_self (Or.inr (Or.inl rfl)) ?_
  refine safe_sched (Or.inr (Or.inl rfl)) ?_
  refine safe_release_self ?_ none (Or.inl rfl)
  exact safe_acquire (mayWait_first hlk rfl) hK

/-! ### `proc.c` -/

/-- **`allocproc`** from `found` on: the slot is made, and its lock stays. -/
theorem safe_found (hq : q ≠ p)
    (hK : K { inProc p b [.proc q] with know := some (q, .used), made := true }) :
    safeAll (found q) { inProc p b [.proc q] with know := some (q, .unused) } K := by
  have hl : ∀ x ∈ [Lock.proc q], ¬ Leaf x := by simp [Leaf]
  unfold found mmCreate
  simp only [safeAll_append]
  refine quiet_allocpid.safe nofun hl ?_
  refine ⟨List.mem_cons_self, _, .claim rfl (not_mine rfl rfl hq) rfl, ?_⟩
  refine (quiet_kalloc _).safe nofun hl ⟨⟨q, rfl, rfl, not_mine rfl rfl hq⟩, ?_⟩
  refine quiet_kallocpage.safe nofun hl ?_
  refine (quiet_either.mpr ⟨quiet_nil, quiet_kfree _⟩).safe nofun hl ?_
  refine quiet_mmMappagesat.safe nofun hl ?_
  refine quiet_kallocpage.safe nofun hl ?_
  refine quiet_mmMappagesat.safe nofun hl ?_
  exact ⟨rfl, not_mine rfl rfl hq, List.mem_cons_self, hK⟩

/-- The part of `fork` behind `allocproc`: the child is made public, and both locks are given back. -/
theorem safe_forkRest (hq : q ≠ p) (hK : K (ofProc p b)) :
    safeAll (acquire (.proc p) ++ mmCopy ++ [.setState q .runnable] ++ addTask q ++
      release (.proc q) ++ release (.proc p))
      { inProc p b [.proc q] with know := some (q, .used), made := true } K := by
  have hl : ∀ x ∈ [Lock.proc p, .proc q], ¬ Leaf x := by simp [Leaf]
  simp only [safeAll_append]
  refine safe_acquire ⟨by simp [hq.symm], by simp [Leaf], Or.inr (Or.inl ⟨q, ⟨rfl, rfl⟩,
    not_mine rfl rfl hq, rfl, rfl⟩)⟩ ?_
  refine quiet_mmCopy.safe nofun hl ?_
  refine ⟨by simp, _, .publish rfl rfl (not_mine rfl rfl hq) rfl, ?_⟩
  refine safe_addTask_tok rfl rfl nofun hl ?_
  refine safe_release_proc (by simp) (not_mine rfl rfl hq) nofun (fun _ => rfl) nofun ?_
  have herase : [Lock.proc p, .proc q].erase (.proc q) = [.proc p] := by simp [hq.symm]
  dsimp only
  rw [herase, forget (Or.inr ⟨_, rfl⟩)]
  exact safe_release_self hK none (Or.inl rfl)

/-- A test on another process. -/
theorem learnt_other {held : List (Lock n)} {st : ProcState} (hq : q ≠ p) :
    (inProc p b held).learnt q st = { inProc p b held with know := some (q, st) } :=
  if_pos ⟨rfl, not_mine rfl rfl hq⟩

/-- The lock of a slot that was looked at. -/
theorem safe_release_slot {held : List (Lock n)} (hq : q ≠ p) (hK : K (inProc p b held)) :
    ∀ know : Option (Fin (n + 1) × ProcState), know = none ∨ (∃ st, know = some (q, st)) →
      safeAll (release (.proc q)) { inProc p b (.proc q :: held) with know } K := fun know hknow => by
  refine safe_release_proc List.mem_cons_self (not_mine rfl rfl hq) nofun (fun _ => rfl) nofun ?_
  dsimp only
  rw [List.erase_cons_head, forget hknow]
  exact hK

theorem safe_allocproc {k : Fin (n + 1) → List (Stmt n)} (hk : ∀ q, q ≠ p →
    safeAll (k q) { inProc p b [.proc q] with know := some (q, .used), made := true } K) :
    ∀ l : List (Fin (n + 1)), safeAll (allocproc k l) (ofProc p b) K
  | [] => trivial
  | q :: l => by
    unfold allocproc
    rw [safeAll_append]
    refine safe_acquire (mayWait_proc_nil rfl q) ⟨List.mem_cons_self, fun _ hact => ?_, fun _ => ?_⟩
    · have hq : q ≠ p := by
        rintro rfl
        rcases hact ⟨rfl, Or.inl rfl⟩ rfl with h | h <;> cases h
      change safeAll _ ((inProc p b [.proc q]).learnt q .unused) _
      rw [learnt_other hq, safeAll_append]
      exact safe_found hq (hk q hq)
    · rw [safeAll_append]
      have hrest := safe_allocproc hk l
      by_cases hq : q = p
      · subst hq
        exact safe_release_self hrest none (Or.inl rfl)
      · exact safe_release_slot hq hrest none (Or.inl rfl)

theorem safe_fork (hK : K (ofProc p b)) : safeAll (fork p) (ofProc p b) K :=
  safe_allocproc (fun _ hq => safe_forkRest hq hK) pool

theorem safe_exec (hK : K (ofProc p b)) : safeAll (exec p) (ofProc p b) K := by
  have hl : ∀ x ∈ [Lock.proc p], ¬ Leaf x := by simp [Leaf]
  have hload : Quiet [(.loop (mmCreateVma ++ mmMappages ++ [.loop walkaddr, .loop walkaddr]) :
      Stmt n)] :=
    quiet_loop.mpr ((quiet_mmCreateVma.append quiet_mmMappages).append
      (Quiet.cons (by simp) (by simp)))
  unfold exec loadUserElf
  simp only [safeAll_append]
  refine safe_acquire (mayWait_proc_nil rfl p) ?_
  refine quiet_mmFreePages.safe nofun hl ?_
  refine hload.safe nofun hl ?_
  refine quiet_mmCreateVma.safe nofun hl (quiet_mmMappages.safe nofun hl ?_)
  refine quiet_mmCreateVma.safe nofun hl (quiet_mmMappages.safe nofun hl ?_)
  refine (quiet_loop.mpr quiet_walkaddr).safe nofun hl ?_
  refine safe_setState List.mem_cons_self (Or.inl rfl) ?_
  exact safe_release_self hK _ (Or.inr rfl)

/-- The rest of a round of `wait`. -/
theorem safe_waitScan (hK : K (ofProc p b)) :
    ∀ l : List (Fin (n + 1)), safeAll (waitScan p l) (inProc p b [.wait]) K
  | [] => by
    refine ⟨safe_release_other List.mem_cons_self (fun _ => nofun) nofun hK, ?_⟩
    simp only [safeAll_append]
    refine prints_printf.safe nofun (safe_sleep (Or.inl rfl) ?_)
    exact ⟨⟨b, rfl⟩, fun Γ' h => by rw [show Γ' = _ from h]; exact hK⟩
  | q :: l => by
    have hrest := safe_waitScan hK l
    unfold waitScan
    split_ifs with hq
    · exact hrest
    rw [safeAll_append]
    refine safe_acquire (mayWait_proc (by simp [First]) q) ⟨⟨List.mem_cons_self, fun _ _ => ?_,
      fun _ => ?_⟩, ?_⟩
    · change safeAll _ ((inProc p b [.proc q, .wait]).learnt q .zombie) _
      rw [learnt_other hq]
      unfold freeproc
      simp only [safeAll_append]
      have hl : ∀ x ∈ [Lock.proc q, .wait], ¬ Leaf x := by simp [Leaf]
      refine ⟨List.mem_cons_self, List.mem_cons_self, _, .free rfl (not_mine rfl rfl hq) rfl, ?_⟩
      refine (quiet_freevma _).safe nofun hl ((quiet_freevma _).safe nofun hl ?_)
      refine quiet_mmFree.safe nofun hl ?_
      refine safe_release_slot hq ?_ _ (Or.inr ⟨_, rfl⟩)
      exact safe_release_other List.mem_cons_self (fun _ => nofun) nofun hK
    · rw [safeAll_append]
      exact safe_release_slot hq hrest none (Or.inl rfl)
    · rw [safeAll_append]
      exact safe_release_slot hq hrest none (Or.inl rfl)

theorem safe_wait (hK : K (ofProc p b)) : safeAll (wait p) (ofProc p b) K := by
  refine safe_frame ?_
  rw [safeAll_append]
  refine safe_acquire (mayWait_first (Or.inl rfl) rfl) ⟨⟨b, rfl⟩, fun Γ' h => ?_⟩
  rw [show Γ' = _ from h]
  exact ⟨rfl, hK⟩

theorem safe_reparent (p : Fin (n + 1)) (b : Bool) : ∀ l : List (Fin (n + 1)),
    safeAll (reparent p l) (inProc p b [.proc p, .wait]) fun Γ' => Γ' = inProc p b [.proc p, .wait]
  | [] => rfl
  | q :: l => by
    have hrest := safe_reparent p b l
    unfold reparent
    split_ifs with hq
    · exact hrest
    simp only [safeAll_append]
    refine safe_acquire ⟨by simp [hq], by simp [Leaf], Or.inr (Or.inr ⟨p, ⟨rfl, rfl⟩, rfl⟩)⟩ ?_
    exact safe_release_slot hq hrest none (Or.inl rfl)

/-- **`exit`** does not return. -/
theorem safe_exit : safeAll (exit p) (ofProc p b) K := by
  unfold exit
  simp only [safeAll_append]
  refine safe_acquire (mayWait_first (Or.inl rfl) rfl) ?_
  refine safeAll_mono ?_ _ _ (safe_wakeup (inProc p b [.wait]) nofun (by simp [First]) rfl rfl
    (Or.inr rfl) pool)
  rintro _ rfl
  refine safe_acquire (mayWait_proc (by simp [First]) p) ?_
  refine safeAll_mono ?_ _ _ (safe_reparent p b pool)
  rintro _ rfl
  refine safe_setState List.mem_cons_self (Or.inr (Or.inr rfl)) ?_
  refine safe_release_other (by simp) (fun _ => nofun) nofun ?_
  have herase : [Lock.proc p, .wait].erase .wait = [.proc p] := by simp
  dsimp only
  rw [herase]
  exact safe_sched (Or.inr (Or.inr rfl)) trivial

/-! ### Traps -/

/-- The own process lock, that of the `mm`, and a copy under the second one. -/
theorem safe_copy {a : List (Stmt n)} (ha : Prints a) (held : List (Lock n))
    (hl : ∀ x ∈ held, First x) (hK : K (inProc p b held)) :
    safeAll (acquire (.proc p) ++ acquire (.mm p) ++ release (.proc p) ++ a ++ release (.mm p))
      (inProc p b held) K := by
  have hno : ∀ x ∈ Lock.proc p :: held, ¬ Leaf x := by
    simpa [Leaf] using fun x hx => not_leaf_of_first (hl x hx)
  simp only [safeAll_append]
  refine safe_acquire (mayWait_proc hl p) ?_
  refine safe_acquire ⟨fun hm => hno _ hm trivial, hno, rfl, rfl⟩ ?_
  refine safe_release_own (.mm p :: .proc p :: held) (by simp) ?_ none (Or.inl rfl)
  have herase : (Lock.mm p :: .proc p :: held).erase (.proc p) = .mm p :: held := by simp
  rw [herase]
  refine ha.safe nofun ?_
  refine safe_release_other List.mem_cons_self (fun _ => nofun) nofun ?_
  dsimp only
  rwa [List.erase_cons_head]

theorem safe_userConsoleWrite (hK : K (ofProc p b)) :
    safeAll (userConsoleWrite p) (ofProc p b) K := by
  unfold userConsoleWrite
  rw [safeAll_append]
  exact safe_copy prints_copyFromUser [] (by simp)
    ((prints_loop.mpr prints_uartPutchar).safe nofun hK)

theorem safe_userConsoleRead (hK : K (ofProc p b)) :
    safeAll (userConsoleRead p) (ofProc p b) K := by
  refine safe_frame ?_
  simp only [safeAll_append]
  have hsleep : safeAll (sleep p .cons) (inProc p b [.cons]) fun Γ' => Γ' = inProc p b [.cons] :=
    safe_sleep (Or.inr rfl) rfl
  refine safe_acquire (mayWait_first (Or.inr rfl) rfl) ⟨⟨hsleep, ⟨rfl, ?_⟩⟩, ?_⟩
  · exact safe_copy prints_copyToUser [.cons] (by simp [First]) rfl
  · exact safe_release_other List.mem_cons_self (fun _ => nofun) nofun ⟨rfl, hK⟩

/-- **A device interrupt**, in any thread that holds nothing. -/
theorem safe_plicHandle (hc : Calm Γ) (hl : Γ.held = []) (hk : Γ.know = none) (ht : Γ.tok = none)
    (hp : Γ.trapped = true ∨ Γ.popped = none) (hK : K Γ) : safeAll plicHandle Γ K := by
  refine ⟨hK, ⟨?_, hK⟩⟩
  unfold consintr
  simp only [safeAll_append]
  refine safe_acquire (mayWait_first (Or.inr rfl) hl) ?_
  have hput : safeAll uartPutchar { Γ with held := .cons :: Γ.held } fun Γ' => Γ' = _ :=
    prints_uartPutchar _ hc
  have hrelease : safeAll (release .cons) { Γ with held := .cons :: Γ.held } fun Γ' => Γ' = Γ :=
    safe_release_other List.mem_cons_self (fun _ => nofun) hc (by simp)
  refine ⟨hput, hrelease, safeAll_mono ?_ _ _ (safe_wakeup { Γ with held := .cons :: Γ.held }
    hc ?_ hk ht hp pool)⟩
  · rintro _ rfl
    exact hrelease
  · rw [hl]
    simp [First]

/-- A `switch` is as its branches are. -/
theorem safe_oneOf : ∀ {ls : List (List (Stmt n))}, (∀ a ∈ ls, safeAll a Γ K) →
    safeAll (oneOf ls) Γ K
  | [], _ => trivial
  | a :: _, h => ⟨h a List.mem_cons_self, safe_oneOf fun a ha => h a (List.mem_cons_of_mem _ ha)⟩

theorem safe_sysExec (hK : K (ofProc p b)) : safeAll (sysExec p) (ofProc p b) K := by
  unfold sysExec
  rw [safeAll_append]
  exact prints_copystrFromUser.safe nofun ⟨hK, safe_exec hK⟩

theorem safe_sysWait (hK : K (ofProc p b)) : safeAll (sysWait p) (ofProc p b) K := by
  unfold sysWait
  simp only [safeAll_append]
  refine safe_acquire (mayWait_proc_nil rfl p) ?_
  refine safe_acquire ⟨by simp, by simp [Leaf], rfl, rfl⟩ ?_
  refine prints_walkaddr.safe nofun ?_
  refine safe_release_other List.mem_cons_self (fun _ => nofun) nofun ?_
  dsimp only
  rw [List.erase_cons_head]
  exact safe_release_self (safe_wait hK) none (Or.inl rfl)

theorem safe_syscall (hK : K (ofProc p b)) : safeAll (syscall p) (ofProc p b) K := by
  refine safe_oneOf fun a ha => ?_
  simp only [List.mem_cons, List.not_mem_nil, or_false] at ha
  rcases ha with rfl | rfl | rfl | rfl | rfl | rfl | rfl | rfl | rfl | rfl
  · exact safe_userConsoleWrite hK
  · exact safe_userConsoleRead hK
  · exact safe_exit
  · exact safe_yield hK
  · exact prints_copyToUser.safe nofun hK
  · exact safe_fork hK
  · exact safe_sysExec hK
  · exact safe_sysWait hK
  · exact prints_printf.safe nofun hK
  · exact hK

theorem safe_usertrapret : safeAll (usertrapret p) (ofProc p false) K := ⟨rfl, rfl, nofun⟩

theorem safe_usertrap : safeAll (usertrap p) (ofProc p false) K := by
  unfold usertrap
  simp only [safeAll_append]
  have hend : safeAll [.assertIntrOff .usertrap] (ofProc p false)
      fun Γ' => safeAll (usertrapret p) Γ' K := ⟨rfl, safe_usertrapret⟩
  refine ⟨rfl, safe_oneOf fun a ha => ?_⟩
  simp only [List.mem_cons, List.not_mem_nil, or_false] at ha
  rcases ha with rfl | rfl | rfl | rfl | rfl
  · exact safe_yield hend
  · exact safe_plicHandle nofun rfl rfl rfl (Or.inr rfl) hend
  · rw [safeAll_append, safeAll_append]
    exact ⟨rfl, rfl, safe_syscall (b := true) hend⟩
  · exact hend
  · rw [safeAll_append]
    exact prints_printf.safe nofun safe_exit

/-- The first time that `sched` returns to a new process. -/
theorem safe_firstSchedRet : safeAll (firstSchedRet p) (resumed p b) K := by
  unfold firstSchedRet
  rw [safeAll_append, safeAll_append]
  exact safe_release_self safe_usertrapret none (Or.inl rfl)

/-- **`kernel_trap`**, whatever it has interrupted. -/
theorem safe_kernelTrap (thread popped proc : Option (Fin (n + 1))) :
    safeAll kernelTrap (ofTrap thread popped proc) K := by
  refine ⟨rfl, rfl, rfl, ?_⟩
  have hend : safeAll [.trapLeave, .sret] { ofTrap thread popped proc with inTrap := true } K :=
    ⟨rfl, rfl, rfl, thread, popped, proc, rfl⟩
  exact ⟨hend, safe_plicHandle (fun _ => rfl) rfl rfl rfl (Or.inl rfl) hend⟩

/-! ### The scheduler -/

theorem safe_allDeadLoop (b : Bool) : ∀ l : List (Fin (n + 1)),
    safeAll (allDeadLoop l) { ofSched b with extra := 1 } fun Γ' => Γ' = { ofSched b with extra := 1 }
  | [] => rfl
  | q :: l => by
    have hno : ¬ Ctx.Mine { ofSched b with extra := 1, held := [.proc q] } q := by
      simp [Ctx.Mine, ofSched]
    unfold allDeadLoop
    rw [safeAll_append]
    refine safe_acquire (mayWait_proc_nil rfl q) ⟨List.mem_cons_self, fun _ _ => ?_, fun _ => ?_⟩
    · change safeAll _ (Ctx.learnt { ofSched b with extra := 1, held := [.proc q] } q .unused) _
      rw [Ctx.learnt, if_pos ⟨rfl, hno⟩, safeAll_append]
      refine safe_release_proc List.mem_cons_self hno nofun (fun _ => rfl) nofun ?_
      dsimp only
      rw [List.erase_cons_head, forget (Or.inr ⟨_, rfl⟩)]
      exact safe_allDeadLoop b l
    · refine safe_release_proc List.mem_cons_self hno nofun (fun _ => rfl) nofun ?_
      dsimp only
      rw [List.erase_cons_head, ofSched_know, forget (Or.inl rfl)]
      rfl

theorem safe_scheduler : safeAll scheduler (ofSched b) K :=
  safe_acquire (l := .queue) (mayWait_queue (by simp [ofSched])) ⟨b, rfl⟩

theorem safe_idle : safeAll idle { ofSched b with held := [.queue] } K := by
  unfold idle allDead
  simp only [safeAll_append]
  refine safe_release_other List.mem_cons_self (fun _ => nofun) nofun ?_
  dsimp only
  rw [List.erase_cons_head]
  change safeAll (allDeadLoop pool) { ofSched b with extra := 1 } _
  refine safeAll_mono ?_ _ _ (safe_allDeadLoop b pool)
  rintro _ rfl
  exact ⟨Nat.one_pos, nofun, rfl, rfl, ⟨_, rfl⟩, nofun⟩

theorem safe_dispatch : safeAll (dispatch p) { ofSched b with held := [.queue], popped := some p } K := by
  have hl : ∀ x ∈ [Lock.proc p], ¬ Leaf x := by simp [Leaf]
  unfold dispatch
  simp only [safeAll_append]
  refine safe_release_other List.mem_cons_self (fun _ => nofun) nofun ?_
  dsimp only
  rw [List.erase_cons_head]
  refine safe_acquire (mayWait_proc_nil rfl p) ?_
  refine ⟨List.mem_cons_self, rfl, rfl, rfl, rfl, prints_printf.safe nofun ?_⟩
  refine ⟨List.mem_cons_self, _, .dispatch rfl rfl rfl rfl, rfl, rfl, fun _ h => h, ⟨b, rfl⟩,
    fun b st hst => ?_⟩
  -- the process is back, in the state `st`; it is pushed when it yields
  have hrelease : ∀ popped : Option (Fin (n + 1)),
      (popped = some p → st = .sleeping ∨ st = .zombie) → popped = none ∨ popped = some p →
      safeAll (release (.proc p)) { ofSched b with held := [.proc p], know := some (p, st), popped }
        fun Γ' => safeAll [.call .scheduler] Γ' K := fun popped hst' hp => by
    have hfilter : popped.filter (fun x => x ≠ p) = none := by
      rcases hp with rfl | rfl <;> simp
    refine safe_release ⟨List.mem_cons_self, fun r hr => ?_⟩ nofun ?_
    · cases hr
      refine ⟨nofun, fun _ => rfl, fun hs => ?_,
        fun _ h => ⟨rfl, (hst' h).imp (fun h => ?_) fun h => ?_⟩⟩
      · cases hs.2
      · rw [h]
      · rw [h]
    · rw [Ctx.unlocked_proc]
      dsimp only
      rw [List.erase_cons_head, forget (Or.inr ⟨_, rfl⟩), ofSched_trapped,
        if_neg Bool.false_ne_true, hfilter]
      exact ⟨⟨b, rfl⟩, nofun⟩
  refine ⟨rfl, rfl, List.mem_cons_self, rfl, rfl, nofun, List.mem_cons_self, fun h _ => ?_, fun h => ?_⟩
  · obtain rfl := h st rfl
    exact safe_addTask hl (hrelease none nofun (Or.inl rfl)) ⟨rfl, Or.inr ⟨rfl, rfl, rfl, rfl, rfl, nofun⟩⟩
  · exact hrelease (some p) (fun _ => hst.resolve_left fun h' => h (by rw [h']; rfl)) (Or.inr rfl)

/-- **The code follows the rules**, wherever it is called by name. -/
theorem body_follows : ∀ (f : Fun n) (Γ : Ctx n), Pre f Γ → safeAll (body f) Γ (Post f Γ)
  | .scheduler, _, ⟨_, h⟩ => h ▸ safe_scheduler
  | .idle, _, ⟨_, h⟩ => h ▸ safe_idle
  | .dispatch _, _, ⟨_, h⟩ => h ▸ safe_dispatch
  | .usertrap _, _, h => h ▸ safe_usertrap
  | .waitLoop p, _, ⟨b, h⟩ =>
    h ▸ safe_waitScan (K := Post (.waitLoop p) { ofProc p b with held := [.wait] }) rfl pool

end UCore.Thread.Follows

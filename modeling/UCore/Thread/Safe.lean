import UCore.Thread.Shared

/-! # Kernel threads: no check fails

Every CPU follows the rules in some context (`Typed`), and the contexts agree with what the CPUs share
(`Owns`). Every step keeps this, and a failed check is not allowed in any context. -/

namespace UCore.Thread.Safe

open UCore.Lib.Runs UCore.Proc.State UCore.Thread.Code UCore.Thread.Machine UCore.Thread.Rules
open UCore.Thread.Follows UCore.Thread.Shared

variable {n : ℕ} {κ : Type} [DecidableEq κ]

/-! ### The invariant -/

/-- The code follows the rules, and does not come to its end. -/
def Goes (l : List (Stmt n)) (Γ : Ctx n) : Prop := safeAll l Γ fun _ => False

/-- The context that a handler has interrupted. -/
def interrupted (Γ : Ctx n) : Ctx n :=
  ⟨Γ.thread, false, [], 0, true, none, false, none, Γ.popped, Γ.proc, false⟩

/-- The CPU `c` is in the context `Γ`. -/
structure Typed (c : Cpu n) (Γ : Ctx n) : Prop where
  noff : c.noff = Γ.depth
  enabled : c.enabled = Γ.cur
  interruptOn : 0 < Γ.depth → c.interruptOn = Γ.intr
  inkernelTrap : c.inkernelTrap = Γ.inTrap
  proc : c.proc = Γ.proc
  code : Goes c.code Γ
  below : c.below = none ∧ Γ.trapped = false ∨
    ∃ l, c.below = some l ∧ Γ.trapped = true ∧ Goes l (interrupted Γ)
  sched : ∀ p, Γ.thread = some p → ∀ b st, Left st → Goes c.schedContext (returned p b st)

structure Inv (s : State n κ) (act : κ → Ctx n) : Prop where
  typed : ∀ k, Typed (s.cpu k) (act k)
  owns : Owns s.lock s.state s.context s.queue act

variable {s : State n κ} {act : κ → Ctx n} {k : κ} {c c' : Cpu n} {Γ Γ' : Ctx n} {l : List (Stmt n)}

theorem cur_of_pos (h : 0 < Γ.depth) : Γ.cur = false := if_neg h.ne'

theorem cur_of_zero (h : Γ.depth = 0) : Γ.cur = Γ.intr := if_pos h

/-- A change that leaves alone what the handler has interrupted. -/
theorem Typed.move (hc : Typed c Γ) (hnoff : c'.noff = Γ'.depth) (henabled : c'.enabled = Γ'.cur)
    (hint : 0 < Γ'.depth → c'.interruptOn = Γ'.intr) (htrap : c'.inkernelTrap = Γ'.inTrap)
    (hproc : c'.proc = Γ'.proc) (hcode : Goes c'.code Γ') (hbelow : c'.below = c.below)
    (hsched : c'.schedContext = c.schedContext) (hthread : Γ'.thread = Γ.thread)
    (htrapped : Γ'.trapped = Γ.trapped)
    (hpopped : Γ.trapped = true → Γ'.popped = Γ.popped ∧ Γ'.proc = Γ.proc) : Typed c' Γ' where
  noff := hnoff
  enabled := henabled
  interruptOn := hint
  inkernelTrap := htrap
  proc := hproc
  code := hcode
  below := by
    rw [hbelow, htrapped]
    refine hc.below.imp_right fun ⟨l, hl, ht, hg⟩ => ⟨l, hl, ht, ?_⟩
    unfold interrupted
    rw [hthread, (hpopped ht).1, (hpopped ht).2]
    exact hg
  sched := by
    rw [hsched, hthread]
    exact hc.sched

/-- Only the code changes. -/
theorem Typed.goto (hc : Typed c Γ) (hl : Goes l Γ) : Typed { c with code := l } Γ :=
  hc.move hc.noff hc.enabled hc.interruptOn hc.inkernelTrap hc.proc hl rfl rfl rfl rfl
    fun _ => ⟨rfl, rfl⟩

/-- A step of one CPU. -/
theorem Inv.move (h : Inv s act) {s' : State n κ} (c : Cpu n) (Γ : Ctx n)
    (hcpu : s'.cpu = Function.update s.cpu k c)
    (hc : Typed c Γ)
    (ho : Owns s'.lock s'.state s'.context s'.queue (Function.update act k Γ)) :
    ∃ act', Inv s' act' := by
  refine ⟨Function.update act k Γ, fun k' => ?_, ho⟩
  rw [hcpu]
  by_cases hk : k' = k
  · rw [hk, Function.update_self, Function.update_self]
    exact hc
  · rw [Function.update_of_ne hk, Function.update_of_ne hk]
    exact h.typed k'

/-- A step to other code in the same context. -/
theorem Inv.goto (h : Inv s act) (hl : Goes l (act k)) : ∃ act', Inv (s.goto k l) act' :=
  h.move _ (act k) rfl ((h.typed k).goto hl) (by rw [Function.update_eq_self]; exact h.owns)

/-- A step that changes what a CPU has of its own. -/
theorem Inv.own (h : Inv s act) (Γ : Ctx n) {extra : ℕ} {intr inTrap : Bool} {proc : Option (Fin (n + 1))}
    (hΓ : Γ = { act k with extra, intr, proc, inTrap }) (hc : Typed c Γ) (hw : Wf Γ) :
    ∃ act', Inv (s.setCpu k c) act' := by
  subst hΓ
  exact h.move c _ rfl hc (h.owns.stay hw (h.owns.lock_stay rfl) rfl rfl rfl rfl (h.owns.know k)
    (Or.inr ⟨rfl, rfl⟩))

theorem cur_off (Γ : Ctx n) : Γ.off.cur = false := by
  unfold Ctx.off
  split_ifs with h
  · exact cur_of_zero h
  · exact cur_of_pos (Nat.pos_of_ne_zero h)

theorem off_eq (Γ : Ctx n) :
    Γ.off = { Γ with intr := if Γ.depth = 0 then false else Γ.intr } := by
  unfold Ctx.off
  split_ifs <;> rfl

theorem restored_eq (Γ : Ctx n) (intr : Bool) :
    Γ.restored intr = { Γ with intr := intr || Γ.intr } := by
  cases intr <;> rfl

/-! ### Interrupt flags -/

/-- No check of `pop_off` fails. -/
theorem popOff_eq (hc : Typed c Γ) (hw : Wf Γ) (he : 0 < Γ.extra) (l : List (Stmt n)) :
    popOff c l = { c with
      noff := c.noff - 1, code := l, enabled := Ctx.cur { Γ with extra := Γ.extra - 1 } } := by
  have hpos : 0 < Γ.depth := by
    unfold Ctx.depth
    omega
  have hen : c.enabled = false := hc.enabled.trans (cur_of_pos hpos)
  have hn := hc.noff
  have hd : Ctx.depth { Γ with extra := Γ.extra - 1 } = c.noff - 1 := by
    rw [hn]
    simp only [Ctx.depth]
    omega
  unfold popOff
  rw [if_neg (by rw [hen]; exact Bool.false_ne_true), if_neg (by omega)]
  by_cases h0 : c.noff - 1 = 0
  · have hcur : Ctx.cur { Γ with extra := Γ.extra - 1 } = c.interruptOn := by
      rw [cur_of_zero (hd.trans h0), hc.interruptOn hpos]
    rw [hcur]
    by_cases hi : c.interruptOn = true
    · have htrap : c.inkernelTrap = false := by
        rw [hc.inkernelTrap]
        refine Bool.eq_false_iff.mpr fun ht => ?_
        have hintr := hw.intr (hw.inTrap ht)
        rw [← hc.interruptOn hpos, hi] at hintr
        cases hintr
      rw [if_pos ⟨h0, hi⟩, htrap, if_neg Bool.false_ne_true, hi]
    · rw [if_neg fun h => hi h.2, hen, Bool.eq_false_iff.mpr hi]
  · rw [if_neg fun h => h0 h.1, cur_of_pos (by rw [hd]; omega), hen]

/-- `push_off`. -/
theorem Inv.pushedOff (h : Inv s act) {old : Bool} (hold : (act k).depth = 0 → old = (act k).intr)
    (hl : Goes l { act k with extra := (act k).extra + 1 }) :
    ∃ act', Inv (exec s k l (.pushedOff old)) act' := by
  have hc := h.typed k
  have hd : Ctx.depth { act k with extra := (act k).extra + 1 } = (act k).depth + 1 := by
    simp only [Ctx.depth]
    omega
  refine h.own { act k with extra := (act k).extra + 1 } rfl
    (hc.move ?_ ?_ ?_ hc.inkernelTrap hc.proc hl rfl rfl rfl rfl fun _ => ⟨rfl, rfl⟩)
    ((h.owns.wf k).extra _)
  · rw [hd, hc.noff]
  · exact (cur_of_pos (by omega)).symm
  · intro _
    dsimp only
    rw [hc.noff]
    split_ifs with h0
    · exact hold h0
    · exact hc.interruptOn (Nat.pos_of_ne_zero h0)

theorem Inv.popOff (h : Inv s act) (he : 0 < (act k).extra)
    (hl : Goes l { act k with extra := (act k).extra - 1 }) :
    ∃ act', Inv (exec s k l .popOff) act' := by
  have hc := h.typed k
  have hd : Ctx.depth { act k with extra := (act k).extra - 1 } = (act k).depth - 1 := by
    simp only [Ctx.depth]
    omega
  unfold Machine.exec
  dsimp only
  rw [popOff_eq hc (h.owns.wf k) he]
  refine h.own { act k with extra := (act k).extra - 1 } rfl
    (hc.move ?_ rfl ?_ hc.inkernelTrap hc.proc hl rfl rfl rfl rfl fun _ => ⟨rfl, rfl⟩)
    ((h.owns.wf k).extra _)
  · rw [hd, hc.noff]
  · intro hpos
    exact hc.interruptOn (by omega)

/-- A change of the interrupt flag at depth 0. -/
theorem Inv.flag (h : Inv s act) {intr : Bool} (hintr : (act k).depth ≠ 0 → intr = (act k).intr)
    (ht : (act k).trapped = true → intr = false) (hl : Goes l { act k with intr }) :
    ∃ act', Inv (s.setCpu k { s.cpu k with
      enabled := Ctx.cur { act k with intr }, code := l }) act' := by
  have hc := h.typed k
  refine h.own { act k with intr } rfl
    (hc.move hc.noff rfl (fun hpos => ?_) hc.inkernelTrap hc.proc hl rfl rfl rfl rfl
      fun _ => ⟨rfl, rfl⟩) ((h.owns.wf k).withIntr ht)
  exact (hc.interruptOn hpos).trans (hintr (Nat.pos_iff_ne_zero.mp hpos)).symm

/-- `intr_off`. -/
theorem Inv.off (h : Inv s act) (hl : Goes l (act k).off) :
    ∃ act', Inv (s.setCpu k { s.cpu k with enabled := false, code := l }) act' := by
  have hcur := cur_off (act k)
  rw [off_eq] at hl hcur
  rw [← hcur]
  refine h.flag (fun h0 => if_neg h0) (fun ht => ?_) hl
  split_ifs
  · rfl
  · exact (h.owns.wf k).intr ht

/-- `if (intr) intr_on()`. -/
theorem Inv.restore (h : Inv s act) {intr : Bool}
    (hintr : intr = true → (act k).depth = 0 ∧ (act k).trapped = false)
    (hl : Goes l ((act k).restored intr)) : ∃ act', Inv (exec s k l (.restore intr)) act' := by
  have hcur : Ctx.cur { act k with intr := intr || (act k).intr } = (intr || (s.cpu k).enabled) := by
    rw [(h.typed k).enabled]
    by_cases h0 : (act k).depth = 0
    · rw [cur_of_zero h0]
      exact cur_of_zero h0
    · have hoff : intr = false := Bool.eq_false_iff.mpr fun hi => h0 (hintr hi).1
      rw [hoff, cur_of_pos (Nat.pos_of_ne_zero h0)]
      exact cur_of_pos (Nat.pos_of_ne_zero h0)
  rw [restored_eq] at hl
  unfold Machine.exec
  dsimp only
  rw [← hcur]
  refine h.flag (fun h0 => ?_) (fun ht => ?_) hl
  · rw [Bool.eq_false_iff.mpr fun hi => h0 (hintr hi).1, Bool.false_or]
  · have hoff : intr = false := Bool.eq_false_iff.mpr fun hi => by
      rw [(hintr hi).2] at ht
      cases ht
    rw [hoff, (h.owns.wf k).intr ht]
    rfl

/-! ### Locks -/

/-- The lock is taken. -/
theorem Inv.spin (h : Inv s act) {m : Lock n} (hfree : s.lock m = none) (hm : MayWait (act k) m)
    (he : 0 < (act k).extra)
    (hl : Goes l { act k with held := m :: (act k).held, extra := (act k).extra - 1 }) :
    ∃ act', Inv ((s.setLock m (some k)).goto k l) act' := by
  have hc := h.typed k
  have hw := h.owns.wf k
  have hd : Ctx.depth { act k with held := m :: (act k).held, extra := (act k).extra - 1 } =
      (act k).depth := by
    simp only [Ctx.depth, List.length_cons]
    omega
  have hcur : Ctx.cur { act k with held := m :: (act k).held, extra := (act k).extra - 1 } =
      (act k).cur := by
    unfold Ctx.cur
    rw [hd]
  refine h.move { s.cpu k with code := l }
    { act k with held := m :: (act k).held, extra := (act k).extra - 1 } rfl
    (hc.move ?_ ?_ ?_ hc.inkernelTrap hc.proc hl rfl rfl rfl rfl fun _ => ⟨rfl, rfl⟩) (h.owns.take hfree ?_)
  · exact hc.noff.trans hd.symm
  · exact hc.enabled.trans hcur.symm
  · rw [hd]
    exact hc.interruptOn
  · refine ⟨List.nodup_cons.mpr ⟨hm.1, hw.nodup⟩, fun q st hk => List.mem_cons_of_mem _ (hw.know q st hk),
      hw.made, hw.tok, fun q hq => ?_, hw.thread, hw.proc, hw.intr, hw.inTrap⟩
    rcases List.mem_cons.mp hq with rfl | hq
    · exact hm.2.2
    · exact hw.mm q hq

/-- The lock is given back. -/
theorem Inv.unlock (h : Inv s act) {m : Lock n} (hm : MayUnlock (act k) m)
    (hl : Goes l { (act k).unlocked m with extra := (act k).extra + 1 }) :
    ∃ act', Inv ((s.setLock m none).goto k l) act' := by
  have hc := h.typed k
  have hw := (h.owns.wf k).unlocked hm ((act k).extra + 1)
  obtain ⟨hheld, hthread, htrapped, hintr, hproc, hinTrap, hextra, -, -, hpopped⟩ :=
    unlocked_same (act k) m
  have hd : Ctx.depth { (act k).unlocked m with extra := (act k).extra + 1 } = (act k).depth := by
    have hpos := List.length_pos_of_mem hm.1
    simp only [Ctx.depth, hheld, List.length_erase_of_mem hm.1]
    omega
  have hcur : Ctx.cur { (act k).unlocked m with extra := (act k).extra + 1 } = (act k).cur := by
    unfold Ctx.cur
    rw [hd, hintr]
  refine h.move { s.cpu k with code := l }
    { (act k).unlocked m with extra := (act k).extra + 1 } rfl (hc.move ?_ ?_ ?_ ?_ ?_ hl rfl rfl hthread
    htrapped fun ht => ⟨hpopped ht, hproc⟩) ?_
  · exact hc.noff.trans hd.symm
  · exact hc.enabled.trans hcur.symm
  · rw [hd, hintr]
    exact hc.interruptOn
  · exact hc.inkernelTrap.trans hinTrap.symm
  · exact hc.proc.trans hproc.symm
  · cases m with
    | proc q => exact h.owns.giveProc hm rfl hw
    | _ => exact h.owns.give hm.1 hw

/-! ### States of processes -/

theorem Inv.setState (h : Inv s act) {q : Fin (n + 1)} {st : ProcState}
    (hq : .proc q ∈ (act k).held) (hs : Sets (act k) q st Γ) (hl : Goes l Γ) :
    ∃ act', Inv (exec s k l (.setState q st)) act' := by
  have hc := h.typed k
  have hw := (h.owns.wf k).sets hq hs
  refine h.move { s.cpu k with code := l } Γ rfl ?_ (h.owns.set hq hs hw)
  cases hs <;> exact hc.move hc.noff hc.enabled hc.interruptOn hc.inkernelTrap hc.proc hl rfl rfl
    rfl rfl fun _ => ⟨rfl, rfl⟩

/-- A test that has found `q` in the state `st`. -/
theorem Inv.learn (h : Inv s act) {q : Fin (n + 1)} (hq : .proc q ∈ (act k).held)
    (hl : Goes l ((act k).learnt q (s.state q))) : ∃ act', Inv (s.goto k l) act' := by
  have hc := h.typed k
  have hw := h.owns.wf k
  unfold Ctx.learnt at hl
  split_ifs at hl with hk
  · have hw' : Wf { act k with know := some (q, s.state q) } := by
      refine ⟨hw.nodup, fun r st hr => ?_, fun hmade => ?_, fun r hr => ?_, hw.mm, hw.thread, hw.proc,
        hw.intr, hw.inTrap⟩
      · cases hr
        exact hq
      · obtain ⟨r, hr⟩ := hw.made hmade
        rw [hk.1] at hr
        cases hr
      · have hno := hw.tok r hr
        rw [hk.1] at hno
        cases hno
    refine h.move { s.cpu k with code := l } { act k with know := some (q, s.state q) } rfl
      (hc.move hc.noff hc.enabled hc.interruptOn hc.inkernelTrap hc.proc hl rfl rfl rfl rfl
        fun _ => ⟨rfl, rfl⟩)
      (h.owns.stay hw' (h.owns.lock_stay rfl) rfl rfl rfl rfl (fun r st hr => ?_) (Or.inl hk.1))
    cases hr
    rfl
  · exact h.goto hl

/-- The lock that is made is free. -/
theorem Inv.spinlockInit (h : Inv s act) {q : Fin (n + 1)} (hk : (act k).know = some (q, .used))
    (hm : ¬ (act k).Mine q) (hl : Goes l (act k)) :
    ∃ act', Inv (exec s k l (.spinlockInit (.mm q))) act' := by
  have hfree : s.lock (.mm q) = none := by
    refine Option.eq_none_iff_forall_ne_some.mpr fun k' hk' => ?_
    have hself := (h.owns.wf k').mm q ((h.owns.lock _ _).mp hk')
    exact h.owns.nowhere hk (by simp [Active]) hm (.runs k') hself.2
  have hsame : s.setLock (.mm q) none = s := by
    unfold State.setLock
    rw [← hfree, Function.update_eq_self]
  unfold Machine.exec
  dsimp only
  rw [hsame]
  exact h.goto hl

theorem Inv.initContext (h : Inv s act) {q : Fin (n + 1)} (hk : (act k).know = some (q, .used))
    (hl : Goes l { act k with made := true }) :
    ∃ act', Inv (exec s k l (.initContext q)) act' := by
  have hc := h.typed k
  have hw := h.owns.wf k
  have hw' : Wf { act k with made := true } := ⟨hw.nodup, hw.know, fun _ => ⟨q, hk⟩, hw.tok, hw.mm,
    hw.thread, hw.proc, hw.intr, hw.inTrap⟩
  exact h.move { s.cpu k with code := l } { act k with made := true } rfl
    (hc.move hc.noff hc.enabled hc.interruptOn hc.inkernelTrap hc.proc hl rfl rfl rfl rfl
      fun _ => ⟨rfl, rfl⟩)
    (h.owns.init (fun _ => safe_firstSchedRet) rfl hk hw')

/-! ### The run queue and switching -/

theorem Inv.pushQueue (h : Inv s act) {q : Fin (n + 1)} (hk : (act k).know = some (q, .runnable))
    (hq : (act k).tok = some q ∧ Goes l { act k with tok := none } ∨
      (act k).tok = none ∧ (act k).trapped = false ∧ (act k).popped = some q ∧ (act k).proc = none ∧
        Goes l { act k with popped := none }) :
    ∃ act', Inv (exec s k l (.pushQueue q)) act' := by
  have hc := h.typed k
  have hw := h.owns.wf k
  rcases hq with ⟨ht, hl⟩ | ⟨ht, htrap, hp, hproc, hl⟩
  · have hw' : Wf { act k with tok := none } :=
      ⟨hw.nodup, hw.know, hw.made, nofun, hw.mm, hw.thread, hw.proc, hw.intr, hw.inTrap⟩
    exact h.move { s.cpu k with code := l } { act k with tok := none } rfl
      (hc.move hc.noff hc.enabled hc.interruptOn hc.inkernelTrap hc.proc hl rfl rfl rfl rfl
        fun _ => ⟨rfl, rfl⟩)
      (h.owns.push hk (Or.inl ⟨ht, rfl⟩) hw')
  · have hw' : Wf { act k with popped := none } :=
      ⟨hw.nodup, hw.know, hw.made, hw.tok, hw.mm, fun r hr => ⟨rfl, (hw.thread r hr).2⟩,
        fun r hr => absurd (hproc.symm.trans hr) nofun, hw.intr, hw.inTrap⟩
    exact h.move { s.cpu k with code := l } { act k with popped := none } rfl
      (hc.move hc.noff hc.enabled hc.interruptOn hc.inkernelTrap hc.proc hl rfl rfl rfl rfl
        fun h => absurd (htrap.symm.trans h) nofun)
      (h.owns.push hk (Or.inr ⟨hp, ht, rfl⟩) hw')

theorem Inv.popQueue (h : Inv s act) (hpre : Pre .idle (act k)) :
    ∃ act', Inv (exec s k l .popQueue) act' := by
  obtain ⟨b, hb⟩ := hpre
  have hc := h.typed k
  unfold Machine.exec
  dsimp only
  cases hq : s.queue with
  | nil => exact h.goto ⟨⟨b, hb⟩, nofun⟩
  | cons p queue =>
    have howns := h.owns
    rw [hq] at howns
    have hw' : Wf { act k with popped := some p } := by
      have hw := h.owns.wf k
      rw [hb] at hw ⊢
      exact ⟨hw.nodup, nofun, nofun, nofun, hw.mm, nofun, nofun, nofun, nofun⟩
    refine h.move { s.cpu k with code := .call (.dispatch p) :: l } { act k with popped := some p } rfl
      (hc.move hc.noff hc.enabled hc.interruptOn hc.inkernelTrap hc.proc ?_ rfl rfl rfl rfl
        fun ht => ?_) (howns.pop (by rw [hb]; rfl) (by rw [hb]; rfl) rfl hw')
    · refine ⟨⟨b, ?_⟩, nofun⟩
      rw [hb]
    · rw [hb] at ht
      cases ht

/-- The switch to a process. -/
theorem Inv.swtch (h : Inv s act) {p : Fin (n + 1)} {b : Bool} (hb : act k = returned p b .running)
    (hl : ∀ b st, Left st → Goes l (returned p b st)) :
    ∃ act', Inv (exec s k l (.swtch p)) act' := by
  have hc := h.typed k
  rw [hb] at hc
  have hrun : s.state p = .running := h.owns.know k p _ (by rw [hb]; rfl)
  have hcode : Goes (s.context p) (resumed p b) := by
    refine h.owns.context p (fun k' ht => ?_) (by rw [hrun]; exact nofun) (by rw [hrun]; exact nofun) b
    have hp : (act k).popped = some p := by rw [hb]; rfl
    cases h.owns.unique p (.runs k') (.has k) ht hp
  refine h.move { s.cpu k with schedContext := l, code := s.context p } (resumed p b) rfl
    ⟨hc.noff, hc.enabled, hc.interruptOn, hc.inkernelTrap, hc.proc, hcode, Or.inl ⟨?_, rfl⟩, ?_⟩
    (h.owns.run hb (wf_resumed p b))
  · rcases hc.below with ⟨hbelow, -⟩ | ⟨_, -, ht, -⟩
    · exact hbelow
    · cases ht
  · intro q hq b' st hst
    cases hq
    exact hl b' st hst

/-- The switch to the scheduler. No check of `sched` fails. -/
theorem Inv.sched (h : Inv s act) {p : Fin (n + 1)} {b : Bool} {st : ProcState} (hst : Left st)
    (hb : act k = { resumed p b with know := some (p, st) }) (hl : Goes l (resumed p b)) :
    ∃ act', Inv (exec s k l (.sched p)) act' := by
  have hc := h.typed k
  have hlock : s.lock (.proc p) = some k := (h.owns.lock _ _).mpr (by rw [hb]; exact List.mem_cons_self)
  have hstate : s.state p = st := h.owns.know k p st (by rw [hb])
  rw [hb] at hc
  have hnoff : (s.cpu k).noff = 1 := hc.noff
  have hnone : schedFails s k p = none := by
    unfold schedFails
    rw [if_neg (not_not.mpr hlock), if_neg (not_not.mpr hnoff), if_neg, if_neg, if_neg]
    · rw [hc.enabled]
      exact nofun
    · rw [hc.inkernelTrap]
      exact nofun
    · rw [hstate]
      rintro rfl
      rcases hst with h | h | h <;> cases h
  have hint : (s.cpu k).interruptOn = b := hc.interruptOn Nat.one_pos
  unfold Machine.exec
  dsimp only
  rw [hnone]
  refine h.move { s.cpu k with code := (s.cpu k).schedContext } (returned p b st) rfl
    ⟨hc.noff, hc.enabled, hc.interruptOn, hc.inkernelTrap, hc.proc, hc.sched p rfl b st hst,
      Or.inl ⟨?_, rfl⟩, nofun⟩ (h.owns.leave hb (fun b' => ⟨⟨b', rfl⟩, ?_⟩) (wf_returned p b st))
  · rcases hc.below with ⟨hbelow, -⟩ | ⟨_, -, ht, -⟩
    · exact hbelow
    · cases ht
  · rw [hint]
    exact hl

/-! ### Interrupts -/

/-- With interrupts enabled a thread has nothing. -/
theorem eq_interrupted (hw : Wf Γ) (hcur : Γ.cur = true) : Γ = interrupted Γ := by
  have hd : Γ.depth = 0 := by
    by_contra h0
    rw [cur_of_pos (Nat.pos_of_ne_zero h0)] at hcur
    cases hcur
  have hintr : Γ.intr = true := (cur_of_zero hd).symm.trans hcur
  have hextra : Γ.extra = 0 := by
    unfold Ctx.depth at hd
    omega
  have hheld : Γ.held = [] := List.eq_nil_of_length_eq_zero (by unfold Ctx.depth at hd; omega)
  have htrap : Γ.trapped = false := Bool.eq_false_iff.mpr fun ht => by
    rw [hw.intr ht] at hintr
    cases hintr
  have hknow : Γ.know = none := Option.eq_none_iff_forall_ne_some.mpr fun x hx => by
    have hm := hw.know x.1 x.2 hx
    rw [hheld] at hm
    cases hm
  have hmade : Γ.made = false := Bool.eq_false_iff.mpr fun hm => by
    obtain ⟨q, hq⟩ := hw.made hm
    rw [hknow] at hq
    cases hq
  have htok : Γ.tok = none := Option.eq_none_iff_forall_ne_some.mpr fun q hq => by
    have hk := hw.tok q hq
    rw [hknow] at hk
    cases hk
  have hinTrap : Γ.inTrap = false := Bool.eq_false_iff.mpr fun hi => by
    rw [hw.inTrap hi] at htrap
    cases htrap
  cases Γ
  dsimp only at *
  subst_vars
  rfl

theorem Inv.interrupt (h : Inv s act) (hen : (s.cpu k).enabled = true) :
    ∃ act', Inv (s.setCpu k (interrupt (s.cpu k))) act' := by
  have hc := h.typed k
  have hw := h.owns.wf k
  have hΓ := eq_interrupted hw (hc.enabled.symm.trans hen)
  have hbelow : (s.cpu k).below = none := by
    rcases hc.below with ⟨hb, -⟩ | ⟨_, -, ht, -⟩
    · exact hb
    · rw [hΓ] at ht
      cases ht
  have hnew : Machine.interrupt (s.cpu k) = { s.cpu k with
      enabled := false, code := kernelTrap, below := some (s.cpu k).code } := by
    unfold Machine.interrupt
    rw [hbelow]
  have hw' : Wf (ofTrap (act k).thread (act k).popped (act k).proc) :=
    ⟨List.nodup_nil, nofun, nofun, nofun, nofun, hw.thread, hw.proc, fun _ => rfl, nofun⟩
  have hcode : Goes (s.cpu k).code (interrupted (act k)) := by
    rw [← hΓ]
    exact hc.code
  rw [hnew]
  refine h.move _ (ofTrap (act k).thread (act k).popped (act k).proc) rfl
    ⟨?_, rfl, nofun, ?_, hc.proc, safe_kernelTrap _ _ _, Or.inr ⟨_, rfl, rfl, hcode⟩, hc.sched⟩
    (h.owns.stay hw' (h.owns.lock_stay ?_) rfl rfl ?_ ?_ nofun (Or.inl ?_))
  · rw [hc.noff, hΓ]
    rfl
  · rw [hc.inkernelTrap, hΓ]
    rfl
  all_goals rw [hΓ]; rfl

/-- The return of the handler. -/
theorem Inv.sret (h : Inv s act) {thread popped proc : Option (Fin (n + 1))}
    (hΓ : act k = ofTrap thread popped proc) : ∃ act', Inv (exec s k l .sret) act' := by
  have hc := h.typed k
  have hw := h.owns.wf k
  rcases hc.below with ⟨-, ht⟩ | ⟨a, ha, -, hg⟩
  · rw [hΓ] at ht
    cases ht
  have hw' : Wf (interrupted (act k)) :=
    ⟨List.nodup_nil, nofun, nofun, nofun, nofun, hw.thread, hw.proc, nofun, nofun⟩
  unfold Machine.exec
  dsimp only
  rw [ha]
  refine h.move _ (interrupted (act k)) rfl
    ⟨?_, rfl, nofun, ?_, hc.proc, hg, Or.inl ⟨rfl, rfl⟩, hc.sched⟩
    (h.owns.stay hw' (h.owns.lock_stay ?_) rfl rfl ?_ ?_ nofun (Or.inl ?_))
  · rw [hc.noff, hΓ]
    rfl
  · rw [hc.inkernelTrap, hΓ]
    rfl
  all_goals rw [hΓ]; rfl

/-! ### Steps -/

theorem Inv.setProc (h : Inv s act) {proc : Option (Fin (n + 1))} (ht : (act k).trapped = false)
    (hthread : (act k).thread = none) (hp : ∀ q, proc = some q → (act k).popped = some q)
    (hl : Goes l { act k with proc }) : ∃ act', Inv (exec s k l (.setProc proc)) act' := by
  have hc := h.typed k
  have hw := h.owns.wf k
  refine h.own { act k with proc } rfl (hc.move hc.noff hc.enabled hc.interruptOn hc.inkernelTrap rfl
    hl rfl rfl rfl rfl fun h => absurd (ht.symm.trans h) nofun) ?_
  exact ⟨hw.nodup, hw.know, hw.made, hw.tok, hw.mm, fun q hq => absurd (hthread.symm.trans hq) nofun,
    fun q hq => Or.inr (hp q hq), hw.intr, hw.inTrap⟩

/-- `sched` goes on. -/
theorem Inv.schedRet (h : Inv s act) {p : Fin (n + 1)} {b b' : Bool} (hb : act k = resumed p b')
    (hl : Goes l (resumed p b)) : ∃ act', Inv (exec s k l (.schedRet p b)) act' := by
  have hc := h.typed k
  have hlock : s.lock (.proc p) = some k :=
    (h.owns.lock _ _).mpr (by rw [hb]; exact List.mem_cons_self)
  have hΓ : resumed p b = { act k with extra := 0, intr := b, proc := some p, inTrap := false } := by
    rw [hb]
    rfl
  unfold Machine.exec
  dsimp only
  rw [if_pos hlock]
  rw [hb] at hc
  refine h.own (resumed p b) hΓ ?_ (wf_resumed p b)
  exact ⟨hc.noff, hc.enabled, fun _ => rfl, hc.inkernelTrap, hc.proc, hl, hc.below, hc.sched⟩

/-- The start and the end of `kernel_trap`. -/
theorem Inv.inTrap (h : Inv s act) {inTrap : Bool} (ht : (act k).trapped = true)
    (hl : Goes l { act k with inTrap }) :
    ∃ act', Inv (s.setCpu k { s.cpu k with inkernelTrap := inTrap, code := l }) act' := by
  have hc := h.typed k
  have hw := h.owns.wf k
  refine h.own { act k with inTrap } rfl (hc.move hc.noff hc.enabled hc.interruptOn rfl hc.proc
    hl rfl rfl rfl rfl fun _ => ⟨rfl, rfl⟩) ?_
  exact ⟨hw.nodup, hw.know, hw.made, hw.tok, hw.mm, hw.thread, hw.proc, hw.intr, fun _ => ht⟩

/-- **Every statement keeps the invariant.** -/
theorem Inv.exec (h : Inv s act) {x : Stmt n} (hcode : (s.cpu k).code = x :: l) :
    ∃ act', Inv (Machine.exec s k l x) act' := by
  have hc := h.typed k
  have hx : safe x (act k) fun Γ' => Goes l Γ' := by
    have hg := hc.code
    rw [hcode] at hg
    exact hg
  have holds : ∀ m ∈ (act k).held, s.lock m = some k := fun m hm => (h.owns.lock m k).mpr hm
  cases x with
  | pushOff => exact h.goto ⟨fun hd => hc.enabled.trans (cur_of_zero hd), hx⟩
  | pushedOff old => exact h.pushedOff hx.1 hx.2
  | popOff => exact h.popOff hx.1 hx.2.2
  | check m =>
    unfold Machine.exec
    dsimp only
    rw [if_neg fun hm => hx.1 ((h.owns.lock m k).mp hm)]
    exact h.goto hx.2
  | spin m =>
    unfold Machine.exec
    dsimp only
    split_ifs with hfree
    · exact h.spin hfree hx.1 hx.2.1 hx.2.2
    · exact ⟨act, h⟩
  | unlock m =>
    unfold Machine.exec
    dsimp only
    rw [if_pos (holds m hx.1.1)]
    exact h.unlock hx.1 hx.2
  | spinlockInit m =>
    obtain ⟨⟨q, rfl, hk, hm⟩, hl⟩ := hx
    exact h.spinlockInit hk hm hl
  | intrOn =>
    have hcur : Ctx.cur { act k with intr := true } = true := cur_of_zero hx.1
    unfold Machine.exec
    dsimp only
    rw [← hcur]
    exact h.flag (fun h0 => absurd hx.1 h0) (fun ht => absurd (hx.2.1.symm.trans ht) nofun) hx.2.2
  | intrOff => exact h.off hx
  | masked a =>
    refine h.off (safeAll.append hx fun Γ' hΓ' => ?_)
    rw [hc.enabled]
    exact hΓ'
  | restore intr => exact h.restore hx.1 hx.2
  | assertHolding m y =>
    unfold Machine.exec
    dsimp only
    rw [if_pos (holds m hx.1)]
    exact h.goto hx.2
  | assertIntrOff y =>
    unfold Machine.exec
    dsimp only
    rw [hc.enabled, hx.1, if_neg Bool.false_ne_true]
    exact h.goto hx.2
  | setState q st =>
    obtain ⟨hq, Γ', hs, hl⟩ := hx
    exact h.setState hq hs hl
  | ifState q st thn els =>
    obtain ⟨hq, hthn, hels⟩ := hx
    unfold Machine.exec
    dsimp only
    split_ifs with hst
    · subst hst
      refine h.learn hq (safeAll.append (hthn (fun st' hk => (h.owns.know k q st' hk).symm)
        fun hm hk => h.owns.active hq hm hk) fun _ hl => hl)
    · exact h.goto (safeAll.append (hels fun hk => hst (h.owns.know k q st hk)) fun _ hl => hl)
  | assertState q st =>
    obtain ⟨-, -, hp, hk, rfl, hl⟩ := hx
    have hrun : s.state q = .runnable := (h.owns.popped k q hp).resolve_right fun ⟨_, st, hk'⟩ => by
      rw [hk] at hk'
      cases hk'
    unfold Machine.exec
    dsimp only
    rw [if_pos hrun]
    exact h.goto hl
  | either a b => exact h.goto (safeAll.append hx.1 fun _ hl => hl)
  | loop a => exact h.goto hx.2
  | call f => exact h.goto (safeAll.append (body_follows f _ hx.1) hx.2)
  | frame a =>
    refine h.goto (safeAll.append hx fun Γ' hΓ' => ?_)
    rw [hc.enabled]
    exact hΓ'
  | ret intr =>
    unfold Machine.exec
    dsimp only
    rw [if_pos (hc.enabled.trans hx.1)]
    exact h.goto hx.2
  | initContext q => exact h.initContext hx.1 hx.2.2
  | pushQueue q => exact h.pushQueue hx.1 hx.2
  | popQueue => exact h.popQueue hx
  | setProc proc => exact h.setProc hx.1 hx.2.1 hx.2.2.1 hx.2.2.2
  | assertProc p =>
    unfold Machine.exec
    dsimp only
    rw [if_pos (hc.proc.trans hx.1)]
    exact h.goto hx.2
  | swtch p =>
    obtain ⟨⟨b, hb⟩, hl⟩ := hx
    exact h.swtch hb hl
  | sched p =>
    obtain ⟨⟨b, st, hst, hb⟩, hl⟩ := hx
    rw [hb] at hl
    exact h.sched hst hb hl
  | schedRet p b =>
    obtain ⟨⟨b', hb⟩, hl⟩ := hx
    exact h.schedRet hb hl
  | schedDone =>
    unfold Machine.exec
    dsimp only
    rw [if_pos ⟨hc.noff.trans hx.1, hc.enabled.trans (cur_of_pos (by rw [hx.1]; exact Nat.one_pos))⟩]
    exact h.goto hx.2
  | trapEnter =>
    obtain ⟨ht, hin, hcur, hl⟩ := hx
    unfold Machine.exec
    dsimp only
    rw [if_neg (by rw [hc.enabled, hcur]; exact Bool.false_ne_true),
      if_neg (by rw [hc.inkernelTrap, hin]; exact Bool.false_ne_true)]
    exact h.inTrap ht hl
  | trapLeave =>
    obtain ⟨ht, -, hcur, hl⟩ := hx
    unfold Machine.exec
    dsimp only
    rw [if_neg (by rw [hc.enabled, hcur]; exact Bool.false_ne_true)]
    exact h.inTrap ht hl
  | sret =>
    obtain ⟨thread, popped, proc, hΓ⟩ := hx
    exact h.sret hΓ
  | halt => exact ⟨act, h⟩
  | panic y => exact hx.elim

/-- **Every step keeps the invariant.** -/
theorem Inv.step {s' : State n κ} (h : ∃ act, Inv s act) (hs : Step s k s') : ∃ act, Inv s' act := by
  obtain ⟨act, h⟩ := h
  cases hs with
  | exec k hcode => exact h.exec hcode
  | right k hcode =>
    have hg := (h.typed k).code
    rw [hcode] at hg
    exact h.goto (safeAll.append hg.2 fun _ hl => hl)
  | again k hcode =>
    have hg := (h.typed k).code
    rw [hcode] at hg
    refine h.goto (safeAll.append hg.1 fun Γ' hΓ' => ?_)
    rw [hΓ']
    exact hg
  | interrupt k hen => exact h.interrupt hen
  | halt k => exact h.goto trivial

theorem mem_take_pool {p : Fin (n + 1)} : p ∈ (pool : List (Fin (n + 1))).take 1 ↔ p.val = 0 := by
  rw [pool, List.finRange_succ, List.take_succ_cons, List.take_zero, List.mem_singleton, Fin.ext_iff]
  rfl

omit [DecidableEq κ] in
/-- At the start every CPU is in the scheduler, and the first process is in the queue. -/
theorem inv_start : ∃ act, Inv (start : State n κ) act := by
  refine ⟨fun _ => ofSched false, fun _ => ⟨rfl, rfl, nofun, rfl, rfl, ⟨⟨false, rfl⟩, nofun⟩,
    Or.inl ⟨rfl, rfl⟩, nofun⟩, ?_⟩
  refine ⟨fun _ => ⟨List.nodup_nil, nofun, nofun, nofun, nofun, nofun, nofun, nofun, nofun⟩,
    fun _ _ => ⟨nofun, nofun⟩, fun _ _ _ => nofun, ?_, fun q a b ha hb => ?_, fun q hq => Or.inl ?_,
    fun q hq => if_pos (mem_take_pool.mp hq), fun _ _ => nofun, fun q _ hu _ => ?_⟩
  · exact (List.nodup_finRange (n + 1)).sublist (List.take_sublist 1 _)
  · cases a with
    | queue =>
      cases b with
      | queue => rfl
      | _ => cases hb
    | _ => cases ha
  · intro a ha
    cases a with
    | queue => exact hq (Or.inr (if_pos (mem_take_pool.mp ha)))
    | _ => cases ha
  · have hq : q.val = 0 := by
      by_contra hq
      exact hu (if_neg hq)
    have hcontext : (start : State n κ).context q = firstSchedRet q := if_pos hq
    rw [hcontext]
    exact fun _ => safe_firstSchedRet

theorem reached {ks : List κ} (hrun : Run Step start ks s) : ∃ act, Inv s act :=
  hrun.invariant inv_start fun _ _ _ h hs => Inv.step h hs

/-- The first of two CPUs can take the lock of the run queue. -/
theorem exists_taken : ∃ s, Run Step (start : State 0 (Fin 2)) [0, 0, 0, 0, 0] s ∧
    s.lock .queue = some 0 := by
  have hrun : Run Step (start : State 0 (Fin 2)) ([] ++ [0] ++ [0] ++ [0] ++ [0] ++ [0]) _ :=
    ((((Run.refl.tail (.exec 0 rfl)).tail (.exec 0 rfl)).tail (.exec 0 rfl)).tail
      (.exec 0 rfl)).tail (.exec 0 rfl)
  exact ⟨_, hrun, rfl⟩

/-- **No check fails**: none of those on locks, interrupts and switches, on any CPU, in any order of
their steps and interrupts. -/
theorem never_panics {ks : List κ} (hrun : Run Step (start : State n κ) ks s) (k : κ) (x : Panic)
    (l : List (Stmt n)) : (s.cpu k).code ≠ .panic x :: l := by
  obtain ⟨act, h⟩ := reached hrun
  intro hcode
  have hg := (h.typed k).code
  rw [hcode] at hg
  exact hg

theorem never_panics_sample : ∃ s, Run Step (start : State 0 (Fin 2)) [0, 0, 0, 0, 0] s ∧
    ∀ k x l, (s.cpu k).code ≠ .panic x :: l := by
  obtain ⟨s, hrun, -⟩ := exists_taken
  exact ⟨s, hrun, never_panics hrun⟩

/-- **A process is on one CPU**: it is the current process of one CPU at most, and of none while it is in
the run queue, which has it once; and who has a lock has interrupts off. -/
theorem one_cpu {ks : List κ} (hrun : Run Step (start : State n κ) ks s) :
    (∀ p k k', (s.cpu k).proc = some p → (s.cpu k').proc = some p → k = k') ∧
      (∀ p ∈ s.queue, ∀ k, (s.cpu k).proc ≠ some p) ∧ s.queue.Nodup ∧
      ∀ m k, s.lock m = some k → (s.cpu k).enabled = false ∧ 0 < (s.cpu k).noff := by
  obtain ⟨act, h⟩ := reached hrun
  have hplace : ∀ p k, (s.cpu k).proc = some p →
      At s.queue act p (.runs k) ∨ At s.queue act p (.has k) := fun p k hp =>
    (h.owns.wf k).proc p ((h.typed k).proc.symm.trans hp)
  refine ⟨fun p k k' hp hp' => ?_, fun p hq k hp => ?_, h.owns.nodup, fun m k hm => ?_⟩
  · rcases hplace p k hp with ha | ha <;> rcases hplace p k' hp' with hb | hb <;>
      cases h.owns.unique p _ _ ha hb <;> rfl
  · rcases hplace p k hp with ha | ha <;> cases h.owns.unique p .queue _ hq ha
  · have hpos : 0 < (act k).depth := by
      have hlen := List.length_pos_of_mem ((h.owns.lock m k).mp hm)
      unfold Ctx.depth
      omega
    rw [(h.typed k).enabled, (h.typed k).noff]
    exact ⟨cur_of_pos hpos, hpos⟩

theorem one_cpu_sample : ∃ s, Run Step (start : State 0 (Fin 2)) [0, 0, 0, 0, 0] s ∧
    s.lock .queue = some 0 ∧ (s.cpu 0).enabled = false ∧ 0 < (s.cpu 0).noff := by
  obtain ⟨s, hrun, hlock⟩ := exists_taken
  exact ⟨s, hrun, hlock, (one_cpu hrun).2.2.2 .queue 0 hlock⟩

end UCore.Thread.Safe

import UCore.Proc.Tasks

/-! # Runs of processes and runs of tasks

One step of the machine changes one slot as its event says (`Step.changed`), so a run shows the tasks
of its events (`Run.inv`), if the page allocator never finds its list empty and no image has a segment
in the stack. -/

namespace UCore.Proc.Replay

open UCore.Lib.Bytes UCore.Lib.Hoare UCore.Riscv UCore.Mem.State UCore.Mem.Kalloc UCore.Mem.Boot
open UCore.Vm.Spaces UCore.Vm.Tables UCore.Vm.Growth UCore.Vm.Walk UCore.Vm.Map UCore.Vm.Refine
open UCore.Vm.VmaList UCore.Vm.Process UCore.Vm.Family UCore.Vm.Lives UCore.Vm.Uaccess
open UCore.Vm.UserCopy UCore.Vm.Flat
open UCore.Proc.State UCore.Proc.Loader UCore.Proc.ExitCode UCore.Proc.LoadImage UCore.Proc.Tasks

variable {L : Layout} {ι : Type} [DecidableEq ι] {s s' : KState} {A : View ι} {i : ι}
  {userApps : List UserApp} {e : Event ι} {es : List (Event ι)} {c c' : Tasks.Machine ι}
  {ts : ι → Option Task} {held : Set ℕ}

/-! ### One step -/

omit [DecidableEq ι] in
theorem mem_of_getElf {name : List UInt8} {app : UserApp}
    (h : Apps.getElf userApps name = some app) : app ∈ userApps := by
  unfold Apps.getElf at h
  exact List.mem_of_find?_eq_some h

/-- **One step changes one slot**, as the event says. -/
theorem Step.changed (hstep : Tasks.Step L userApps e c c')
    (happs : ∀ app ∈ userApps, StackClear app.elf) (hA : Reps L c.1 A)
    (h : ∀ j, Slot L c.1 A j (c.2 j) (ts j)) : ∃ x, c'.2 = Function.update c.2 e.target x ∧
      Changed L e.target c.1.mem A c'.1 x (e.apply (ts e.source)) := by
  have hruns : ∀ {j p}, c.2 j = some p → ∃ mm tf t, ts j = some t ∧ Runs L c.1 A j p mm tf t :=
    fun {j p} hj => by
      have hs := h j
      rw [hj] at hs
      exact hs.runs
  cases hstep with
  | @loadInit s s' procs p name app pid i hi happ hx hd =>
    exact ⟨_, rfl, wet.elim (wet_loadInitApp hA i pid (happs _ (mem_of_getElf happ))) hx hd⟩
  | @fork s s' procs p np parent pid i j hi hj hx hd =>
    obtain ⟨mm, tf, t, ht, hp⟩ := hruns hi
    have hij : i ≠ j := by
      rintro rfl
      exact absurd (hi.symm.trans hj) (by simp)
    refine ⟨_, rfl, ?_⟩
    show Changed L j _ A _ _ ((ts i).map _)
    rw [ht]
    exact wet.elim (wet_fork hA hij hp parent pid) hx hd
  | @exec s s' procs p p' name app r i hi happ hx hd =>
    obtain ⟨mm, tf, t, ht, hp⟩ := hruns hi
    refine ⟨_, rfl, ?_⟩
    show Changed L i _ A _ _ ((ts i).map _)
    rw [ht]
    exact wet.elim (wet_exec hp happ (happs _ (mem_of_getElf happ))) hx hd
  | @freeproc s s' procs p i hi hx =>
    obtain ⟨mm, tf, t, -, hp⟩ := hruns hi
    exact ⟨_, rfl, (wp_of_eq_ok hx).mp (wp_freeproc hp)⟩
  | @fault s s' procs p mm addr store found i hi hm hx =>
    obtain ⟨mm', tf, t, ht, hp⟩ := hruns hi
    cases Option.some.inj (hm.symm.trans hp.hasMm)
    refine ⟨some p, by rw [← hi]; exact (Function.update_eq_self _ _).symm, ?_⟩
    show Changed L i _ A _ _ (ts i)
    rw [ht]
    exact hp.fault hx
  | @copyToUser s s' procs p mm r i va src len hi hm hx =>
    obtain ⟨mm', tf, t, ht, hp⟩ := hruns hi
    cases Option.some.inj (hm.symm.trans hp.hasMm)
    refine ⟨some p, by rw [← hi]; exact (Function.update_eq_self _ _).symm, ?_⟩
    show Changed L i _ A _ _ ((ts i).map _)
    rw [ht]
    exact hp.copyToUser hx
  | @exitCode s s' procs p mm ptr i va code hi hm hpage hptr hx =>
    obtain ⟨mm', tf, t, ht, hp⟩ := hruns hi
    cases Option.some.inj (hm.symm.trans hp.hasMm)
    refine ⟨some p, by rw [← hi]; exact (Function.update_eq_self _ _).symm, ?_⟩
    show Changed L i _ A _ _ ((ts i).map _)
    rw [ht]
    exact hp.exitCode hpage hptr hx
  | @store s procs p mm i va b hi hm hva hmap hW =>
    obtain ⟨mm', tf, t, ht, hp⟩ := hruns hi
    cases Option.some.inj (hm.symm.trans hp.hasMm)
    refine ⟨some p, by rw [← hi]; exact (Function.update_eq_self _ _).symm, ?_⟩
    show Changed L i _ A _ _ ((ts i).map _)
    rw [ht]
    obtain ⟨f, hf, htr⟩ := mapped_frame hA (.of_userMm hp.holds.space.user) hva hmap
    rw [htr]
    exact hp.wrote_page _ hf (by omega)
  | @save s s' procs p i regs hi hx =>
    obtain ⟨mm', tf, t, ht, hp⟩ := hruns hi
    refine ⟨some p, by rw [← hi]; exact (Function.update_eq_self _ _).symm, ?_⟩
    show Changed L i _ A _ _ ((ts i).map _)
    rw [ht]
    have hspec : wpOk (kblit L p.trapframe tfSize regs) s fun _ s' =>
        Changed L i s.mem A s' (some p) (some { t with regs := blit t.regs 0 tfSize regs }) :=
      wp_kblit hp.holds.frame (hp.trapframe.trans (Nat.add_zero _).symm) (by decide)
        (hp.wrote_regs regs (by decide))
    exact (wp_of_eq_ok hx).mp hspec
  | @ret s s' procs p i a0 hi hx =>
    obtain ⟨mm', tf, t, ht, hp⟩ := hruns hi
    refine ⟨some p, by rw [← hi]; exact (Function.update_eq_self _ _).symm, ?_⟩
    show Changed L i _ A _ _ ((ts i).map _)
    rw [ht]
    have hspec : wpOk (kwrite64 L (p.trapframe + tfA0) a0) s fun _ s' =>
        Changed L i s.mem A s' (some p)
          (some { t with regs := Lib.Bytes.store t.regs tfA0 8 a0 }) :=
      wp_kwrite64 hp.holds.frame (by rw [hp.trapframe]) (by decide) (hp.wrote_regs _ (by decide))
    exact (wp_of_eq_ok hx).mp hspec

/-- **One step.** -/
theorem Step.inv (hstep : Tasks.Step L userApps e c c') (happs : ∀ app ∈ userApps, StackClear app.elf)
    (hinv : Tasks.Inv L held c ts) : Tasks.Inv L held c' (e.act ts) := by
  obtain ⟨A, hA, rfl, h⟩ := hinv
  obtain ⟨x, hx, hc⟩ := Step.changed hstep happs hA h
  have := hc.inv h
  rwa [← hx] at this

/-! ### Runs -/

theorem replay_snoc (es : List (Event ι)) (e : Event ι) : replay (es ++ [e]) = e.act (replay es) := by
  unfold replay
  rw [List.foldl_append]
  rfl

/-- **The invariant of every run.** -/
theorem Run.inv (hrun : Run L userApps es c c') (happs : ∀ app ∈ userApps, StackClear app.elf)
    (hinv : Tasks.Inv L held c fun _ => none) : Tasks.Inv L held c' (replay es) := by
  induction hrun with
  | nil c => exact hinv
  | snoc hrun hstep ih =>
    rw [replay_snoc]
    exact Step.inv hstep happs (ih hinv)

omit [DecidableEq ι] in
/-- The machine without processes. -/
theorem inv_boot {fs : List ℕ} (hfree : FreeOk L s fs) (hlog : LogOk s.log fs)
    (hheld : ∀ f ∈ fs, f ∉ held) :
    Tasks.Inv L held (s, fun _ : ι => none) fun _ => none :=
  ⟨bootView ι s fs held, reps_boot hfree hlog hheld, rfl, fun _ => .off rfl⟩

end UCore.Proc.Replay

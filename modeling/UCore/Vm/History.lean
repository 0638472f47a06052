import UCore.Vm.Keeps

/-! # The history only grows

No function takes a line of the allocator's history back (`LogGrows`). So a run in whose history the
allocator never found its list empty is one in which it did not at any step: `wet x s Q` says that
`x`, if it returns from `s` with such a history, returns with `Q`, and `wet_seq` is sequencing for
it. -/

namespace UCore.Vm.History

open UCore.Lib.Hoare UCore.Riscv UCore.Mem.State UCore.Mem.Kalloc UCore.Vm.Walk UCore.Vm.Map
open UCore.Vm.Keeps

variable {L : Layout} {α β : Type}

/-- The history after `x` extends the one before. -/
def LogGrows (x : KM α) : Prop :=
  ∀ s, wp x s (fun _ s' => s.log <:+ s'.log) fun _ s' => s.log <:+ s'.log

/-- The history of the second state extends that of the first. -/
def LogStep (s s' : KState) : Prop := s.log <:+ s'.log

instance : ObjectStep LogStep where
  refl _ := List.suffix_rfl
  trans _ _ _ h h' := List.IsSuffix.trans h h'
  mem _ _ := List.suffix_rfl
  list s _ e := List.suffix_cons e s.log
  objs _ _ _ := List.suffix_rfl

theorem logGrows_iff {x : KM α} : LogGrows x ↔ Keeps LogStep x := Iff.rfl

/-! ### Runs without shortage -/

/-- `x` returns from `s` with `Q`, if it returns and the allocator never found its list empty. -/
def wet (x : KM α) (s : KState) (Q : α → KState → Prop) : Prop :=
  wp x s (fun a s' => PageEvent.empty ∉ s'.log → Q a s') fun _ _ => True

section Wet
variable {x : KM α} {f : α → KM β} {s : KState} {P : α → KState → Prop} {Q : β → KState → Prop}

theorem wet_of_wp {E : Panic → KState → Prop} {Q : α → KState → Prop} (h : wp x s Q E) :
    wet x s Q := wp_mono h (fun _ _ hQ _ => hQ) fun _ _ _ => trivial

theorem wet.imp {Q Q' : α → KState → Prop} (h : wet x s Q) (hQ : ∀ a s', Q a s' → Q' a s') :
    wet x s Q' := wp_mono h (fun a s' h hd => hQ a s' (h hd)) fun _ _ => id

/-- A history that already has a shortage keeps it. -/
theorem LogGrows.wet_of_dry {Q : α → KState → Prop} (hx : LogGrows x)
    (hd : PageEvent.empty ∈ s.log) : wet x s Q :=
  wp_mono (hx s) (fun _ _ h hn => absurd (h.subset hd) hn) fun _ _ _ => trivial

/-- **Sequencing without shortage.** -/
theorem wet.seq (hx : wet x s P) (hf : ∀ a, LogGrows (f a))
    (h : ∀ a s', PageEvent.empty ∉ s'.log → P a s' → wet (f a) s' Q) : wet (x >>= f) s Q := by
  refine wp_seq hx fun a s' hP => ?_
  by_cases hd : PageEvent.empty ∈ s'.log
  · exact (hf a).wet_of_dry hd
  · exact h a s' hd (hP hd)

/-- **The loop rule without shortage.** -/
theorem wet_forM {ι : Type} {g : ι → KM PUnit} (hg : ∀ a, LogGrows (g a))
    (I : List ι → KState → Prop)
    (step : ∀ a l s, PageEvent.empty ∉ s.log → I (a :: l) s → wet (g a) s fun _ s' => I l s') :
    ∀ (l : List ι) (s : KState), PageEvent.empty ∉ s.log → I l s →
      wet (forM l g) s fun _ s' => I [] s'
  | [], _, _, h => fun _ => h
  | a :: l, s, hd, h => by
    rw [List.forM_cons]
    exact (step a l s hd h).seq (fun _ => logGrows_iff.mpr (keeps_forM hg l)) fun _ s' hd' h' =>
      wet_forM hg I step l s' hd' h'

end Wet

end UCore.Vm.History

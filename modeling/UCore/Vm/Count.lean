import Mathlib.Data.Finset.Card
import Mathlib.Data.Finset.Union
import UCore.Vm.Refine

/-! # How many frames mapping takes

Mapping the page numbers `vs` of the address space `i` takes one frame for each of them and one for
each page-table page that is missing (`missing`). `mapPages_count` and `mapPages_short` say that this
is exact. A free list that ends just before the target of a page (`RunsOut`), and in no other case,
makes `mapPages` store an address that was never on it (`runsOut_stored`, `stored_of_not_runsOut`). -/

namespace UCore.Vm.Count

open UCore.Riscv UCore.Mem.State UCore.Vm.Spaces UCore.Vm.Tables UCore.Vm.Growth

variable {ι : Type} {L : Layout} {A B : View ι} {i : ι}

/-- The paths of the page-table pages that serve the page numbers `vs`. -/
def tables (vs : List ℕ) : Finset (List Idx) :=
  (vs.flatMap fun v => [[px 2 v], path v]).toFinset

/-- The number of page-table pages that the page numbers `vs` miss below the table `tbl`. -/
def missing (tbl : List Idx → Option ℕ) (vs : List ℕ) : ℕ :=
  ((tables vs).filter fun p => tbl p = none).card

theorem mem_tables {vs : List ℕ} {p : List Idx} :
    p ∈ tables vs ↔ ∃ v ∈ vs, p = [px 2 v] ∨ p = path v := by
  simp [tables]

theorem tables_append (xs ys : List ℕ) : tables (xs ++ ys) = tables xs ∪ tables ys := by
  ext p
  simp only [Finset.mem_union, mem_tables, List.mem_append]
  constructor
  · rintro ⟨w, hw | hw, hp⟩
    · exact Or.inl ⟨w, hw, hp⟩
    · exact Or.inr ⟨w, hw, hp⟩
  · rintro (⟨w, hw, hp⟩ | ⟨w, hw, hp⟩)
    · exact ⟨w, Or.inl hw, hp⟩
    · exact ⟨w, Or.inr hw, hp⟩

theorem tables_cons (v : ℕ) (vs : List ℕ) : tables (v :: vs) = tables [v] ∪ tables vs :=
  tables_append [v] vs

theorem missing_nil (tbl : List Idx → Option ℕ) : missing tbl [] = 0 := rfl

/-- Only the paths to page-table pages matter. -/
theorem missing_congr {tbl tbl' : List Idx → Option ℕ} {vs : List ℕ}
    (h : ∀ p, p.length ≤ 2 → tbl' p = tbl p) : missing tbl' vs = missing tbl vs := by
  unfold missing
  congr 1
  refine Finset.filter_congr fun p hp => ?_
  obtain ⟨v, -, rfl | rfl⟩ := mem_tables.mp hp
  · rw [h _ (by simp)]
  · rw [h _ (path_length v)]

/-- The first page numbers, then the others with the page-table pages of the first. -/
theorem missing_append {tbl tbl' : List Idx → Option ℕ} {xs ys : List ℕ}
    (h : ∀ p, tbl' p = none ↔ tbl p = none ∧ p ∉ tables xs) :
    missing tbl (xs ++ ys) = missing tbl xs + missing tbl' ys := by
  unfold missing
  rw [tables_append]
  have hsplit : (tables xs ∪ tables ys).filter (fun p => tbl p = none) =
      (tables xs).filter (fun p => tbl p = none) ∪
        (tables ys).filter fun p => tbl' p = none := by
    ext p
    simp only [Finset.mem_filter, Finset.mem_union, h]
    tauto
  rw [hsplit, Finset.card_union_of_disjoint]
  rw [Finset.disjoint_left]
  intro p hp hp'
  rw [Finset.mem_filter] at hp hp'
  exact ((h p).mp hp'.2).2 hp.1

theorem missing_cons {tbl tbl' : List Idx → Option ℕ} {v : ℕ} {vs : List ℕ}
    (h : ∀ p, tbl' p = none ↔ tbl p = none ∧ p ∉ tables [v]) :
    missing tbl (v :: vs) = missing tbl [v] + missing tbl' vs := by
  rw [← missing_append h, List.singleton_append]

theorem missing_le_append (tbl : List Idx → Option ℕ) (xs ys : List ℕ) :
    missing tbl xs ≤ missing tbl (xs ++ ys) := by
  unfold missing
  refine Finset.card_le_card (Finset.filter_subset_filter _ fun p hp => ?_)
  rw [tables_append]
  exact Finset.mem_union_left _ hp

theorem missing_le_cons (tbl : List Idx → Option ℕ) (v : ℕ) (vs : List ℕ) :
    missing tbl [v] ≤ missing tbl (v :: vs) := missing_le_append tbl [v] vs

theorem missing_single (tbl : List Idx → Option ℕ) (v : ℕ) :
    missing tbl [v] = (if tbl [px 2 v] = none then 1 else 0) +
      (if tbl (path v) = none then 1 else 0) := by
  have h : tables [v] = {[px 2 v], path v} := by
    ext p; simp [mem_tables]
  have hne : [px 2 v] ≠ path v := by simp [path]
  unfold missing
  rw [h, Finset.filter_insert, Finset.filter_singleton]
  split_ifs <;> simp [hne]

/-! ### One page number -/

variable [DecidableEq ι]

theorem grow_free {p : List Idx} (h : (grow A i p).2 = true) :
    (grow A i p).1.free.length + (if A.tbl i p = none then 1 else 0) = A.free.length := by
  obtain ⟨hs, e⟩ | ⟨-, -, e⟩ | ⟨f, fs, hn, hfree, e⟩ := grow_cases A i p
  · rw [e, if_neg (by intro hn; rw [hn] at hs; cases hs)]; rfl
  · rw [e] at h; cases h
  · rw [e, if_pos hn, View.hang_free, hfree]; rfl

theorem grow_short {p : List Idx} (h : (grow A i p).2 = false) :
    A.free.length < if A.tbl i p = none then 1 else 0 := by
  obtain ⟨hs, e⟩ | ⟨hn, hfree, -⟩ | ⟨f, fs, -, -, e⟩ := grow_cases A i p
  · rw [e] at h; cases h
  · rw [if_pos hn, hfree]; exact Nat.one_pos
  · rw [e] at h; cases h

theorem grow_dry_eq {p : List Idx} (h : (grow A i p).2 = true) : (grow A i p).1.dry = A.dry := by
  obtain ⟨-, e⟩ | ⟨-, -, e⟩ | ⟨f, fs, -, -, e⟩ := grow_cases A i p
  · rw [e]
  · rw [e] at h; cases h
  · rw [e]; rfl

/-- A walk that came through took the page-table pages that were missing. -/
theorem walk_free {v : ℕ} (h : (walk A i v).2 = true) :
    (walk A i v).1.free.length + missing (A.tbl i) [v] = A.free.length := by
  obtain ⟨h1, h2, e⟩ := andThen_true h
  have e' : (walk A i v).1 = (grow (grow A i [px 2 v]).1 i (path v)).1 := e
  rw [missing_single, e']
  have h3 := grow_free h1
  have h4 := grow_free h2
  rw [grow_tbl_of_ne (by simp [path])] at h4
  omega

/-- A walk that did not come through was short of frames. -/
theorem walk_short {v : ℕ} (h : (walk A i v).2 = false) :
    A.free.length < missing (A.tbl i) [v] := by
  rw [missing_single]
  unfold walk at h
  by_cases h1 : (grow A i [px 2 v]).2 = true
  · rw [andThen_of_true h1] at h
    have h3 := grow_free h1
    have h4 := grow_short h
    rw [grow_tbl_of_ne (by simp [path])] at h4
    omega
  · rw [Bool.not_eq_true] at h1
    have h2 := grow_short h1
    omega

theorem grow_short_free {p : List Idx} (h : (grow A i p).2 = false) :
    (grow A i p).1.free = [] := by
  obtain ⟨-, e⟩ | ⟨-, hfree, e⟩ | ⟨f, fs, -, -, e⟩ := grow_cases A i p
  · rw [e] at h; cases h
  · rw [e]; exact hfree
  · rw [e] at h; cases h

theorem walk_short_free {v : ℕ} (h : (walk A i v).2 = false) : (walk A i v).1.free = [] := by
  unfold walk at h ⊢
  by_cases h1 : (grow A i [px 2 v]).2 = true
  · rw [andThen_of_true h1] at h ⊢
    exact grow_short_free h
  · rw [Bool.not_eq_true] at h1
    rw [andThen_of_false h1]
    exact grow_short_free h1

theorem walk_dry_eq {v : ℕ} (h : (walk A i v).2 = true) : (walk A i v).1.dry = A.dry := by
  obtain ⟨h1, h2, e⟩ := andThen_true h
  have e' : (walk A i v).1 = (grow (grow A i [px 2 v]).1 i (path v)).1 := e
  rw [e', grow_dry_eq h2, grow_dry_eq h1]

/-- The page-table pages of `v` are there after its walk, and no others are new. -/
theorem walk_tbl_none {v : ℕ} (h : (walk A i v).2 = true) (p : List Idx) :
    (walk A i v).1.tbl i p = none ↔ A.tbl i p = none ∧ p ∉ tables [v] := by
  obtain ⟨h1, h2, e⟩ := andThen_true h
  have e' : (walk A i v).1 = (grow (grow A i [px 2 v]).1 i (path v)).1 := e
  rw [e']
  have hmem : p ∈ tables [v] ↔ p = [px 2 v] ∨ p = path v := by simp [mem_tables]
  rw [grow_snd] at h1 h2
  have hne : path v ≠ [px 2 v] := by simp [path]
  by_cases hp2 : p = path v
  · subst hp2
    rw [hmem]
    constructor
    · intro hn; rw [hn] at h2; cases h2
    · rintro ⟨-, hn⟩; exact absurd (Or.inr rfl) hn
  rw [grow_tbl_of_ne (fun hc => hp2 hc.2)]
  by_cases hp1 : p = [px 2 v]
  · subst hp1
    rw [hmem]
    constructor
    · intro hn; rw [hn] at h1; cases h1
    · rintro ⟨-, hn⟩; exact absurd (Or.inl rfl) hn
  · rw [grow_tbl_of_ne (fun hc => hp1 hc.2), hmem]
    simp [hp1, hp2]

theorem supply_free (fl v : ℕ) : (supply A i fl v).free = A.free.tail := by
  unfold supply
  cases hfree : A.free with
  | nil => exact hfree
  | cons f fs => show A.take.free = _; rw [View.take_free, hfree]

theorem supply_dry_iff (fl v : ℕ) : (supply A i fl v).dry ↔ A.dry ∨ A.free = [] := by
  unfold supply
  cases hfree : A.free with
  | nil => simp
  | cons f fs => simp

/-- What mapping one page number came to. -/
theorem mapPage_cases (A : View ι) (i : ι) (fl v : ℕ) :
    (A.free.length < missing (A.tbl i) [v] ∧ (walk A i v).2 = false ∧
      mapPage A i fl v = ((walk A i v).1, false)) ∨
    (missing (A.tbl i) [v] ≤ A.free.length ∧ (walk A i v).2 = true ∧ Has (A.pte i v) PTE_V ∧
      mapPage A i fl v = ((walk A i v).1, false)) ∨
    (missing (A.tbl i) [v] ≤ A.free.length ∧ (walk A i v).2 = true ∧ ¬ Has (A.pte i v) PTE_V ∧
      mapPage A i fl v = (supply (walk A i v).1 i fl v, true)) := by
  unfold mapPage
  by_cases hw : (walk A i v).2 = true
  · have hf := walk_free hw
    rw [andThen_of_true hw, walk_pte]
    by_cases hV : Has (A.pte i v) PTE_V
    · exact Or.inr (Or.inl ⟨by omega, hw, hV, if_pos hV⟩)
    · exact Or.inr (Or.inr ⟨by omega, hw, hV, if_neg hV⟩)
  · rw [Bool.not_eq_true] at hw
    exact Or.inl ⟨walk_short hw, hw, by rw [andThen_of_false hw, ← hw]⟩

/-- A page number that got a frame, without shortage. -/
theorem mapPage_true_dry {fl v : ℕ} (h : (mapPage A i fl v).2 = true) :
    ((mapPage A i fl v).1.dry ↔ A.dry ∨ A.free.length = missing (A.tbl i) [v]) ∧
      (mapPage A i fl v).1.free.length = A.free.length - missing (A.tbl i) [v] - 1 ∧
      (∀ p, (mapPage A i fl v).1.tbl i p = none ↔ A.tbl i p = none ∧ p ∉ tables [v]) := by
  obtain ⟨-, -, e⟩ | ⟨-, -, -, e⟩ | ⟨hle, hw, -, e⟩ := mapPage_cases A i fl v
  · rw [e] at h; cases h
  · rw [e] at h; cases h
  · rw [e]
    have hf := walk_free hw
    refine ⟨?_, ?_, fun p => ?_⟩
    · rw [supply_dry_iff, walk_dry_eq hw, ← List.length_eq_zero_iff]
      constructor <;> rintro (hd | h0)
      · exact Or.inl hd
      · exact Or.inr (by omega)
      · exact Or.inl hd
      · exact Or.inr (by omega)
    · rw [supply_free, List.length_tail]; omega
    · rw [supply_tbl]; exact walk_tbl_none hw p

/-! ### A list of page numbers -/

/-- **Shortage means that there were too few frames.** -/
theorem mapPages_short {fl : ℕ} : ∀ {vs : List ℕ} {A : View ι}, ¬ A.dry →
    (mapPages i fl vs A).1.dry → A.free.length < vs.length + missing (A.tbl i) vs
  | [], _, hn, hd => absurd hd hn
  | v :: vs, A, hn, hd => by
    have hle := missing_le_cons (A.tbl i) v vs
    rw [List.length_cons]
    obtain ⟨hlt, -, -⟩ | ⟨-, hw, -, e⟩ | ⟨hle', hw, -, e⟩ := mapPage_cases A i fl v
    · omega
    · rw [mapPages, andThen_of_false (by rw [e]), e, walk_dry_eq hw] at hd
      exact absurd hd hn
    · have h1 : (mapPage A i fl v).2 = true := by rw [e]
      rw [mapPages, andThen_of_true h1] at hd
      obtain ⟨hdry, hlen, htbl⟩ := mapPage_true_dry h1
      by_cases h0 : A.free.length = missing (A.tbl i) [v]
      · omega
      · have ih := mapPages_short (fun hc => (hdry.mp hc).elim hn h0) hd
        rw [missing_cons htbl]
        omega

/-- Two page-table pages for a page number at most. -/
theorem missing_le (tbl : List Idx → Option ℕ) (vs : List ℕ) : missing tbl vs ≤ 2 * vs.length := by
  induction vs with
  | nil => simp [missing_nil]
  | cons v vs ih =>
    have h1 : missing tbl (v :: vs) ≤ missing tbl [v] + missing tbl vs := by
      unfold missing
      rw [tables_cons, Finset.filter_union]
      exact Finset.card_union_le _ _
    have h2 : missing tbl [v] ≤ 2 := by
      rw [missing_single]
      split_ifs <;> omega
    rw [List.length_cons]
    omega

/-- The frames that mapping the page numbers `vs` takes. -/
def needed (tbl : List Idx → Option ℕ) (vs : List ℕ) : ℕ := vs.length + missing tbl vs

/-- **With enough frames new page numbers are mapped.** -/
theorem mapPages_enough (fl : ℕ) {vs : List ℕ} (hdry : ¬ A.dry) (hnd : vs.Nodup)
    (hnew : ∀ v ∈ vs, ¬ Has (A.pte i v) PTE_V) (hlen : needed (A.tbl i) vs ≤ A.free.length) :
    (mapPages i fl vs A).2 = true ∧ ¬ (mapPages i fl vs A).1.dry := by
  have hdry₁ : ¬ (mapPages i fl vs A).1.dry := fun hc => by
    have := mapPages_short hdry hc
    unfold needed at hlen
    omega
  exact ⟨mapPages_of_unmapped hdry₁ hnd hnew, hdry₁⟩

/-! ### Running out -/

/-- The free list ends at the target of the page number at some index `k` of `vs`: those up to `k`
are not mapped, and the frames are just enough for their page-table pages and the `k` targets
before. -/
def RunsOut (free : List ℕ) (tbl : List Idx → Option ℕ) (pte : ℕ → ℕ) (vs : List ℕ) : Prop :=
  ∃ k < vs.length, (∀ v ∈ vs.take (k + 1), ¬ Has (pte v) PTE_V) ∧
    free.length = k + missing tbl (vs.take (k + 1))

/-- The same in a view. -/
abbrev RunsOutIn (A : View ι) (i : ι) (vs : List ℕ) : Prop :=
  RunsOut A.free (A.tbl i) (A.pte i) vs

omit [DecidableEq ι] in
theorem not_runsOut_nil : ¬ RunsOutIn A i [] := by
  rintro ⟨k, hk, -⟩
  simp at hk

/-- The first page number decides, or what is left after it. -/
theorem runsOut_cons (fl : ℕ) {v : ℕ} {vs : List ℕ} (hv : v ∉ vs) :
    RunsOutIn A i (v :: vs) ↔ (mapPage A i fl v).2 = true ∧
      (A.free.length = missing (A.tbl i) [v] ∨
        (missing (A.tbl i) [v] < A.free.length ∧ RunsOutIn (mapPage A i fl v).1 i vs)) := by
  have hle : ∀ ws, missing (A.tbl i) [v] ≤ missing (A.tbl i) (v :: ws) :=
    missing_le_cons (A.tbl i) v
  obtain ⟨hlt, -, e⟩ | ⟨-, -, hV, e⟩ | ⟨hle', -, hV, e⟩ := mapPage_cases A i fl v
  · rw [e]
    refine ⟨?_, fun h => absurd h.1 (by simp)⟩
    rintro ⟨k, -, -, hk⟩
    have := hle (vs.take k)
    rw [List.take_succ_cons] at hk
    omega
  · rw [e]
    refine ⟨?_, fun h => absurd h.1 (by simp)⟩
    rintro ⟨k, -, hn, -⟩
    exact absurd hV (hn v (by simp))
  · have h1 : (mapPage A i fl v).2 = true := by rw [e]
    obtain ⟨-, hlen, htbl⟩ := mapPage_true_dry h1
    have hpte : ∀ w ∈ vs, (mapPage A i fl v).1.pte i w = A.pte i w := fun w hw =>
      mapPage_pte_of_ne fun he => hv (he ▸ hw)
    constructor
    · rintro ⟨k, hk, hn, hlen'⟩
      refine ⟨h1, ?_⟩
      cases k with
      | zero =>
        simp only [List.take_succ_cons, List.take_zero] at hlen'
        exact Or.inl (by omega)
      | succ k =>
        rw [List.take_succ_cons, missing_cons htbl] at hlen'
        rw [List.length_cons] at hk
        refine Or.inr ⟨by omega, k, by omega, fun w hw => ?_, by omega⟩
        rw [hpte w (List.mem_of_mem_take hw)]
        exact hn w (by rw [List.take_succ_cons]; exact List.mem_cons_of_mem _ hw)
    · rintro ⟨-, h0 | ⟨hlt, k, hk, hn, hlen'⟩⟩
      · exact ⟨0, by simp, by simpa using hV, by simpa using h0⟩
      · refine ⟨k + 1, by simpa using hk, fun w hw => ?_, ?_⟩
        · rw [List.take_succ_cons, List.mem_cons] at hw
          rcases hw with rfl | hw
          · exact hV
          · rw [← hpte w (List.mem_of_mem_take hw)]
            exact hn w hw
        · rw [List.take_succ_cons, missing_cons htbl]
          omega

/-- Mapping without shortage does not run out. -/
theorem not_runsOut_of_wet {fl : ℕ} : ∀ {vs : List ℕ} {A : View ι},
    (mapPages i fl vs A).2 = true → ¬ (mapPages i fl vs A).1.dry → ¬ RunsOutIn A i vs
  | [], _, _, _ => not_runsOut_nil
  | v :: vs, A, h, hdry => by
    obtain ⟨h1, h2, e⟩ := andThen_true h
    have e' : (mapPages i fl (v :: vs) A).1 = (mapPages i fl vs (mapPage A i fl v).1).1 := e
    have hv : v ∉ vs := (List.nodup_cons.mp (mapPages_true h).1).1
    rw [e'] at hdry
    rw [runsOut_cons fl hv]
    rintro ⟨-, h0 | ⟨-, hrest⟩⟩
    · refine hdry ((mapPages_grew (i := i) fl vs _).dry ?_)
      exact (mapPage_true_dry h1).1.mpr (Or.inr h0)
    · exact not_runsOut_of_wet h2 hdry hrest

/-- **Mapping that does not run out takes what it needs**, and exactly that. -/
theorem mapPages_takes {fl : ℕ} : ∀ {vs : List ℕ} {A : View ι},
    (mapPages i fl vs A).2 = true → ¬ RunsOutIn A i vs →
    (mapPages i fl vs A).1.free.length + (vs.length + missing (A.tbl i) vs) = A.free.length ∧
      (∀ p, (mapPages i fl vs A).1.tbl i p = none ↔ A.tbl i p = none ∧ p ∉ tables vs)
  | [], A, _, _ => by
    refine ⟨by simp [mapPages, missing_nil], fun p => ?_⟩
    simp [mapPages, tables]
  | v :: vs, A, h, hno => by
    obtain ⟨h1, h2, e⟩ := andThen_true h
    have e' : (mapPages i fl (v :: vs) A).1 = (mapPages i fl vs (mapPage A i fl v).1).1 := e
    have hv : v ∉ vs := (List.nodup_cons.mp (mapPages_true h).1).1
    rw [runsOut_cons fl hv] at hno
    obtain ⟨-, hlen, htbl⟩ := mapPage_true_dry h1
    have hle : missing (A.tbl i) [v] < A.free.length := by
      obtain ⟨-, -, e⟩ | ⟨-, -, -, e⟩ | ⟨hle, -⟩ := mapPage_cases A i fl v
      · rw [e] at h1; cases h1
      · rw [e] at h1; cases h1
      · exact lt_of_le_of_ne hle fun h0 => hno ⟨h1, Or.inl h0.symm⟩
    obtain ⟨hcount, htbl'⟩ := mapPages_takes h2 fun hr => hno ⟨h1, Or.inr ⟨hle, hr⟩⟩
    rw [e']
    refine ⟨?_, fun p => ?_⟩
    · rw [missing_cons htbl, List.length_cons]
      omega
    · rw [htbl', htbl, tables_cons v vs, Finset.mem_union, not_or, and_assoc]

/-- **Mapping without shortage takes what it needs.** -/
theorem mapPages_count {fl : ℕ} {vs : List ℕ} (h : (mapPages i fl vs A).2 = true)
    (hdry : ¬ (mapPages i fl vs A).1.dry) :
    (mapPages i fl vs A).1.free.length + (vs.length + missing (A.tbl i) vs) = A.free.length ∧
      (∀ p, (mapPages i fl vs A).1.tbl i p = none ↔ A.tbl i p = none ∧ p ∉ tables vs) :=
  mapPages_takes h (not_runsOut_of_wet h hdry)

/-- New page numbers that cannot be mapped need more frames than there are. -/
theorem needed_of_false {fl : ℕ} : ∀ {vs : List ℕ} {A : View ι}, vs.Nodup →
    (∀ v ∈ vs, ¬ Has (A.pte i v) PTE_V) → (mapPages i fl vs A).2 = false →
    A.free.length < needed (A.tbl i) vs
  | [], _, _, _, h => by cases h
  | v :: vs, A, hnd, hnew, h => by
    rw [List.nodup_cons] at hnd
    have hle := missing_le_cons (A.tbl i) v vs
    unfold needed
    rw [List.length_cons]
    obtain ⟨hlt, -, -⟩ | ⟨-, -, hV, -⟩ | ⟨hle', -, -, e⟩ := mapPage_cases A i fl v
    · omega
    · exact absurd hV (hnew v (by simp))
    · have h1 : (mapPage A i fl v).2 = true := by rw [e]
      rw [mapPages, andThen_of_true h1] at h
      obtain ⟨-, hlen, htbl⟩ := mapPage_true_dry h1
      have ih := needed_of_false hnd.2 (fun w hw => by
        have hwv : w ≠ v := fun he => hnd.1 (he ▸ hw)
        rw [mapPage_pte_of_ne hwv]
        exact hnew w (by simp [hw])) h
      unfold needed at ih
      rw [missing_cons htbl]
      omega

/-- **A list that runs out stores the address that an empty list stands for.** -/
theorem runsOut_stored {fl : ℕ} : ∀ {vs : List ℕ} {A : View ι}, vs.Nodup → RunsOutIn A i vs →
    ∃ v ∈ vs, ¬ Has (A.pte i v) PTE_V ∧ (mapPages i fl vs A).1.pte i v = mkPte (2 ^ 38) fl
  | [], _, _, h => absurd h not_runsOut_nil
  | v :: vs, A, hnd, h => by
    rw [List.nodup_cons] at hnd
    obtain ⟨h1, h2⟩ := (runsOut_cons fl hnd.1).mp h
    obtain ⟨hn, hV, -⟩ := mapPage_true h1
    rw [mapPages, andThen_of_true h1]
    rcases h2 with h0 | ⟨-, hrest⟩
    · refine ⟨v, by simp, hn, ?_⟩
      rw [(mapPages_grew (i := i) fl vs _).valid v hV]
      obtain ⟨-, -, e⟩ | ⟨-, -, -, e⟩ | ⟨-, hw, -, e⟩ := mapPage_cases A i fl v
      · rw [e] at h1; cases h1
      · rw [e] at h1; cases h1
      · have hfree : (walk A i v).1.free = [] := by
          have := walk_free hw
          rw [← List.length_eq_zero_iff]
          omega
        rw [e]
        show (supply _ i fl v).pte i v = _
        unfold supply
        rw [hfree]
        exact View.setPte_pte_self _ _ _
    · obtain ⟨w, hw, hn', he⟩ := runsOut_stored hnd.2 hrest
      have hwv : w ≠ v := fun he => hnd.1 (he ▸ hw)
      exact ⟨w, by simp [hw], by rwa [mapPage_pte_of_ne hwv] at hn', he⟩

/-- **A list that does not run out stores only frames that were on it.** -/
theorem stored_of_not_runsOut {fl : ℕ} : ∀ {vs : List ℕ} {A : View ι}, vs.Nodup →
    ¬ RunsOutIn A i vs → ∀ v ∈ vs, ¬ Has (A.pte i v) PTE_V →
      Has ((mapPages i fl vs A).1.pte i v) PTE_V →
      ∃ f ∈ A.free, (mapPages i fl vs A).1.pte i v = mkPte f fl
  | [], _, _, _ => by simp
  | v :: vs, A, hnd, h => by
    rw [List.nodup_cons] at hnd
    rw [runsOut_cons fl hnd.1] at h
    intro w hw hn hV
    rw [mapPages] at hV ⊢
    obtain ⟨-, hw', e⟩ | ⟨-, hw', -, e⟩ | ⟨hle, hw', hnv, e⟩ := mapPage_cases A i fl v
    · rw [andThen_of_false (by rw [e]), e, walk_pte] at hV
      exact absurd hV hn
    · rw [andThen_of_false (by rw [e]), e, walk_pte] at hV
      exact absurd hV hn
    have h1 : (mapPage A i fl v).2 = true := by rw [e]
    rw [andThen_of_true h1] at hV ⊢
    obtain ⟨-, hVv, -⟩ := mapPage_true h1
    have hne : A.free.length ≠ missing (A.tbl i) [v] := fun h0 => h ⟨h1, Or.inl h0⟩
    rcases List.mem_cons.mp hw with rfl | hw
    · rw [(mapPages_grew (i := i) fl vs _).valid w hVv, e]
      have hf := walk_free hw'
      show ∃ f ∈ A.free, (supply _ i fl w).pte i w = _
      unfold supply
      cases hfree : (walk A i w).1.free with
      | nil => rw [hfree, List.length_nil] at hf; omega
      | cons f fs =>
        refine ⟨f, (walk_grew (A := A) (i := i) w).free.subset (by rw [hfree]; simp), ?_⟩
        exact View.setPte_pte_self _ _ _
    · have hwv : w ≠ v := fun he => hnd.1 (he ▸ hw)
      obtain ⟨f, hf, he⟩ := stored_of_not_runsOut hnd.2
        (fun hr => h ⟨h1, Or.inr ⟨by omega, hr⟩⟩) w hw (by rwa [mapPage_pte_of_ne hwv]) hV
      exact ⟨f, (mapPage_grew fl v).free.subset hf, he⟩

/-- Running out in the first part of a list, or in the second after the first is mapped. -/
theorem runsOut_append (fl : ℕ) {ys : List ℕ} : ∀ {xs : List ℕ} {A : View ι}, (xs ++ ys).Nodup →
    (RunsOutIn A i (xs ++ ys) ↔ RunsOutIn A i xs ∨
      ((mapPages i fl xs A).2 = true ∧ RunsOutIn (mapPages i fl xs A).1 i ys))
  | [], A, _ => by
    rw [List.nil_append]
    refine ⟨fun h => Or.inr ⟨rfl, h⟩, ?_⟩
    rintro (h | ⟨-, h⟩)
    · exact absurd h not_runsOut_nil
    · exact h
  | v :: xs, A, hnd => by
    rw [List.cons_append, List.nodup_cons] at hnd
    have hv : v ∉ xs := fun h => hnd.1 (by simp [h])
    rw [List.cons_append, runsOut_cons fl hnd.1, runsOut_cons fl hv, mapPages,
      runsOut_append fl hnd.2]
    by_cases h1 : (mapPage A i fl v).2 = true
    · rw [andThen_of_true h1]
      have hle : missing (A.tbl i) [v] ≤ A.free.length := by
        obtain ⟨-, -, e⟩ | ⟨-, -, -, e⟩ | ⟨hle, -⟩ := mapPage_cases A i fl v
        · rw [e] at h1; cases h1
        · rw [e] at h1; cases h1
        · exact hle
      have hcmp : A.free.length = missing (A.tbl i) [v] ∨ missing (A.tbl i) [v] < A.free.length := by
        omega
      tauto
    · rw [Bool.not_eq_true] at h1
      rw [andThen_of_false h1]
      simp [h1]

end UCore.Vm.Count

import UCore.Proc.Loader

/-! # Looking up an app

`get_elf` with the functions of `string.c` that it calls. A string is its bytes without the
terminator. `strncmp` stops after `strlen(name)` bytes, so it takes an app whose name only begins with
`name` for a match (`strncmp_strlen`), and `get_elf` returns the first of these. It finds the app of
that name only where no longer name comes first (`getElf_finds_iff`). -/

namespace UCore.Proc.Apps

open UCore.Proc.Loader

/-! ### The code -/

/-- `strlen(s)`, an `int`. -/
def strlen (s : List UInt8) : ℤ := Int.bmod s.length (2 ^ 32)

/-- An `int` as an `uint`. -/
def toUint (n : ℤ) : ℕ := (n % 2 ^ 32).toNat

/-- The byte at the pointer `p`. -/
def deref (p : List UInt8) : UInt8 := p.headD 0

/-- `strncmp(p, q, n)`. -/
def strncmp : List UInt8 → List UInt8 → ℕ → ℤ
  | _, _, 0 => 0
  | p, q, n + 1 =>
    if deref p ≠ 0 ∧ deref p = deref q then strncmp p.tail q.tail n
    else (deref p).toNat - (deref q).toNat

/-- `get_elf(name)`. -/
def getElf (userApps : List UserApp) (name : List UInt8) : Option UserApp :=
  userApps.find? fun app => strncmp name app.name (toUint (strlen name)) = 0

/-! ### What the comparison says -/

/-- The bytes of `name` that `strncmp` looks at: all of a name of less than 4 GiB. -/
def key (name : List UInt8) : List UInt8 := name.take (name.length % 2 ^ 32)

theorem toUint_strlen (name : List UInt8) : toUint (strlen name) = name.length % 2 ^ 32 := by
  have h : Int.bmod (name.length : ℤ) (2 ^ 32) % ((2 ^ 32 : ℕ) : ℤ) = name.length % (2 ^ 32 : ℕ) :=
    Int.bmod_emod
  unfold toUint strlen
  omega

theorem key_isPrefix_name (name : List UInt8) : key name <+: name := List.take_prefix _ _

/-- `strncmp` up to `n` bytes of `p`, where `p` has as many. -/
theorem strncmp_eq_zero : ∀ {n : ℕ} {p q : List UInt8}, 0 ∉ p → n ≤ p.length →
    (strncmp p q n = 0 ↔ p.take n <+: q)
  | 0, p, q, _, _ => by simp [strncmp]
  | n + 1, [], q, _, hn => by simp at hn
  | n + 1, a :: p, [], hp, _ => by
    have ha : a ≠ 0 := fun h => hp (by simp [h])
    have hne : a.toNat ≠ 0 := fun h => ha (UInt8.toNat_inj.mp h)
    simp [strncmp, deref, ha, hne]
  | n + 1, a :: p, b :: q, hp, hn => by
    rw [List.mem_cons, not_or] at hp
    rw [List.take_succ_cons, List.cons_prefix_cons]
    by_cases hab : a = b
    · subst hab
      have hrec := strncmp_eq_zero (q := q) hp.2 (Nat.le_of_succ_le_succ hn)
      simp [strncmp, deref, Ne.symm hp.1, hrec]
    · have hne : (a.toNat : ℤ) - b.toNat ≠ 0 := fun h => hab (UInt8.toNat_inj.mp (by omega))
      simp [strncmp, deref, hab, hne]

/-- **The comparison of `get_elf`** is a test for a prefix. -/
theorem strncmp_strlen {name q : List UInt8} (hname : 0 ∉ name) :
    strncmp name q (toUint (strlen name)) = 0 ↔ key name <+: q := by
  rw [toUint_strlen]
  exact strncmp_eq_zero hname (Nat.mod_le _ _)

theorem getElf_eq_find (userApps : List UserApp) {name : List UInt8} (hname : 0 ∉ name) :
    getElf userApps name = userApps.find? fun app => (key name).isPrefixOf app.name := by
  have h : ∀ app : UserApp, decide (strncmp name app.name (toUint (strlen name)) = 0) =
      (key name).isPrefixOf app.name := fun app => by
    rw [Bool.eq_iff_iff, decide_eq_true_iff, List.isPrefixOf_iff_prefix, strncmp_strlen hname]
  unfold getElf
  rw [funext h]

/-! ### Finding the app -/

/-- The lookup returns the app of this name, and `NULL` if there is none. -/
def Finds (userApps : List UserApp) (name : List UInt8) (o : Option UserApp) : Prop :=
  ((∃ app ∈ userApps, app.name = name) → ∃ app ∈ userApps, app.name = name ∧ o = some app) ∧
    ((¬ ∃ app ∈ userApps, app.name = name) → o = none)

/-- Each app whose name begins with the bytes that are compared has one of the name itself at or
before it. -/
def ExactFirst (userApps : List UserApp) (name : List UInt8) : Prop :=
  ∀ (pre post : List UserApp) (app : UserApp), userApps = pre ++ app :: post →
    key name <+: app.name → ∃ exact ∈ pre ++ [app], exact.name = name

/-- **`get_elf` finds the app** of a name exactly if no longer name that begins with it comes first. -/
theorem getElf_finds_iff (userApps : List UserApp) (name : List UInt8) (hname : 0 ∉ name) :
    Finds userApps name (getElf userApps name) ↔ ExactFirst userApps name := by
  rw [getElf_eq_find _ hname]
  constructor
  · rintro ⟨hex, hno⟩ pre post app happs hpre
    by_contra hnone
    -- the search stops at `app` or before it, at an app of another name
    cases ho : userApps.find? fun app => (key name).isPrefixOf app.name with
    | none =>
      rw [List.find?_eq_none] at ho
      exact ho app (by rw [happs]; simp) (List.isPrefixOf_iff_prefix.mpr hpre)
    | some found =>
      rw [ho] at hex hno
      have hfound : found.name = name := by
        by_cases h : ∃ app ∈ userApps, app.name = name
        · obtain ⟨exact, -, hexact, he⟩ := hex h
          rw [Option.some.inj he, hexact]
        · cases hno h
      refine hnone ⟨found, ?_, hfound⟩
      rw [happs, show pre ++ app :: post = (pre ++ [app]) ++ post by simp, List.find?_append] at ho
      cases hp : (pre ++ [app]).find? fun app => (key name).isPrefixOf app.name with
      | none =>
        rw [List.find?_eq_none] at hp
        exact absurd (List.isPrefixOf_iff_prefix.mpr hpre) (hp app (by simp))
      | some g =>
        rw [hp, Option.some_or] at ho
        rw [← Option.some.inj ho]
        exact List.mem_of_find?_eq_some hp
  · intro hfirst
    cases ho : userApps.find? fun app => (key name).isPrefixOf app.name with
    | none =>
      refine ⟨?_, fun _ => rfl⟩
      rintro ⟨app, happ, hn⟩
      rw [List.find?_eq_none] at ho
      exact absurd (List.isPrefixOf_iff_prefix.mpr (hn ▸ key_isPrefix_name name)) (ho app happ)
    | some found =>
      obtain ⟨hp, pre, post, happs, hpre⟩ := List.find?_eq_some_iff_append.mp ho
      obtain ⟨exact, hmem, hexact⟩ :=
        hfirst pre post found happs (List.isPrefixOf_iff_prefix.mp hp)
      have he : exact = found := by
        rcases List.mem_append.mp hmem with h | h
        · have := hpre exact h
          rw [Bool.not_eq_true', ← Bool.not_eq_true, List.isPrefixOf_iff_prefix, hexact] at this
          exact absurd (key_isPrefix_name name) this
        · exact List.mem_singleton.mp h
      have hmem' : found ∈ userApps := by rw [happs]; simp
      rw [he] at hexact
      exact ⟨fun _ => ⟨found, hmem', hexact, rfl⟩, fun h => absurd ⟨found, hmem', hexact⟩ h⟩

/-- An app with the name `sh` and an empty image. -/
def sampleApp (name : List UInt8) : UserApp := ⟨name, fun _ => 0, 0⟩

theorem getElf_finds_iff_sample : Finds [sampleApp [115, 104], sampleApp [115, 104, 50]] [115, 104]
    (getElf [sampleApp [115, 104], sampleApp [115, 104, 50]] [115, 104]) ↔
      ExactFirst [sampleApp [115, 104], sampleApp [115, 104, 50]] [115, 104] :=
  getElf_finds_iff _ _ (by decide)

/-- With `sh2` before `sh`, the name `sh` gives `sh2`. -/
theorem getElf_longer_first : ¬ ∀ (userApps : List UserApp) (name : List UInt8), 0 ∉ name →
    (∀ app ∈ userApps, 0 ∉ app.name) → Finds userApps name (getElf userApps name) := by
  intro h
  obtain ⟨hex, -⟩ := h [sampleApp [115, 104, 50], sampleApp [115, 104]] [115, 104] (by decide)
    (by simp [sampleApp])
  have hget : getElf [sampleApp [115, 104, 50], sampleApp [115, 104]] [115, 104] =
      some (sampleApp [115, 104, 50]) := rfl
  obtain ⟨app, -, hn, ho⟩ := hex ⟨sampleApp [115, 104], by simp, rfl⟩
  rw [hget] at ho
  rw [← Option.some.inj ho] at hn
  exact absurd hn (by decide)

end UCore.Proc.Apps

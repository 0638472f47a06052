import Mathlib.Data.List.Induction
import Mathlib.Tactic.Common

/-! # Tries stored in a heap of nodes

`h t i` is the child of node `t` at index `i`, if any. `follow h r p` is the node at path `p` below
the root `r`. A trie has no shared node when a node determines its path; then hanging a childless
new node under a free index adds exactly one path (`follow_graft`), and a change of the heap away
from the nodes above a depth changes no path of that depth (`follow_eq_of_agree`). -/

namespace UCore.Lib.Trie

variable {F I : Type} (h : F → I → Option F)

/-- The node at path `p` below `r`. -/
def follow (r : F) : List I → Option F
  | [] => some r
  | i :: p => (h r i).bind fun t => follow t p

@[simp] theorem follow_nil (r : F) : follow h r [] = some r := rfl

theorem follow_append (p q : List I) : ∀ r : F,
    follow h r (p ++ q) = (follow h r p).bind fun t => follow h t q := by
  induction p with
  | nil => intro r; rfl
  | cons i p ih =>
    intro r
    simp only [List.cons_append, follow]
    cases h r i with
    | none => rfl
    | some t => exact ih t

theorem follow_concat (r : F) (p : List I) (i : I) :
    follow h r (p ++ [i]) = (follow h r p).bind fun t => h t i := by
  rw [follow_append]
  congr 1
  funext t
  simp only [follow]
  cases h t i <;> rfl

variable {h}

/-- A heap that agrees on all nodes at depth less than `n` has the same nodes up to depth `n`. -/
theorem follow_eq_of_agree {h' : F → I → Option F} {r : F} {n : ℕ}
    (hag : ∀ q t, q.length < n → follow h r q = some t → ∀ i, h' t i = h t i) :
    ∀ p : List I, p.length ≤ n → follow h' r p = follow h r p := by
  intro p
  induction p using List.reverseRecOn with
  | nil => intro _; rfl
  | append_singleton p i ih =>
    intro hp
    rw [List.length_append, List.length_singleton] at hp
    rw [follow_concat, follow_concat, ih (by omega)]
    cases ht : follow h r p with
    | none => rfl
    | some t => exact hag p t (by omega) ht i

/-- **Grafting.** In a trie where `t` sits at path `p` only, hang the childless node `g` under the
free index `k` of `t`, all other nodes as before: the path `p ++ [k]` leads to `g`, and no other
path changes. -/
theorem follow_graft [DecidableEq I] {h' : F → I → Option F} {r t g : F} {p : List I} {k : I}
    {n : ℕ} (hp : follow h r p = some t)
    (huniq : ∀ q, q.length ≤ n → follow h r q = some t → q = p)
    (hfree : h t k = none) (ht : ∀ j, h' t j = if j = k then some g else h t j)
    (hg : ∀ j, h' g j = none)
    (hother : ∀ q u, q.length ≤ n → follow h r q = some u → u ≠ t → ∀ j, h' u j = h u j) :
    ∀ q : List I, q.length ≤ n + 1 →
      follow h' r q = if q = p ++ [k] then some g else follow h r q := by
  have hbelow : follow h r (p ++ [k]) = none := by rw [follow_concat, hp]; exact hfree
  intro q
  induction q using List.reverseRecOn with
  | nil => intro _; rw [if_neg (by simp)]; rfl
  | append_singleton q j ih =>
    intro hq
    rw [List.length_append, List.length_singleton] at hq
    have ih := ih (by omega)
    rw [follow_concat, ih, follow_concat]
    by_cases hqp : q = p ++ [k]
    · subst hqp
      rw [if_pos rfl, if_neg (by simp), hbelow]
      exact hg j
    rw [if_neg hqp]
    cases hu : follow h r q with
    | none =>
      rw [if_neg]
      · rfl
      · intro he
        rw [(List.append_inj' he rfl).1, hp] at hu
        cases hu
    | some u =>
      show h' u j = if _ then _ else h u j
      by_cases hut : u = t
      · have hqp' : q = p := huniq q (by omega) (by rw [hu, hut])
        rw [hut, ht j, hqp']
        simp
      · rw [hother q u (by omega) hu hut j, if_neg]
        intro he
        rw [(List.append_inj' he rfl).1, hp] at hu
        exact hut (Option.some.inj hu).symm

end UCore.Lib.Trie

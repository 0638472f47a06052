import UCore.Lib.Runs
import UCore.Proc.State

/-! # The task queue

`queue.c`: a ring of which `NPROC` places of the array are in use. It is full and it is empty when
`front == tail`; the flag `empty` tells which. What the ring holds is a list (`Holds`), from which
`pop_queue` takes the first element and to which `push_queue` adds at the end; so over every run the
elements come out in the order in which they went in (`queue_fifo`). -/

namespace UCore.Proc.Fifo

open UCore.Lib.Runs UCore.Proc.State

def QUEUE_SIZE : ℕ := 1024

/-- `struct queue`, its lock left out; `α` are the pointers other than `NULL`. -/
structure Queue (α : Type) where
  data : ℕ → α
  front : ℕ
  tail : ℕ
  empty : Bool

variable {α : Type}

/-! ### The code -/

/-- `init_queue(q)`. -/
def initQueue (q : Queue α) : Queue α := { q with front := 0, tail := 0, empty := true }

/-- `push_queue(q, data)`, or the text of the panic. -/
def pushQueue (q : Queue α) (data : α) : Except String (Queue α) :=
  if ¬ q.empty ∧ q.front = q.tail then .error "queue shouldn't be overflow"
  else .ok { q with
    empty := false
    data := Function.update q.data q.tail data
    tail := (q.tail + 1) % NPROC }

/-- `pop_queue(q)`. -/
def popQueue (q : Queue α) : Queue α × Option α :=
  if q.empty then (q, none)
  else
    let data := q.data q.front
    let front := (q.front + 1) % NPROC
    ({ q with front := front, empty := if front = q.tail then true else q.empty }, some data)

/-! ### The ring -/

/-- The ring holds the elements of `l`. -/
structure Holds (q : Queue α) (l : List α) : Prop where
  front_lt : q.front < NPROC
  tail : q.tail = (q.front + l.length) % NPROC
  length_le : l.length ≤ NPROC
  empty : q.empty = true ↔ l = []
  data : ∀ k < l.length, l[k]? = some (q.data ((q.front + k) % NPROC))

variable {q q' : Queue α} {l : List α} {a : α}

theorem holds_init (q : Queue α) : Holds (initQueue q) [] :=
  ⟨Nat.zero_lt_succ _, rfl, Nat.zero_le _, by simp [initQueue], by simp⟩

theorem Holds.tail_lt (h : Holds q l) : q.tail < NPROC := by
  rw [h.tail]
  exact Nat.mod_lt _ (by decide)

/-- Front and tail meet if nothing or everything is in use. -/
theorem Holds.meet (h : Holds q l) : q.front = q.tail ↔ l = [] ∨ l.length = NPROC := by
  have hf := h.front_lt
  have hl := h.length_le
  rw [h.tail, ← List.length_eq_zero_iff]
  unfold NPROC at *
  omega

/-- **`push_queue`** panics if everything is in use, and else adds at the end. -/
theorem Holds.push (h : Holds q l) (a : α) :
    (l.length = NPROC ∧ ∃ text, pushQueue q a = .error text) ∨
      l.length < NPROC ∧ ∃ q', pushQueue q a = .ok q' ∧ Holds q' (l ++ [a]) := by
  have hf := h.front_lt
  have hl := h.length_le
  have htail := h.tail
  unfold pushQueue
  by_cases hfull : l.length = NPROC
  · have hne : l ≠ [] := fun he => by
      rw [he] at hfull
      cases hfull
    refine Or.inl ⟨hfull, _, if_pos ⟨fun he => hne (h.empty.mp he), h.meet.mpr (Or.inr hfull)⟩⟩
  · have hok : ¬ (¬ q.empty ∧ q.front = q.tail) := by
      rintro ⟨he, hm⟩
      exact (h.meet.mp hm).elim (fun hnil => he (h.empty.mpr hnil)) hfull
    refine Or.inr ⟨by omega, _, if_neg hok, ⟨hf, ?_, ?_, by simp, fun k hk => ?_⟩⟩
    · rw [List.length_append, List.length_singleton]
      dsimp only
      unfold NPROC at *
      omega
    · rw [List.length_append, List.length_singleton]
      omega
    · rw [List.length_append, List.length_singleton] at hk
      dsimp only
      by_cases hlast : k = l.length
      · rw [hlast, ← htail, Function.update_self, List.getElem?_concat_length]
      · have hne : (q.front + k) % NPROC ≠ q.tail := by
          unfold NPROC at *
          omega
        rw [Function.update_of_ne hne, List.getElem?_append_left (by omega)]
        exact h.data k (by omega)

/-- **`pop_queue`** takes the first element. -/
theorem Holds.pop (h : Holds q l) : (popQueue q).2 = l.head? ∧ Holds (popQueue q).1 l.tail := by
  have hf := h.front_lt
  have htail := h.tail
  have hle := h.length_le
  unfold popQueue
  cases l with
  | nil =>
    rw [if_pos (h.empty.mpr rfl)]
    exact ⟨rfl, h⟩
  | cons a l =>
    have hne : ¬ q.empty = true := fun he => by cases h.empty.mp he
    have h0 := h.data 0 (by simp)
    rw [List.length_cons] at htail hle
    rw [if_neg hne]
    rw [Nat.add_zero, Nat.mod_eq_of_lt hf, List.getElem?_cons_zero] at h0
    refine ⟨h0.symm, ⟨Nat.mod_lt _ (by decide), ?_, ?_, ?_, fun k hk => ?_⟩⟩
    · change q.tail = ((q.front + 1) % NPROC + l.length) % NPROC
      unfold NPROC at *
      omega
    · change l.length ≤ NPROC
      omega
    · change (if (q.front + 1) % NPROC = q.tail then true else q.empty) = true ↔ l = []
      rw [← List.length_eq_zero_iff]
      split_ifs with hm
      · simp only [true_iff]
        unfold NPROC at *
        omega
      · refine iff_of_false hne fun h0 => hm ?_
        rw [htail, h0]
    · change l[k]? = some (q.data (((q.front + 1) % NPROC + k) % NPROC))
      have hk' : k < l.length := hk
      have hd := h.data (k + 1) (by rw [List.length_cons]; omega)
      rw [List.getElem?_cons_succ] at hd
      rw [hd, Nat.mod_add_mod, Nat.add_assoc, Nat.add_comm 1 k]

/-! ### Runs -/

/-- A call that returns: `push_queue` of an element, or `pop_queue` with what it gave. -/
inductive Event (α : Type)
  | push (a : α)
  | pop (a : Option α)

inductive Step : Queue α → Event α → Queue α → Prop
  | push {q q' : Queue α} {a : α} : pushQueue q a = .ok q' → Step q (.push a) q'
  | pop (q : Queue α) : Step q (.pop (popQueue q).2) (popQueue q).1

/-- The elements that were pushed, and those that were popped, in their order. -/
def pushed (events : List (Event α)) : List α :=
  events.filterMap fun
    | .push a => some a
    | .pop _ => none

def popped (events : List (Event α)) : List α :=
  events.filterMap fun
    | .push _ => none
    | .pop a => a

/-- What is queued: the elements pushed last, as many as were not popped. -/
def queued (events : List (Event α)) : List α := (pushed events).drop (popped events).length

/-- One step takes the first of the elements or adds one at the end. -/
theorem Holds.step {event : Event α} (h : Holds q l) (out : List α) (hstep : Step q event q') :
    ∃ l', Holds q' l' ∧ out ++ l ++ pushed [event] = out ++ popped [event] ++ l' := by
  cases hstep with
  | @push _ a hx =>
    obtain ⟨-, text, he⟩ | ⟨-, q₁, hok, hq⟩ := h.push a
    · rw [hx] at he
      cases he
    · rw [hx] at hok
      cases hok
      exact ⟨_, hq, by simp [pushed, popped]⟩
  | pop =>
    obtain ⟨ha, hq⟩ := h.pop
    refine ⟨_, hq, ?_⟩
    rw [ha]
    cases l with
    | nil => simp [pushed, popped]
    | cons a l => simp [pushed, popped]

theorem Holds.run {events : List (Event α)} (h : Holds q []) (hrun : Run Step q events q') :
    ∃ l, Holds q' l ∧ pushed events = popped events ++ l := by
  induction hrun with
  | refl => exact ⟨[], h, rfl⟩
  | @tail events event q₁ q₂ _ hstep ih =>
    obtain ⟨l, hl, he⟩ := ih
    obtain ⟨l', hl', he'⟩ := hl.step (popped events) hstep
    refine ⟨l', hl', ?_⟩
    unfold pushed popped at *
    rw [List.filterMap_append, List.filterMap_append, he]
    exact he'

/-- What its users may rely on, after the calls `events`. -/
structure Behaves (q : Queue α) (events : List (Event α)) : Prop where
  /-- What was popped is the beginning of what was pushed: in its order, each element once. -/
  order : popped events ++ queued events = pushed events
  length_le : (queued events).length ≤ NPROC
  /-- `pop_queue` gives the oldest element, and `NULL` if there is none. -/
  pop : (popQueue q).2 = (queued events).head?
  /-- `push_queue` panics if `NPROC` elements are queued, and only then. -/
  push : ∀ a, (∃ text, pushQueue q a = .error text) ↔ (queued events).length = NPROC
  front_lt : q.front < NPROC
  tail_lt : q.tail < NPROC

/-- **The queue is a FIFO** of capacity `NPROC`, in every run from `init_queue`. -/
theorem queue_fifo {q₀ : Queue α} {events : List (Event α)} (hrun : Run Step (initQueue q₀) events q) :
    Behaves q events := by
  obtain ⟨l, hl, he⟩ := (holds_init q₀).run hrun
  have hq : queued events = l := by
    unfold queued
    rw [he, List.drop_left]
  refine ⟨by rw [hq, he], ?_, ?_, fun a => ?_, hl.front_lt, hl.tail_lt⟩
  · rw [hq]
    exact hl.length_le
  · rw [hq]
    exact hl.pop.1
  · rw [hq]
    obtain ⟨hfull, herr⟩ | ⟨hlt, q', hok, -⟩ := hl.push a
    · exact ⟨fun _ => hfull, fun _ => herr⟩
    · refine ⟨fun ⟨text, herr⟩ => ?_, fun hfull => absurd hfull (by omega)⟩
      rw [hok] at herr
      cases herr

/-- Two elements, one of them popped. -/
theorem queue_fifo_sample : ∃ q : Queue ℕ, Behaves q [.push 7, .push 9, .pop (some 7)] :=
  ⟨_, @queue_fifo _ _ ⟨fun _ => 0, 5, 5, false⟩ _
    (((Run.single (Step.push rfl)).tail (Step.push rfl)).tail (Step.pop _))⟩

end UCore.Proc.Fifo

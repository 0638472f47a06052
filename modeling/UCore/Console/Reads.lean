import Mathlib.Algebra.Order.Ring.Int
import UCore.Console.Discipline
import UCore.Riscv

/-! # Reads of any length, to any buffer

`user_console_read` as `sys_read` calls it: with any 64-bit length and any buffer, so that a byte may
fail to be stored. The code keeps the length in a `uint` as well, to tell how much it has read; so its
result and its treatment of ^D are right for lengths from `0` below 2 ^ 32 and for no others
(`read_exact_iff`). A byte leaves the ring before it is stored, and is lost if the store fails; without
such a failure nothing is skipped (`nothing_skipped_iff`). The ring keeps its bounds throughout
(`ring_bounds`). -/

namespace UCore.Console.Reads

open UCore.Lib.Runs UCore.Console.Discipline
open UCore.Riscv (IS_USER_VA PGROUNDDOWN)
open UCore.Console.Input (Cons INPUT_BUF_SIZE C LF CR DEL uinc udec usub consintr)

/-! ### The code -/

/-- The variables of `user_console_read(buf, n)`: `n` is an `int64`, `target` a `uint`. -/
structure Vars where
  buf : ℕ
  n : ℤ
  target : ℕ

/-- `target = n;` -/
def startVars (buf : ℕ) (n : ℤ) : Vars := ⟨buf, n, (n % 2 ^ 32).toNat⟩

/-- `return target - n;` -/
def result (v : Vars) : ℤ := Int.bmod (v.target - v.n) (2 ^ 64)

/-- Where a process is in `user_console_read`. -/
inductive Place
  | idle
  /-- Before `acquire(&cons.lock)`, of the function or of `sleep`. -/
  | enter (v : Vars)
  /-- At the head of the loop, with the lock. -/
  | loop (v : Vars)
  /-- In `sleep(&cons, &cons.lock)`. -/
  | sleeping (v : Vars)
  /-- After the loop, with the lock. -/
  | leave (v : Vars)

/-- What can be seen of a step. -/
inductive Event (ι : Type)
  | input (c : ℕ)
  | call (i : ι) (buf : ℕ) (n : ℤ)
  /-- A byte is stored at an address of the process. -/
  | deliver (i : ι) (addr b : ℕ)
  /-- The store of a byte fails. -/
  | fail (i : ι) (addr b : ℕ)
  /-- The read finds ^D; it is kept or not. -/
  | eof (i : ι) (kept : Bool)
  | ret (i : ι) (k : ℤ)
  | quiet

/-- The loop body of `user_console_read` from `c = cons.buf[cons.r++ % INPUT_BUF_SIZE]` on; `copied`
is whether `copy_to_user` succeeds. -/
def readByte {ι : Type} (i : ι) (copied : Bool) (cons : Cons) (v : Vars) : Cons × Place × Event ι :=
  let c := cons.buf (cons.r % INPUT_BUF_SIZE)
  let cons := { cons with r := uinc cons.r }
  if c = C 'D' then
    if v.n < v.target then ({ cons with r := udec cons.r }, .leave v, .eof i true)
    else (cons, .leave v, .eof i false)
  else if copied then
    let v' : Vars := ⟨(v.buf + 1) % 2 ^ 64, v.n - 1, v.target⟩
    (cons, if c = LF then .leave v' else .loop v', .deliver i v.buf c)
  else (cons, .leave v, .fail i v.buf c)

/-- The bytes that are committed from `cons` to `cons'`. -/
def fresh (cons cons' : Cons) : List ℕ :=
  (List.range (usub cons'.w cons.w)).map fun k => cons'.buf ((cons.w + k) % INPUT_BUF_SIZE)

/-- The committed bytes in the ring. -/
def waiting (cons : Cons) : List ℕ :=
  (List.range (usub cons.w cons.r)).map fun k => cons.buf ((cons.r + k) % INPUT_BUF_SIZE)

/-! ### The system -/

/-- The console, who holds `cons.lock`, the readers, and all bytes committed so far. -/
structure Sys (ι : Type) where
  cons : Cons
  holder : Option ι
  place : ι → Place
  log : List ℕ

variable {ι : Type} [DecidableEq ι]

/-- The reader `i` moves on. -/
def Sys.move (s : Sys ι) (cons : Cons) (holder : Option ι) (i : ι) (pl : Place) : Sys ι :=
  ⟨cons, holder, Function.update s.place i pl, s.log⟩

/-- One step. Whether a store to the user succeeds is up to the page table of the moment; at an address
that `walkaddr` panics for there is no step. -/
inductive Step : Sys ι → Event ι → Sys ι → Prop
  | input {s : Sys ι} (c : ℕ) : s.holder = none → Step s (.input c)
    { s with cons := (consintr s.cons c).1, log := s.log ++ fresh s.cons (consintr s.cons c).1 }
  | call {s : Sys ι} (i : ι) (buf : ℕ) (n : ℤ) : s.place i = .idle → buf < 2 ^ 64 →
    -2 ^ 63 ≤ n → n < 2 ^ 63 →
    Step s (.call i buf n) (s.move s.cons s.holder i (.enter (startVars buf n)))
  | acquire {s : Sys ι} {v : Vars} (i : ι) : s.place i = .enter v → s.holder = none →
    Step s .quiet (s.move s.cons (some i) i (.loop v))
  | sleep {s : Sys ι} {v : Vars} (i : ι) : s.place i = .loop v → 0 < v.n →
    s.cons.r = s.cons.w → Step s .quiet (s.move s.cons none i (.sleeping v))
  | wake {s : Sys ι} {v : Vars} (i : ι) : s.place i = .sleeping v →
    Step s .quiet (s.move s.cons s.holder i (.enter v))
  | take {s : Sys ι} {v : Vars} {cons : Cons} {pl : Place} {event : Event ι} (i : ι) (copied : Bool) :
    s.place i = .loop v → 0 < v.n → s.cons.r ≠ s.cons.w →
    (s.cons.buf (s.cons.r % INPUT_BUF_SIZE) ≠ C 'D' → IS_USER_VA (PGROUNDDOWN v.buf)) →
    readByte i copied s.cons v = (cons, pl, event) → Step s event (s.move cons s.holder i pl)
  | stop {s : Sys ι} {v : Vars} (i : ι) : s.place i = .loop v → v.n ≤ 0 →
    Step s .quiet (s.move s.cons s.holder i (.leave v))
  | ret {s : Sys ι} {v : Vars} (i : ι) : s.place i = .leave v →
    Step s (.ret i (result v)) (s.move s.cons none i .idle)

/-- The console at boot. -/
def start : Sys ι := ⟨⟨fun _ => 0, 0, 0, 0⟩, none, fun _ => .idle, []⟩

variable {s s' : Sys ι} {event : Event ι} {events : List (Event ι)} {cons cons' : Cons}
  {line line' : Line ι} {i : ι} {c : ℕ}

/-! ### The ring -/

omit [DecidableEq ι] in
/-- A stretch of the log that is still in the ring. -/
theorem ring_stretch (h : Holds cons line) {a n : ℕ} (ha : line.taken.length ≤ a)
    (hn : a + n = line.log.length) :
    ((List.range n).map fun k => cons.buf ((a % 2 ^ 32 + k) % INPUT_BUF_SIZE)) = line.log.drop a := by
  refine List.ext_getElem? fun k => ?_
  rw [List.getElem?_map, List.getElem?_drop]
  by_cases hk : k < n
  · have hb := h.byte (a + k) (by omega) (by omega)
    have hidx : (a % 2 ^ 32 + k) % INPUT_BUF_SIZE = (a + k) % 128 := by
      unfold INPUT_BUF_SIZE
      omega
    rw [List.getElem?_append_left (by omega)] at hb
    rw [List.getElem?_range hk, hb, ← hidx]
    rfl
  · rw [List.getElem?_eq_none (by rw [List.length_range]; omega), List.getElem?_eq_none (by omega)]
    rfl

omit [DecidableEq ι] in
theorem ring_committed (h : Holds cons line) :
    usub cons.w cons.r = line.log.length - line.taken.length := by
  have hle := h.taken_le
  have hfit := h.fits
  rw [h.w, h.r]
  unfold usub
  omega

omit [DecidableEq ι] in
/-- The bytes between `r` and `w` are the committed ones. -/
theorem ring_waiting (h : Holds cons line) : waiting cons = line.committed := by
  have hle := h.taken_le
  unfold waiting
  rw [ring_committed h, h.r]
  exact ring_stretch h le_rfl (by omega)

omit [DecidableEq ι] in
/-- The bytes between the old and the new `w` are those that the log has grown by. -/
theorem ring_fresh (h : Holds cons line) (h' : Holds cons' line') (hlog : line.log <+: line'.log)
    (htaken : line'.taken.length ≤ line.log.length) : line'.log = line.log ++ fresh cons cons' := by
  have hlen := hlog.length_le
  have hfit := h'.fits
  have hn : usub cons'.w cons.w = line'.log.length - line.log.length := by
    rw [h'.w, h.w]
    unfold usub
    omega
  unfold fresh
  rw [hn, h.w, ring_stretch h' htaken (by omega)]
  exact (List.prefix_iff_eq_append.mp hlog).symm

/-! ### What is taken -/

/-- The bytes delivered, with the ends of file. -/
def delivered (events : List (Event ι)) : List ℕ :=
  events.filterMap fun
    | .deliver _ _ b => some b
    | .eof _ false => some (C 'D')
    | _ => none

/-- The bytes taken out of the ring. -/
def takenBytes (events : List (Event ι)) : List ℕ :=
  events.filterMap fun
    | .deliver _ _ b => some b
    | .fail _ _ b => some b
    | .eof _ false => some (C 'D')
    | _ => none

omit [DecidableEq ι] in
/-- One event more: it delivers what it takes, or it is a store that fails. -/
theorem taken_cons (event : Event ι) (events : List (Event ι)) :
    (∃ l, delivered (event :: events) = l ++ delivered events ∧
      takenBytes (event :: events) = l ++ takenBytes events ∧ ∀ i addr b, event ≠ .fail i addr b) ∨
    ∃ i addr b, event = .fail i addr b ∧ delivered (event :: events) = delivered events ∧
      takenBytes (event :: events) = b :: takenBytes events := by
  cases event with
  | deliver i addr b => exact Or.inl ⟨[b], rfl, rfl, by simp⟩
  | fail i addr b => exact Or.inr ⟨i, addr, b, rfl, rfl, rfl⟩
  | eof i kept =>
    cases kept with
    | true => exact Or.inl ⟨[], rfl, rfl, by simp⟩
    | false => exact Or.inl ⟨[C 'D'], rfl, rfl, by simp⟩
  | _ => exact Or.inl ⟨[], rfl, rfl, by simp⟩

omit [DecidableEq ι] in
theorem delivered_length_le : ∀ events : List (Event ι),
    (delivered events).length ≤ (takenBytes events).length
  | [] => le_rfl
  | event :: events => by
    have ih := delivered_length_le events
    obtain ⟨l, hd, ht, -⟩ | ⟨i, addr, b, -, hd, ht⟩ := taken_cons event events
    · rw [hd, ht, List.length_append, List.length_append]
      omega
    · rw [hd, ht, List.length_cons]
      omega

omit [DecidableEq ι] in
/-- **What is taken is delivered** if no store fails, and only then. -/
theorem delivered_eq_iff : ∀ events : List (Event ι),
    delivered events = takenBytes events ↔ ∀ i addr b, Event.fail i addr b ∉ events
  | [] => iff_of_true rfl (by simp)
  | event :: events => by
    have ih := delivered_eq_iff events
    obtain ⟨l, hd, ht, hne⟩ | ⟨i, addr, b, rfl, hd, ht⟩ := taken_cons event events
    · rw [hd, ht, List.append_cancel_left_eq, ih]
      refine forall_congr' fun i => forall_congr' fun addr => forall_congr' fun b => not_congr ?_
      rw [List.mem_cons]
      exact (or_iff_right (hne i addr b).symm).symm
    · refine iff_of_false (fun he => ?_) fun hno => hno i addr b (List.mem_cons_self ..)
      have hlen := congrArg List.length he
      have := delivered_length_le events
      rw [hd, ht, List.length_cons] at hlen
      omega

/-! ### The invariant -/

/-- A line being typed is never full. -/
def Room (line : Line ι) : Prop :=
  line.pending ≠ [] → line.committed.length + line.pending.length < 128

omit [DecidableEq ι] in
theorem Room.input (h : Room line) (c : ℕ) : Room (line.input c) := by
  unfold Room Line.input
  generalize (if c = CR then LF else c) = b
  dsimp only
  split_ifs with hP hU hH hroom hcommit
  · exact h
  · exact fun hne => absurd rfl hne
  · intro hne
    have hlen : line.pending.dropLast.length = line.pending.length - 1 := List.length_dropLast
    have hlt := h fun hnil => hne (by simp [hnil])
    change line.committed.length + line.pending.dropLast.length < 128
    omega
  · exact fun hne => absurd rfl hne
  · intro _
    change line.committed.length + (line.pending ++ [b]).length < 128
    rw [not_or, not_or] at hcommit
    have hne := hcommit.2.2
    rw [List.length_append, List.length_singleton] at hne ⊢
    omega
  · exact h

omit [DecidableEq ι] in
theorem Room.take (h : Room line) (i : ι) : Room (line.take i) := by
  intro hne
  have hlt := h hne
  unfold Line.take Line.committed at *
  rw [List.length_drop] at *
  dsimp only
  rw [List.length_append]
  omega

/-- The ring holds a line, and the first bytes of its log are those taken. -/
structure Inv (s : Sys ι) (events : List (Event ι)) (line : Line ι) : Prop where
  holds : Holds s.cons line
  log : line.log = s.log
  taken : takenBytes events = line.log.take line.taken.length
  room : Room line

omit [DecidableEq ι] in
theorem inv_start : Inv (start : Sys ι) [] ⟨[], [], []⟩ :=
  ⟨(@sim_start ι fun _ _ => true).holds, rfl, rfl, fun hne => absurd rfl hne⟩

omit [DecidableEq ι] in
theorem takenBytes_append (events events' : List (Event ι)) :
    takenBytes (events ++ events') = takenBytes events ++ takenBytes events' :=
  List.filterMap_append ..

omit [DecidableEq ι] in
/-- What the loop body does to the ring: ^D is put back, or the byte is gone. -/
theorem readByte_ring {copied : Bool} {v : Vars} {pl : Place}
    (hback : udec (uinc cons.r) = cons.r) (hread : readByte i copied cons v = (cons', pl, event)) :
    cons' = cons ∧ takenBytes [event] = [] ∨ cons' = { cons with r := uinc cons.r } ∧
      takenBytes [event] = [cons.buf (cons.r % INPUT_BUF_SIZE)] := by
  unfold readByte at hread
  dsimp only at hread
  by_cases hD : cons.buf (cons.r % INPUT_BUF_SIZE) = C 'D'
  · rw [if_pos hD] at hread
    split_ifs at hread with hkept
    · obtain ⟨rfl, -, rfl⟩ := hread
      exact Or.inl ⟨by rw [hback], rfl⟩
    · obtain ⟨rfl, -, rfl⟩ := hread
      exact Or.inr ⟨rfl, by rw [hD]; rfl⟩
  · rw [if_neg hD] at hread
    cases copied with
    | true =>
      obtain ⟨rfl, -, rfl⟩ := hread
      exact Or.inr ⟨rfl, rfl⟩
    | false =>
      obtain ⟨rfl, -, rfl⟩ := hread
      exact Or.inr ⟨rfl, rfl⟩

/-- **One step** keeps the invariant. -/
theorem Inv.step (h : Inv s events line) (hstep : Step s event s') :
    ∃ line', Inv s' (events ++ [event]) line' := by
  obtain ⟨hholds, hlog, htaken, hroom⟩ := h
  have same : takenBytes [event] = [] → s'.cons = s.cons → s'.log = s.log →
      ∃ line', Inv s' (events ++ [event]) line' := fun hev hc hl => by
    refine ⟨line, hc ▸ hholds, by rw [hl, hlog], ?_, hroom⟩
    rw [takenBytes_append, hev, List.append_nil, htaken]
  cases hstep with
  | input c hfree =>
    refine ⟨line.input c, hholds.input c, ?_, ?_, hroom.input c⟩
    · rw [← hlog]
      refine ring_fresh hholds (hholds.input c) (line.input_log c) ?_
      rw [line.input_taken c]
      exact hholds.taken_le
    · obtain ⟨rest, hrest⟩ := line.input_log c
      rw [takenBytes_append, line.input_taken c, ← hrest, List.take_append_of_le_length hholds.taken_le,
        ← htaken]
      exact List.append_nil _
  | @take v cons pl _ i copied hi hn hrw _ hread =>
    obtain ⟨hhead, hnext, hback⟩ := hholds.take hrw i
    rcases readByte_ring hback hread with ⟨rfl, hev⟩ | ⟨rfl, hev⟩
    · exact same hev rfl rfl
    · refine ⟨line.take i, hnext, hlog, ?_, hroom.take i⟩
      have hb := hhead
      rw [Line.committed, List.head?_drop] at hb
      change _ = line.log.take (line.taken ++ [i]).length
      rw [takenBytes_append, hev, htaken, List.length_append, List.length_singleton, List.take_add_one, hb]
      rfl
  | _ => exact same rfl rfl rfl

/-- **Every run** keeps the invariant. -/
theorem inv_run (hrun : Run Step start events s) : ∃ line, Inv s events line := by
  induction hrun with
  | refl => exact ⟨_, inv_start⟩
  | tail _ hstep ih =>
    obtain ⟨line, h⟩ := ih
    exact h.step hstep

/-! ### Nothing is skipped -/

/-- **The committed bytes are delivered in their order, and the rest is still there**, if no store to a
user buffer fails, and only then. -/
theorem nothing_skipped_iff (hrun : Run Step start events s) :
    delivered events ++ waiting s.cons = s.log ↔ ∀ i addr b, Event.fail i addr b ∉ events := by
  obtain ⟨line, h⟩ := inv_run hrun
  have htaken : takenBytes events ++ waiting s.cons = s.log := by
    rw [ring_waiting h.holds, h.taken, ← h.log]
    exact List.take_append_drop _ _
  rw [← delivered_eq_iff, ← htaken]
  exact List.append_left_inj _

/-- A line of two bytes is typed, and the first one is delivered. -/
theorem nothing_skipped_iff_sample : ∃ (events : List (Event Unit)) (s : Sys Unit),
    Run Step start events s ∧ delivered events = ['a'.toNat] ∧ waiting s.cons = [LF] ∧
      delivered events ++ waiting s.cons = s.log := by
  have hrun : Run Step start _ _ := ((((Run.single (Step.input 'a'.toNat rfl)).tail
    (Step.input LF rfl)).tail (Step.call () 0 1 rfl (by decide) (by decide) (by decide))).tail
    (Step.acquire () rfl rfl)).tail (Step.take () true rfl (by decide) (by decide) (by decide) rfl)
  exact ⟨_, _, hrun, rfl, rfl, (nothing_skipped_iff hrun).mpr fun i addr b hfail => by simp at hfail⟩

/-- **A byte is lost**: a line of two bytes, and a read whose buffer is not mapped. -/
theorem byte_lost : ∃ (events : List (Event Unit)) (s : Sys Unit), Run Step start events s ∧
    delivered events = [] ∧ s.log = ['a'.toNat, LF] ∧ waiting s.cons = [LF] ∧
    delivered events ++ waiting s.cons ≠ s.log := by
  refine ⟨_, _, (((((Run.single (Step.input 'a'.toNat rfl)).tail (Step.input LF rfl)).tail
    (Step.call () 0 2 rfl (by decide) (by decide) (by decide))).tail (Step.acquire () rfl rfl)).tail
    (Step.take () false rfl (by decide) (by decide) (by decide) rfl)).tail (Step.ret () rfl), ?_⟩
  decide

/-! ### The bounds of the ring -/

/-- The bytes that `consintr` acts on, and `NUL`, which it ignores. -/
def Control (c : ℕ) : Prop := c = C 'P' ∨ c = C 'U' ∨ c = C 'H' ∨ c = DEL ∨ c = 0

/-- **The ring keeps its bounds**: `w - r ≤ e - r ≤ 128`, and a full ring is committed. So there is room
while a reader waits, and a byte that is no control character is taken in. -/
theorem ring_bounds (hrun : Run Step start events s) :
    usub s.cons.w s.cons.r ≤ usub s.cons.e s.cons.r ∧ usub s.cons.e s.cons.r ≤ 128 ∧
    (usub s.cons.e s.cons.r = 128 → s.cons.w = s.cons.e) ∧
    (s.cons.r = s.cons.w → usub s.cons.e s.cons.r < 128 ∧ ∀ c, ¬ Control c →
      (consintr s.cons c).1.e = uinc s.cons.e ∧
      (consintr s.cons c).1.buf (s.cons.e % INPUT_BUF_SIZE) = if c = CR then LF else c) := by
  obtain ⟨line, h⟩ := inv_run hrun
  obtain ⟨-, hsize, hew, hrw⟩ := h.holds.sizes
  have hw := ring_committed h.holds
  have hle := h.holds.taken_le
  have hfit := h.holds.fits
  have hlen : line.committed.length = line.log.length - line.taken.length := List.length_drop
  have hfull : usub s.cons.e s.cons.r = 128 → s.cons.w = s.cons.e := fun h128 => by
    by_contra hne
    have := h.room fun hnil => hne (hew.mpr hnil).symm
    omega
  refine ⟨by omega, by omega, hfull, fun hwait => ?_⟩
  have hroom : usub s.cons.e s.cons.r < 128 := by
    refine lt_of_le_of_ne (by omega) fun h128 => ?_
    have hnil := hew.mp (hfull h128).symm
    have h0 := hrw.mp hwait
    rw [hnil, List.length_nil] at hsize
    omega
  refine ⟨hroom, fun c hc => ?_⟩
  unfold Control at hc
  simp only [not_or] at hc
  unfold consintr
  rw [if_neg hc.1, if_neg hc.2.1, if_neg (not_or.mpr ⟨hc.2.2.1, hc.2.2.2.1⟩),
    if_pos ⟨hc.2.2.2.2, hroom⟩]
  dsimp only
  split_ifs
  all_goals exact ⟨rfl, Function.update_self ..⟩

/-- A byte is typed and a reader sleeps; the next byte is taken in. -/
theorem ring_bounds_sample : ∃ (events : List (Event Unit)) (s : Sys Unit), Run Step start events s ∧
    s.place () = .sleeping (startVars 0 1) ∧ s.cons.e = 1 ∧ usub s.cons.e s.cons.r < 128 ∧
      (consintr s.cons 'b'.toNat).1.e = 2 ∧ (consintr s.cons 'b'.toNat).1.buf 1 = 'b'.toNat := by
  have hrun : Run Step start _ _ := (((Run.single (Step.input 'a'.toNat rfl)).tail
    (Step.call () 0 1 rfl (by decide) (by decide) (by decide))).tail (Step.acquire () rfl rfl)).tail
    (Step.sleep () rfl (by decide) rfl)
  obtain ⟨-, -, -, hwait⟩ := ring_bounds hrun
  obtain ⟨hroom, htaken⟩ := hwait rfl
  obtain ⟨he, hbyte⟩ := htaken 'b'.toNat (by unfold Control; decide)
  exact ⟨_, _, hrun, rfl, rfl, hroom, he, hbyte⟩

/-- **`NUL` is dropped** while a reader waits. -/
theorem nul_dropped : ∃ (events : List (Event Unit)) (s : Sys Unit), Run Step start events s ∧
    s.place () = .sleeping (startVars 0 1) ∧ s.cons.r = s.cons.w ∧
    (consintr s.cons 0).1.e = s.cons.e :=
  ⟨_, _, ((Run.single (Step.call () 0 1 rfl (by decide) (by decide) (by decide))).tail
    (Step.acquire () rfl rfl)).tail (Step.sleep () rfl (by decide) rfl), rfl, rfl, by decide⟩

/-! ### The result -/

/-- A call of `user_console_read`: its length, how many bytes it has delivered, and whether it has kept
the ^D that it found. -/
structure Call where
  n : ℤ
  got : ℕ
  eof : Option Bool

/-- What an event is for the call of `i`. -/
def track (i : ι) (call : Option Call) : Event ι → Option Call
  | .call j _ n => if j = i then some ⟨n, 0, none⟩ else call
  | .deliver j _ _ => if j = i then call.map fun call => { call with got := call.got + 1 } else call
  | .eof j kept => if j = i then call.map fun call => { call with eof := some kept } else call
  | .ret j _ => if j = i then none else call
  | _ => call

/-- The call of `i` that has not returned. -/
def callOf (events : List (Event ι)) (i : ι) : Option Call := events.foldl (track i) none

/-- The result is the number of bytes delivered, and ^D is kept if there was one. -/
structure Exact (call : Call) (k : ℤ) : Prop where
  result : k = call.got
  eof : ∀ kept, call.eof = some kept → (kept = true ↔ 0 < call.got)

/-- The variables of the code in a call. -/
structure Progress (call : Call) (v : Vars) : Prop where
  ge : -2 ^ 63 ≤ call.n
  lt : call.n < 2 ^ 63
  target : (v.target : ℤ) = call.n % 2 ^ 32
  left : v.n + call.got = call.n
  got : call.got = 0 ∨ 0 ≤ v.n

/-- Where the code is in a call. -/
inductive Tracks : Place → Option Call → Prop
  | idle : Tracks .idle none
  | enter {call : Call} {v : Vars} : Progress call v → call.eof = none → Tracks (.enter v) (some call)
  | loop {call : Call} {v : Vars} : Progress call v → call.eof = none → Tracks (.loop v) (some call)
  | sleeping {call : Call} {v : Vars} : Progress call v → call.eof = none →
    Tracks (.sleeping v) (some call)
  | leave {call : Call} {v : Vars} : Progress call v →
    (∀ kept, call.eof = some kept → (kept = true ↔ v.n < v.target)) → Tracks (.leave v) (some call)

/-- **The arithmetic of `target - n`**: it is the number of bytes delivered for the lengths that `target`
can hold. -/
theorem Progress.exact_iff {call : Call} {v : Vars} (h : Progress call v)
    (heof : ∀ kept, call.eof = some kept → (kept = true ↔ v.n < v.target)) :
    Exact call (result v) ↔ 0 ≤ call.n ∧ call.n < 2 ^ 32 := by
  obtain ⟨hge, hlt, htarget, hleft, hgot⟩ := h
  have hk : result v = call.got ↔ 0 ≤ call.n ∧ call.n < 2 ^ 32 := by
    unfold result
    rw [Int.bmod_def, htarget]
    omega
  refine ⟨fun hx => hk.mp hx.result, fun hn => ⟨hk.mpr hn, fun kept hkept => ?_⟩⟩
  rw [heof kept hkept, htarget]
  omega

omit [DecidableEq ι] in
theorem Progress.start {n : ℤ} (hge : -2 ^ 63 ≤ n) (hlt : n < 2 ^ 63) (buf : ℕ) :
    Progress ⟨n, 0, none⟩ (startVars buf n) := by
  refine ⟨hge, hlt, ?_, add_zero n, Or.inl rfl⟩
  exact Int.toNat_of_nonneg (Int.emod_nonneg _ (by decide))

omit [DecidableEq ι] in
theorem Progress.deliver {call : Call} {v : Vars} (h : Progress call v) (hn : 0 < v.n) (buf : ℕ) :
    Progress { call with got := call.got + 1 } ⟨buf, v.n - 1, v.target⟩ := by
  have hleft := h.left
  refine ⟨h.ge, h.lt, h.target, ?_, Or.inr ?_⟩
  · push_cast
    omega
  · dsimp only
    omega

/-- The loop body is for the call what it is for the console. -/
theorem readByte_tracks {copied : Bool} {call : Call} {v : Vars} {pl : Place} (h : Progress call v)
    (heof : call.eof = none) (hn : 0 < v.n) (hread : readByte i copied cons v = (cons', pl, event)) :
    Tracks pl (track i (some call) event) ∧ ∀ j call, i ≠ j → track j call event = call := by
  have no_eof : ∀ kept, call.eof = some kept → ∀ p : Prop, p := fun kept hkept => by
    rw [heof] at hkept
    exact absurd hkept nofun
  unfold readByte at hread
  dsimp only at hread
  by_cases hD : cons.buf (cons.r % INPUT_BUF_SIZE) = C 'D'
  · rw [if_pos hD] at hread
    split_ifs at hread with hkept
    · obtain ⟨-, rfl, rfl⟩ := hread
      refine ⟨?_, fun j call hij => if_neg hij⟩
      rw [track, if_pos rfl]
      refine Tracks.leave ⟨h.ge, h.lt, h.target, h.left, h.got⟩ ?_
      rintro _ ⟨⟩
      exact iff_of_true rfl hkept
    · obtain ⟨-, rfl, rfl⟩ := hread
      refine ⟨?_, fun j call hij => if_neg hij⟩
      rw [track, if_pos rfl]
      refine Tracks.leave ⟨h.ge, h.lt, h.target, h.left, h.got⟩ ?_
      rintro _ ⟨⟩
      exact iff_of_false nofun hkept
  · rw [if_neg hD] at hread
    cases copied with
    | true =>
      obtain ⟨-, rfl, rfl⟩ := hread
      refine ⟨?_, fun j call hij => if_neg hij⟩
      have hnext := h.deliver hn ((v.buf + 1) % 2 ^ 64)
      rw [track, if_pos rfl]
      by_cases hLF : cons.buf (cons.r % INPUT_BUF_SIZE) = LF
      · rw [if_pos hLF]
        exact Tracks.leave hnext fun kept hkept => no_eof kept hkept _
      · rw [if_neg hLF]
        exact Tracks.loop hnext heof
    | false =>
      obtain ⟨-, rfl, rfl⟩ := hread
      exact ⟨Tracks.leave h fun kept hkept => no_eof kept hkept _, fun _ _ _ => rfl⟩

/-- A step of one reader is that step for its call. -/
theorem tracks_move (h : ∀ i, Tracks (s.place i) (callOf events i)) {holder : Option ι} {pl : Place}
    (hself : Tracks pl (track i (callOf events i) event))
    (hother : ∀ j call, i ≠ j → track j call event = call) (j : ι) :
    Tracks ((s.move cons holder i pl).place j) (callOf (events ++ [event]) j) := by
  have happend : callOf (events ++ [event]) j = track j (callOf events j) event := by
    unfold callOf
    rw [List.foldl_append]
    rfl
  rw [happend, Sys.move]
  dsimp only
  rcases eq_or_ne i j with rfl | hij
  · rw [Function.update_self]
    exact hself
  · rw [Function.update_of_ne hij.symm, hother j _ hij]
    exact h j

omit [DecidableEq ι] in
/-- Before the end of a read its call has begun, and has met no ^D. -/
theorem Tracks.open {call : Option Call} {v : Vars} {pl : Place} (h : Tracks pl call)
    (hpl : pl = .enter v ∨ pl = .loop v ∨ pl = .sleeping v) :
    ∃ c, call = some c ∧ Progress c v ∧ c.eof = none := by
  rcases hpl with rfl | rfl | rfl
  · rcases h with _ | ⟨hp, heof⟩
    exact ⟨_, rfl, hp, heof⟩
  · rcases h with _ | _ | ⟨hp, heof⟩
    exact ⟨_, rfl, hp, heof⟩
  · rcases h with _ | _ | _ | ⟨hp, heof⟩
    exact ⟨_, rfl, hp, heof⟩

/-- **One step** keeps the calls in line with the code. -/
theorem tracks_step (h : ∀ i, Tracks (s.place i) (callOf events i)) (hstep : Step s event s') (j : ι) :
    Tracks (s'.place j) (callOf (events ++ [event]) j) := by
  have quiet : ∀ (i : ι) (holder : Option ι) (pl : Place), Tracks pl (callOf events i) →
      Tracks ((s.move s.cons holder i pl).place j) (callOf (events ++ [.quiet]) j) :=
    fun i holder pl hpl => tracks_move h hpl (fun _ _ _ => rfl) j
  have opened : ∀ (i : ι) (v : Vars) (pl : Place), s.place i = pl →
      pl = .enter v ∨ pl = .loop v ∨ pl = .sleeping v →
      ∃ c, callOf events i = some c ∧ Progress c v ∧ c.eof = none :=
    fun i v pl hi hpl => (hi ▸ h i : Tracks pl _).open hpl
  cases hstep with
  | input c _ =>
    have hj := h j
    unfold callOf at *
    rw [List.foldl_append]
    exact hj
  | call i buf n hi _ hge hlt =>
    have hother : ∀ j call, i ≠ j → track j call (.call i buf n) = call :=
      fun j call hij => if_neg hij
    refine tracks_move h ?_ hother j
    rw [track, if_pos rfl]
    exact Tracks.enter (Progress.start hge hlt buf) rfl
  | acquire i hi _ =>
    obtain ⟨c, hc, hp, heof⟩ := opened i _ _ hi (Or.inl rfl)
    exact quiet i _ _ (hc ▸ Tracks.loop hp heof)
  | sleep i hi _ _ =>
    obtain ⟨c, hc, hp, heof⟩ := opened i _ _ hi (Or.inr (Or.inl rfl))
    exact quiet i _ _ (hc ▸ Tracks.sleeping hp heof)
  | wake i hi =>
    obtain ⟨c, hc, hp, heof⟩ := opened i _ _ hi (Or.inr (Or.inr rfl))
    exact quiet i _ _ (hc ▸ Tracks.enter hp heof)
  | take i copied hi hn _ _ hread =>
    obtain ⟨c, hc, hp, heof⟩ := opened i _ _ hi (Or.inr (Or.inl rfl))
    obtain ⟨hself, hother⟩ := readByte_tracks hp heof hn hread
    exact tracks_move h (hc ▸ hself) hother j
  | stop i hi _ =>
    obtain ⟨c, hc, hp, heof⟩ := opened i _ _ hi (Or.inr (Or.inl rfl))
    refine quiet i _ _ (hc ▸ Tracks.leave hp fun kept hkept => ?_)
    rw [heof] at hkept
    exact absurd hkept nofun
  | @ret v i hi =>
    have hother : ∀ j call, i ≠ j → track j call (.ret i (result v)) = call :=
      fun j call hij => if_neg hij
    refine tracks_move h ?_ hother j
    rw [track, if_pos rfl]
    exact Tracks.idle

/-- **Every run** does. -/
theorem tracks_run (hrun : Run Step start events s) : ∀ i, Tracks (s.place i) (callOf events i) := by
  induction hrun with
  | refl => exact fun _ => Tracks.idle
  | tail _ hstep ih => exact tracks_step ih hstep

omit [DecidableEq ι] in
/-- What the loop body reports. -/
theorem readByte_event {copied : Bool} {v : Vars} {pl : Place}
    (hread : readByte i copied cons v = (cons', pl, event)) :
    (∃ b, event = .deliver i v.buf b ∨ event = .fail i v.buf b) ∨
    cons.buf (cons.r % INPUT_BUF_SIZE) = C 'D' ∧
      (event = .eof i true ∧ cons' = { cons with r := udec (uinc cons.r) } ∨
        event = .eof i false ∧ cons' = { cons with r := uinc cons.r }) := by
  unfold readByte at hread
  dsimp only at hread
  by_cases hD : cons.buf (cons.r % INPUT_BUF_SIZE) = C 'D'
  · refine Or.inr ⟨hD, ?_⟩
    rw [if_pos hD] at hread
    split_ifs at hread with hkept
    · obtain ⟨rfl, -, rfl⟩ := hread
      exact Or.inl ⟨rfl, rfl⟩
    · obtain ⟨rfl, -, rfl⟩ := hread
      exact Or.inr ⟨rfl, rfl⟩
  · rw [if_neg hD] at hread
    cases copied with
    | true =>
      obtain ⟨-, -, rfl⟩ := hread
      exact Or.inl ⟨_, Or.inl rfl⟩
    | false =>
      obtain ⟨-, -, rfl⟩ := hread
      exact Or.inl ⟨_, Or.inr rfl⟩

/-- **^D is the first byte in the ring** when a read meets it; it stays there if it is kept. -/
theorem eof_waiting (hrun : Run Step start events s) {kept : Bool}
    (hstep : Step s (.eof i kept) s') : (waiting s.cons).head? = some (C 'D') ∧
      waiting s'.cons = if kept then waiting s.cons else (waiting s.cons).tail := by
  obtain ⟨line, h⟩ := inv_run hrun
  cases hstep with
  | @take v cons pl _ j copied _ _ hrw _ hread =>
    obtain ⟨hhead, hnext, hback⟩ := h.holds.take hrw i
    have hwait := ring_waiting h.holds
    change _ ∧ waiting cons = _
    rcases readByte_event hread with ⟨b, heq | heq⟩ | ⟨hD, ⟨heq, rfl⟩ | ⟨heq, rfl⟩⟩
    · exact absurd heq nofun
    · exact absurd heq nofun
    · obtain ⟨-, rfl⟩ := heq
      rw [hwait, hhead, hD, hback]
      exact ⟨rfl, hwait⟩
    · obtain ⟨-, rfl⟩ := heq
      rw [hwait, hhead, hD, ring_waiting hnext]
      refine ⟨rfl, ?_⟩
      change line.log.drop (line.taken ++ [i]).length = (line.log.drop line.taken.length).tail
      rw [List.tail_drop, List.length_append]
      rfl

/-- **A read of `n` bytes is exact for `0 ≤ n < 2 ^ 32`, and for no other `n`**: it returns how many bytes
it has stored, and has kept the ^D that it met if and only if it had stored some. A ^D that is kept stays
the first byte in the ring, one that is not kept is gone. -/
theorem read_exact_iff (hrun : Run Step start events s) :
    (∀ i k s', Step s (.ret i k) s' → ∃ call, callOf events i = some call ∧
      (Exact call k ↔ 0 ≤ call.n ∧ call.n < 2 ^ 32)) ∧
    ∀ i kept s', Step s (.eof i kept) s' → (waiting s.cons).head? = some (C 'D') ∧
      waiting s'.cons = if kept then waiting s.cons else (waiting s.cons).tail := by
  constructor
  · intro i k s' hstep
    have ht := tracks_run hrun i
    cases hstep with
    | ret _ hi =>
      rw [hi] at ht
      generalize callOf events i = call at ht
      rcases ht with _ | _ | _ | _ | ⟨hp, heof⟩
      exact ⟨_, rfl, hp.exact_iff heof⟩
    | take _ _ _ _ _ _ hread =>
      rcases readByte_event hread with ⟨b, heq | heq⟩ | ⟨-, ⟨heq, -⟩ | ⟨heq, -⟩⟩
      all_goals exact absurd heq nofun
  · exact fun i kept s' hstep => eof_waiting hrun hstep

theorem Step.ret_result {v : Vars} {k : ℤ} (hi : s.place i = .leave v) (hk : result v = k) :
    Step s (.ret i k) (s.move s.cons none i .idle) := hk ▸ Step.ret i hi

/-- A read of one byte returns 1. -/
theorem read_exact_iff_sample : ∃ (events : List (Event Unit)) (s : Sys Unit), Run Step start events s ∧
    ∃ call, callOf events () = some call ∧ Exact call 1 := by
  have hrun : Run Step start _ _ := ((((Run.single (Step.input LF rfl)).tail
    (Step.call () 0 1 rfl (by decide) (by decide) (by decide))).tail (Step.acquire () rfl rfl)).tail
    (Step.take () true rfl (by decide) (by decide) (by decide) rfl))
  obtain ⟨call, hcall, hexact⟩ := (read_exact_iff hrun).1 () 1 _
    (Step.ret_result (rfl : _ = Place.leave ⟨1, 0, 1⟩) (by decide))
  refine ⟨_, _, hrun, call, hcall, hexact.mpr ?_⟩
  obtain rfl : call = ⟨1, 1, none⟩ := (Option.some.inj hcall).symm
  decide

/-- **A length that `target` does not hold**: a read of -1 bytes stores none and returns 2 ^ 32; and a read
of 2 ^ 32 bytes that has stored one consumes the ^D it meets, and returns 1 - 2 ^ 32. -/
theorem length_truncated :
    (∃ (events : List (Event Unit)) (s s' : Sys Unit), Run Step start events s ∧
      callOf events () = some ⟨-1, 0, none⟩ ∧ Step s (.ret () (2 ^ 32)) s') ∧
    ∃ (events : List (Event Unit)) (s s' : Sys Unit), Run Step start events s ∧
      callOf events () = some ⟨2 ^ 32, 1, some false⟩ ∧ Step s (.ret () (1 - 2 ^ 32)) s' := by
  constructor
  · exact ⟨_, _, _, (((Run.single (Step.call () 0 (-1) rfl (by decide) (by decide)
      (by decide))).tail (Step.acquire () rfl rfl)).tail (Step.stop () rfl (by decide))), rfl,
      Step.ret_result (rfl : _ = Place.leave (startVars 0 (-1))) (by decide)⟩
  · have hcall : Run (@Step Unit _) start _ _ := (((Run.single (Step.input 'a'.toNat rfl)).tail
      (Step.input (C 'D') rfl)).tail (Step.call () 0 4294967296 rfl (by decide) (by decide)
      (by decide))).tail (Step.acquire () rfl rfl)
    have hfirst := hcall.tail (Step.take () true rfl (by decide) (by decide) (by decide) rfl)
    have hsecond := hfirst.tail (Step.take () true rfl (by decide) (by decide) (by decide) rfl)
    exact ⟨_, _, _, hsecond, rfl, Step.ret_result (rfl : _ = Place.leave
      ⟨(0 + 1) % 2 ^ 64, 4294967295, (startVars 0 4294967296).target⟩) (by decide)⟩

end UCore.Console.Reads

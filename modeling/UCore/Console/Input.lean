import Mathlib.Algebra.Order.Ring.Int

/-! # The console's input

`consintr` and `user_console_read` of `console.c`. The input is a ring of 128 bytes with three indices
that are never reduced, only wrap at 2 ^ 32: bytes from `r` up to `w` are committed, bytes from `w` up
to `e` can still be edited. Between taking `cons.lock` and giving it up a reader goes through its loop
byte by byte (`Step`); an input byte is taken in when the lock is free. -/

namespace UCore.Console.Input

/-! ### The code -/

def INPUT_BUF_SIZE : ℕ := 128

/-- `C(x)`, Control-x. -/
def C (x : Char) : ℕ := x.toNat - ('@').toNat

def LF : ℕ := ('\n').toNat
def CR : ℕ := ('\r').toNat
def DEL : ℕ := 0x7f

/-- `x + 1`, `x - 1` and `x - y` of `uint`. -/
def uinc (x : ℕ) : ℕ := (x + 1) % 2 ^ 32
def udec (x : ℕ) : ℕ := (x + (2 ^ 32 - 1)) % 2 ^ 32
def usub (x y : ℕ) : ℕ := (x + (2 ^ 32 - y)) % 2 ^ 32

/-- `cons`, its lock left out. -/
structure Cons where
  buf : ℕ → ℕ
  r : ℕ
  w : ℕ
  e : ℕ

/-- The loop of `consintr` for ^U, which goes back over at most `e - w` bytes. -/
def killLine : ℕ → Cons → Cons
  | 0, cons => cons
  | n + 1, cons =>
    if cons.e ≠ cons.w ∧ cons.buf (udec cons.e % INPUT_BUF_SIZE) ≠ LF then
      killLine n { cons with e := udec cons.e }
    else cons

/-- `consintr(c)`, and whether it calls `wakeup(&cons)`. -/
def consintr (cons : Cons) (c : ℕ) : Cons × Bool :=
  if c = C 'P' then (cons, false)
  else if c = C 'U' then (killLine (usub cons.e cons.w) cons, false)
  else if c = C 'H' ∨ c = DEL then
    if cons.e ≠ cons.w then ({ cons with e := udec cons.e }, false) else (cons, false)
  else if c ≠ 0 ∧ usub cons.e cons.r < INPUT_BUF_SIZE then
    let c := if c = CR then LF else c
    let cons := { cons with
      buf := Function.update cons.buf (cons.e % INPUT_BUF_SIZE) c
      e := uinc cons.e }
    if c = LF ∨ c = C 'D' ∨ usub cons.e cons.r = INPUT_BUF_SIZE then
      ({ cons with w := cons.e }, true)
    else (cons, false)
  else (cons, false)

/-- The variables of `user_console_read`. -/
structure Read where
  buf : ℕ
  n : ℕ
  target : ℕ

/-- Where a process is in `user_console_read`. -/
inductive Reader
  | idle
  /-- Before `acquire(&cons.lock)`, of the function or of `sleep`. -/
  | enter (rd : Read)
  /-- At the head of the loop, with the lock. -/
  | loop (rd : Read)
  /-- In `sleep(&cons, &cons.lock)`. -/
  | sleeping (rd : Read)
  /-- After the loop, with the lock. -/
  | leave (rd : Read)

/-- What can be seen of a step. -/
inductive Event (ι : Type)
  /-- The UART delivers a byte. -/
  | input (c : ℕ)
  /-- A process calls `user_console_read(buf, n)`. -/
  | call (i : ι) (buf n : ℕ)
  /-- A byte is stored at an address of the process. -/
  | deliver (i : ι) (addr b : ℕ)
  /-- A byte is taken, but could not be stored. -/
  | lose (i : ι) (b : ℕ)
  /-- The read finds ^D; it stays in the buffer or not. -/
  | eof (i : ι) (kept : Bool)
  /-- The read returns. -/
  | ret (i : ι) (k : ℕ)
  /-- Nothing. -/
  | quiet

/-- The loop body of `user_console_read` from `c = cons.buf[cons.r++ % INPUT_BUF_SIZE]` on; `copied`
is whether `copy_to_user` succeeds. -/
def readByte {ι : Type} (i : ι) (copied : Bool) (cons : Cons) (rd : Read) :
    Cons × Reader × Event ι :=
  let c := cons.buf (cons.r % INPUT_BUF_SIZE)
  let cons := { cons with r := uinc cons.r }
  if c = C 'D' then
    if rd.n < rd.target then ({ cons with r := udec cons.r }, .leave rd, .eof i true)
    else (cons, .leave rd, .eof i false)
  else if copied then
    let rd' : Read := ⟨(rd.buf + 1) % 2 ^ 64, rd.n - 1, rd.target⟩
    (cons, if c = LF then .leave rd' else .loop rd', .deliver i rd.buf c)
  else (cons, .leave rd, .lose i c)

/-! ### The system -/

/-- The console, who holds `cons.lock`, and the readers. -/
structure State (ι : Type) where
  cons : Cons
  holder : Option ι
  reader : ι → Reader

variable {ι : Type} [DecidableEq ι]

/-- The reader `i` moves on. -/
def State.move (s : State ι) (cons : Cons) (holder : Option ι) (i : ι) (rdr : Reader) : State ι :=
  ⟨cons, holder, Function.update s.reader i rdr⟩

/-- One step. `copy i addr` is whether the process `i` has a user page at `addr`; buffers are valid. -/
inductive Step (copy : ι → ℕ → Bool) : State ι → Event ι → State ι → Prop
  | input {s : State ι} (c : ℕ) : s.holder = none →
    Step copy s (.input c) { s with cons := (consintr s.cons c).1 }
  | call {s : State ι} (i : ι) (buf n : ℕ) : s.reader i = .idle → buf < 2 ^ 64 → n < 2 ^ 32 →
    (∀ k < n, copy i ((buf + k) % 2 ^ 64) = true) →
    Step copy s (.call i buf n) (s.move s.cons s.holder i (.enter ⟨buf, n, n % 2 ^ 32⟩))
  | acquire {s : State ι} {rd : Read} (i : ι) : s.reader i = .enter rd → s.holder = none →
    Step copy s .quiet (s.move s.cons (some i) i (.loop rd))
  | sleep {s : State ι} {rd : Read} (i : ι) : s.reader i = .loop rd → 0 < rd.n →
    s.cons.r = s.cons.w → Step copy s .quiet (s.move s.cons none i (.sleeping rd))
  | wake {s : State ι} {rd : Read} (i : ι) : s.reader i = .sleeping rd →
    Step copy s .quiet (s.move s.cons s.holder i (.enter rd))
  | take {s : State ι} {rd : Read} {cons : Cons} {rdr : Reader} {event : Event ι} (i : ι) :
    s.reader i = .loop rd → 0 < rd.n → s.cons.r ≠ s.cons.w →
    readByte i (copy i rd.buf) s.cons rd = (cons, rdr, event) →
    Step copy s event (s.move cons s.holder i rdr)
  | stop {s : State ι} {rd : Read} (i : ι) : s.reader i = .loop rd → rd.n = 0 →
    Step copy s .quiet (s.move s.cons s.holder i (.leave rd))
  | ret {s : State ι} {rd : Read} (i : ι) : s.reader i = .leave rd →
    Step copy s (.ret i (rd.target - rd.n)) (s.move s.cons none i .idle)

/-- The console at boot. -/
def start : State ι := ⟨⟨fun _ => 0, 0, 0, 0⟩, none, fun _ => .idle⟩

end UCore.Console.Input

import UCore.Console.Input
import UCore.Lib.Runs

/-! # The line discipline

What the console is for: `Line` has a log of the committed bytes, who took the first of them, and the
line being typed. Readers take the bytes of the log one after the other; only the line being typed can
be edited. Every run of the console is a run of this (`console_refines`): the ring holds the bytes of
the log that are not taken yet and the line being typed, and its indices are their positions, modulo
2 ^ 32. -/

namespace UCore.Console.Discipline

open UCore.Console.Input UCore.Lib.Runs

variable {ι : Type} [DecidableEq ι]

/-! ### The abstract console -/

/-- The bytes committed so far, who took the first of them, and the line being typed. -/
structure Line (ι : Type) where
  log : List ℕ
  taken : List ι
  pending : List ℕ

namespace Line

/-- The committed bytes that are not taken yet. -/
def committed (line : Line ι) : List ℕ := line.log.drop line.taken.length

/-- An input byte. -/
def input (line : Line ι) (c : ℕ) : Line ι :=
  if c = C 'P' ∨ c = 0 then line
  else if c = C 'U' then { line with pending := [] }
  else if c = C 'H' ∨ c = DEL then { line with pending := line.pending.dropLast }
  else if line.committed.length + line.pending.length < 128 then
    let c := if c = CR then LF else c
    let pending := line.pending ++ [c]
    if c = LF ∨ c = C 'D' ∨ line.committed.length + pending.length = 128 then
      { line with log := line.log ++ pending, pending := [] }
    else { line with pending := pending }
  else line

/-- The next committed byte goes to `i`. -/
def take (line : Line ι) (i : ι) : Line ι := { line with taken := line.taken ++ [i] }

end Line

/-- A read: of `n` bytes to `buf`, of which it has delivered `got`; or at its end. -/
inductive Reading
  | idle
  | active (buf n got : ℕ)
  | done (got : ℕ)

/-- The abstract console and its readers. -/
structure Spec (ι : Type) where
  line : Line ι
  reading : ι → Reading

/-- The reader `i` moves on. -/
def Spec.move (t : Spec ι) (line : Line ι) (i : ι) (rdg : Reading) : Spec ι :=
  ⟨line, Function.update t.reading i rdg⟩

@[simp] theorem Spec.move_line (t : Spec ι) (line : Line ι) (i : ι) (rdg : Reading) :
    (t.move line i rdg).line = line := rfl

/-- **What the console may do.** A read takes committed bytes in their order to successive addresses,
until it has as many as it wants or has delivered an LF; or until it finds ^D, which stays for the next
read if this one has delivered a byte. -/
def Spec.next (t : Spec ι) : Event ι → Option (Spec ι)
  | .input c => some { t with line := t.line.input c }
  | .call i buf n =>
    match t.reading i with
    | .idle => some (t.move t.line i (.active buf n 0))
    | _ => none
  | .deliver i addr b =>
    match t.reading i with
    | .active buf n got =>
      if got < n ∧ t.line.committed.head? = some b ∧ b ≠ C 'D' ∧ addr = (buf + got) % 2 ^ 64 then
        some (t.move (t.line.take i) i (if b = LF then .done (got + 1) else .active buf n (got + 1)))
      else none
    | _ => none
  | .lose _ _ => none
  | .eof i kept =>
    match t.reading i with
    | .active _ n got =>
      if got < n ∧ t.line.committed.head? = some (C 'D') ∧ (kept = true ↔ 0 < got) then
        some (t.move (if kept then t.line else t.line.take i) i (.done got))
      else none
    | _ => none
  | .ret i k =>
    match t.reading i with
    | .done got => if k = got then some (t.move t.line i .idle) else none
    | .active _ n got => if k = got ∧ got = n then some (t.move t.line i .idle) else none
    | .idle => none
  | .quiet => none

theorem Spec.next_call {t : Spec ι} {i : ι} {buf n : ℕ} (h : t.reading i = .idle) :
    t.next (.call i buf n) = some (t.move t.line i (.active buf n 0)) := by
  unfold Spec.next
  dsimp only
  rw [h]

theorem Spec.next_deliver {t : Spec ι} {i : ι} {buf n got addr b : ℕ}
    (h : t.reading i = .active buf n got) (hn : got < n) (hb : t.line.committed.head? = some b)
    (hD : b ≠ C 'D') (ha : addr = (buf + got) % 2 ^ 64) :
    t.next (.deliver i addr b) = some (t.move (t.line.take i) i
      (if b = LF then .done (got + 1) else .active buf n (got + 1))) := by
  unfold Spec.next
  dsimp only
  rw [h]
  exact if_pos ⟨hn, hb, hD, ha⟩

theorem Spec.next_eof {t : Spec ι} {i : ι} {buf n got : ℕ} {kept : Bool}
    (h : t.reading i = .active buf n got) (hn : got < n)
    (hb : t.line.committed.head? = some (C 'D')) (hk : kept = true ↔ 0 < got) :
    t.next (.eof i kept) =
      some (t.move (if kept then t.line else t.line.take i) i (.done got)) := by
  unfold Spec.next
  dsimp only
  rw [h]
  exact if_pos ⟨hn, hb, hk⟩

theorem Spec.next_ret {t : Spec ι} {i : ι} {k : ℕ}
    (h : t.reading i = .done k ∨ ∃ buf, t.reading i = .active buf k k) :
    t.next (.ret i k) = some (t.move t.line i .idle) := by
  unfold Spec.next
  dsimp only
  rcases h with h | ⟨buf, h⟩
  · rw [h]
    exact if_pos rfl
  · rw [h]
    exact if_pos ⟨rfl, rfl⟩

/-- The steps of the abstract console. -/
def Spec.Step (t : Spec ι) (event : Event ι) (t' : Spec ι) : Prop := t.next event = some t'

/-- The abstract console at boot. -/
def startSpec : Spec ι := ⟨⟨[], [], []⟩, fun _ => .idle⟩

/-! ### The ring -/

/-- The ring holds the line: the indices are positions, and the bytes between are there. -/
structure Holds (cons : Cons) (line : Line ι) : Prop where
  r : cons.r = line.taken.length % 2 ^ 32
  w : cons.w = line.log.length % 2 ^ 32
  e : cons.e = (line.log.length + line.pending.length) % 2 ^ 32
  taken_le : line.taken.length ≤ line.log.length
  fits : line.log.length + line.pending.length ≤ line.taken.length + 128
  byte : ∀ k, line.taken.length ≤ k → k < line.log.length + line.pending.length →
    (line.log ++ line.pending)[k]? = some (cons.buf (k % 128))
  noLF : LF ∉ line.pending

variable {cons : Cons} {line : Line ι} {c : ℕ} {i : ι}

omit [DecidableEq ι] in
theorem Holds.sizes (h : Holds cons line) :
    usub cons.e cons.w = line.pending.length ∧
      usub cons.e cons.r = line.committed.length + line.pending.length ∧
      (cons.e = cons.w ↔ line.pending = []) ∧
      (cons.r = cons.w ↔ line.taken.length = line.log.length) := by
  obtain ⟨hr, hw, he, hle, hfit, -, -⟩ := h
  rw [← List.length_eq_zero_iff, Line.committed, List.length_drop, hr, hw, he]
  unfold usub
  omega

omit [DecidableEq ι] in
/-- The last byte of the line being typed is dropped. -/
theorem Holds.backspace (h : Holds cons line) (hne : line.pending ≠ []) :
    Holds { cons with e := udec cons.e } { line with pending := line.pending.dropLast } := by
  have hpos := List.length_pos_iff.mpr hne
  have hlen : line.pending.dropLast.length = line.pending.length - 1 := List.length_dropLast
  refine ⟨h.r, h.w, ?_, h.taken_le, ?_, fun k hk hlt => ?_, fun hLF => ?_⟩
  · dsimp only
    rw [hlen, h.e]
    unfold udec
    omega
  · dsimp only
    rw [hlen]
    have := h.fits
    omega
  · dsimp only at hlt ⊢
    rw [hlen] at hlt
    rw [← h.byte k hk (by omega)]
    by_cases hlog : k < line.log.length
    · rw [List.getElem?_append_left hlog, List.getElem?_append_left hlog]
    · rw [List.getElem?_append_right (by omega), List.getElem?_append_right (by omega),
        List.getElem?_dropLast, if_pos (by omega)]
  · exact h.noLF (List.dropLast_subset _ hLF)

omit [DecidableEq ι] in
/-- **^U empties the line being typed.** -/
theorem Holds.killLine (n : ℕ) : ∀ (cons : Cons) (line : Line ι), Holds cons line →
    line.pending.length = n → Holds (killLine n cons) { line with pending := [] } := by
  induction n with
  | zero =>
    intro cons line h hn
    rw [List.length_eq_zero_iff] at hn
    rw [Input.killLine]
    rwa [← hn]
  | succ n ih =>
    intro cons line h hn
    have hne : line.pending ≠ [] := List.length_pos_iff.mp (by omega)
    have hback := h.backspace hne
    have hbyte := h.byte (line.log.length + n) (by have := h.taken_le; omega) (by omega)
    rw [List.getElem?_append_right (by omega)] at hbyte
    have hidx : udec cons.e % INPUT_BUF_SIZE = (line.log.length + n) % 128 := by
      rw [h.e, hn]
      unfold udec INPUT_BUF_SIZE
      omega
    have hLF : cons.buf (udec cons.e % INPUT_BUF_SIZE) ≠ LF := by
      rw [hidx]
      intro hc
      rw [hc] at hbyte
      exact h.noLF (List.mem_of_getElem? hbyte)
    have hew : cons.e ≠ cons.w := fun hc => hne (h.sizes.2.2.1.mp hc)
    rw [Input.killLine, if_pos ⟨hew, hLF⟩]
    refine ih _ { line with pending := line.pending.dropLast } hback ?_
    rw [List.length_dropLast]
    omega

omit [DecidableEq ι] in
/-- **A byte is appended** where there is room. -/
theorem Holds.append (h : Holds cons line) (hroom : usub cons.e cons.r < INPUT_BUF_SIZE) (c : ℕ) :
    (line.log ++ (line.pending ++ [c])).length ≤ line.taken.length + 128 ∧
    uinc cons.e = (line.log.length + (line.pending ++ [c]).length) % 2 ^ 32 ∧
    ∀ k, line.taken.length ≤ k → k < line.log.length + (line.pending ++ [c]).length →
      (line.log ++ (line.pending ++ [c]))[k]? =
        some (Function.update cons.buf (cons.e % INPUT_BUF_SIZE) c (k % 128)) := by
  have hsize := h.sizes.2.1
  have hle := h.taken_le
  rw [hsize, Line.committed, List.length_drop] at hroom
  unfold INPUT_BUF_SIZE at hroom ⊢
  have hidx : cons.e % 128 = (line.log.length + line.pending.length) % 128 := by
    rw [h.e]
    omega
  simp only [List.length_append, List.length_singleton]
  refine ⟨by omega, ?_, fun k hk hlt => ?_⟩
  · rw [h.e]
    unfold uinc
    omega
  · rw [hidx, ← List.append_assoc]
    by_cases hlast : k = line.log.length + line.pending.length
    · rw [List.getElem?_append_right (by rw [List.length_append]; omega), hlast, List.length_append,
        Nat.sub_self, Function.update_self]
      rfl
    · rw [List.getElem?_append_left (by rw [List.length_append]; omega), h.byte k hk (by omega),
        Function.update_of_ne (by omega)]

omit [DecidableEq ι] in
/-- **An input byte** does to the ring what it does to the line. -/
theorem Holds.input (h : Holds cons line) (c : ℕ) : Holds (consintr cons c).1 (line.input c) := by
  unfold consintr Line.input
  by_cases hP : c = C 'P'
  · rw [if_pos hP, if_pos (Or.inl hP)]
    exact h
  rw [if_neg hP]
  by_cases h0 : c = 0
  · have hU : ¬ c = C 'U' := by rw [h0]; decide
    have hH : ¬ (c = C 'H' ∨ c = DEL) := by rw [h0]; decide
    rw [if_neg hU, if_neg hH, if_neg fun hc : c ≠ 0 ∧ _ => hc.1 h0, if_pos (Or.inr h0)]
    exact h
  have hP0 : ¬ (c = C 'P' ∨ c = 0) := fun hc => Or.elim hc hP h0
  obtain ⟨hkill, hsize, hew, -⟩ := h.sizes
  by_cases hU : c = C 'U'
  · rw [if_pos hU, if_neg hP0, if_pos hU, hkill]
    exact Holds.killLine _ cons line h rfl
  by_cases hH : c = C 'H' ∨ c = DEL
  · rw [if_neg hU, if_pos hH, if_neg hP0, if_neg hU, if_pos hH]
    by_cases hnil : line.pending = []
    · rw [if_neg (not_not.mpr (hew.mpr hnil)), hnil, List.dropLast_nil, ← hnil]
      exact h
    · rw [if_pos fun hc => hnil (hew.mp hc)]
      exact h.backspace hnil
  rw [if_neg hU, if_neg hH, if_neg hP0, if_neg hU, if_neg hH]
  have hfull : usub cons.e cons.r < INPUT_BUF_SIZE ↔
      line.committed.length + line.pending.length < 128 := by
    rw [hsize]
    rfl
  by_cases hroom : usub cons.e cons.r < INPUT_BUF_SIZE
  swap
  · rw [if_neg fun hc : c ≠ 0 ∧ _ => hroom hc.2, if_neg (mt hfull.mpr hroom)]
    exact h
  rw [if_pos ⟨h0, hroom⟩, if_pos (hfull.mp hroom)]
  generalize (if c = CR then LF else c) = b
  obtain ⟨hfit, he, hbyte⟩ := h.append hroom b
  have hle := h.taken_le
  rw [List.length_append] at hfit
  have hsize' : usub (uinc cons.e) cons.r = line.committed.length + (line.pending ++ [b]).length := by
    rw [he, h.r, Line.committed, List.length_drop]
    unfold usub
    omega
  dsimp only
  rw [hsize']
  obtain ⟨pending, hpending⟩ : ∃ pending, line.pending ++ [b] = pending := ⟨_, rfl⟩
  rw [hpending] at he hbyte hfit ⊢
  unfold INPUT_BUF_SIZE
  by_cases hcommit : b = LF ∨ b = C 'D' ∨ line.committed.length + pending.length = 128
  · -- the line is committed
    rw [if_pos hcommit, if_pos hcommit]
    refine ⟨h.r, ?_, ?_, ?_, ?_, fun k hk hlt => ?_, by simp⟩
    · rw [List.length_append]
      exact he
    · rw [List.length_append, List.length_nil]
      exact he
    · rw [List.length_append]
      dsimp only
      omega
    · rw [List.length_append, List.length_nil]
      exact hfit
    · rw [List.append_nil]
      dsimp only at hlt
      rw [List.length_append, List.length_nil] at hlt
      exact hbyte k hk hlt
  · rw [if_neg hcommit, if_neg hcommit]
    refine ⟨h.r, h.w, he, hle, hfit, hbyte, ?_⟩
    rw [← hpending, List.mem_append, List.mem_singleton]
    exact fun hc => hc.elim h.noLF fun hb => hcommit (Or.inl hb.symm)

omit [DecidableEq ι] in
/-- **The next byte** of the log is the one at `r`. -/
theorem Holds.take (h : Holds cons line) (hrw : cons.r ≠ cons.w) (i : ι) :
    line.committed.head? = some (cons.buf (cons.r % INPUT_BUF_SIZE)) ∧
      Holds { cons with r := uinc cons.r } (line.take i) ∧ udec (uinc cons.r) = cons.r := by
  have hlt : line.taken.length < line.log.length := by
    have hne : line.taken.length ≠ line.log.length := fun hc => hrw (h.sizes.2.2.2.mpr hc)
    have hle := h.taken_le
    omega
  have hr := h.r
  refine ⟨?_, ⟨?_, h.w, h.e, ?_, ?_, fun k hk => h.byte k ?_, h.noLF⟩, ?_⟩
  · have hbyte := h.byte line.taken.length (Nat.le_refl _) (by omega)
    rw [List.getElem?_append_left hlt] at hbyte
    have hidx : cons.r % INPUT_BUF_SIZE = line.taken.length % 128 := by
      rw [hr]
      unfold INPUT_BUF_SIZE
      omega
    rw [Line.committed, List.head?_drop, hbyte, hidx]
  · unfold Line.take
    rw [List.length_append, List.length_singleton]
    dsimp only
    unfold uinc
    omega
  · unfold Line.take
    rw [List.length_append, List.length_singleton]
    exact hlt
  · unfold Line.take
    rw [List.length_append, List.length_singleton]
    have := h.fits
    dsimp only
    omega
  · unfold Line.take at hk
    rw [List.length_append, List.length_singleton] at hk
    omega
  · unfold udec uinc
    omega

/-! ### The readers -/

/-- The variables of the code after `got` bytes of a read of `n` bytes to `buf`. -/
structure Progress (copy : ι → ℕ → Bool) (i : ι) (rd : Read) (buf n got : ℕ) : Prop where
  target : rd.target = n
  left : rd.n + got = n
  addr : rd.buf = (buf + got) % 2 ^ 64
  valid : ∀ k < n, copy i ((buf + k) % 2 ^ 64) = true

/-- Where the code is, and where the read is. -/
inductive Tracks (copy : ι → ℕ → Bool) (i : ι) : Reader → Reading → Prop
  | idle : Tracks copy i .idle .idle
  | enter {rd : Read} {buf n got : ℕ} : Progress copy i rd buf n got →
    Tracks copy i (.enter rd) (.active buf n got)
  | loop {rd : Read} {buf n got : ℕ} : Progress copy i rd buf n got →
    Tracks copy i (.loop rd) (.active buf n got)
  | sleeping {rd : Read} {buf n got : ℕ} : Progress copy i rd buf n got →
    Tracks copy i (.sleeping rd) (.active buf n got)
  | full {rd : Read} {buf n : ℕ} : rd.target - rd.n = n → Tracks copy i (.leave rd) (.active buf n n)
  | done {rd : Read} {got : ℕ} : rd.target - rd.n = got → Tracks copy i (.leave rd) (.done got)

/-- The state of the code and that of the abstract console. -/
structure Sim (copy : ι → ℕ → Bool) (s : State ι) (t : Spec ι) : Prop where
  holds : Holds s.cons t.line
  reader : ∀ i, Tracks copy i (s.reader i) (t.reading i)

variable {copy : ι → ℕ → Bool} {s s' : State ι} {t : Spec ι} {event : Event ι} {rdr : Reader}
  {rdg : Reading} {rd : Read}

theorem Sim.move (h : Sim copy s t) {holder : Option ι} (hcons : Holds cons line)
    (hi : Tracks copy i rdr rdg) : Sim copy (s.move cons holder i rdr) (t.move line i rdg) := by
  refine ⟨hcons, fun j => ?_⟩
  show Tracks copy j (Function.update s.reader i rdr j) (Function.update t.reading i rdg j)
  by_cases hj : j = i
  · subst hj
    rw [Function.update_self, Function.update_self]
    exact hi
  · rw [Function.update_of_ne hj, Function.update_of_ne hj]
    exact h.reader j

/-- A step of a reader that only the code sees. -/
theorem Sim.quiet (h : Sim copy s t) {holder : Option ι} (hi : Tracks copy i rdr (t.reading i)) :
    Sim copy (s.move s.cons holder i rdr) t := by
  have hsame : t = t.move t.line i (t.reading i) := by
    unfold Spec.move
    rw [Function.update_eq_self]
  rw [hsame]
  exact h.move h.holds hi

/-- What can be seen of a step. -/
def visible : Event ι → Option (Event ι)
  | .quiet => none
  | event => some event

/-- **A byte is taken** in both. -/
theorem Sim.take (h : Sim copy s t) {rdr : Reader} (hi : s.reader i = .loop rd) (hn : 0 < rd.n)
    (hrw : s.cons.r ≠ s.cons.w) (hread : readByte i (copy i rd.buf) s.cons rd = (cons, rdr, event)) :
    ∃ t', t.next event = some t' ∧ Sim copy (s.move cons s.holder i rdr) t' := by
  have htr := h.reader i
  rw [hi] at htr
  generalize hrdg : t.reading i = rdg at htr
  cases htr with
  | @loop _ buf n got hp =>
  obtain ⟨htarget, hleft, haddr, hvalid⟩ := hp
  obtain ⟨hhead, hholds, hback⟩ := h.holds.take hrw i
  have hcopy : copy i rd.buf = true := by
    rw [haddr]
    exact hvalid got (by omega)
  unfold readByte at hread
  rw [hcopy] at hread
  generalize s.cons.buf (s.cons.r % INPUT_BUF_SIZE) = c at hread hhead
  dsimp only at hread
  by_cases hD : c = C 'D'
  · rw [if_pos hD] at hread
    subst hD
    by_cases hkept : rd.n < rd.target
    · -- ^D stays for the next read
      rw [if_pos hkept, hback] at hread
      obtain ⟨rfl, rfl, rfl⟩ := hread
      exact ⟨_, Spec.next_eof hrdg (by omega) hhead (by simp; omega),
        h.move h.holds (Tracks.done (by omega))⟩
    · rw [if_neg hkept] at hread
      obtain ⟨rfl, rfl, rfl⟩ := hread
      exact ⟨_, Spec.next_eof hrdg (by omega) hhead (by simp; omega),
        h.move hholds (Tracks.done (by omega))⟩
  · rw [if_neg hD, if_pos rfl] at hread
    obtain ⟨rfl, rfl, rfl⟩ := hread
    refine ⟨_, Spec.next_deliver hrdg (by omega) hhead hD haddr, h.move hholds ?_⟩
    by_cases hLF : c = LF
    · rw [if_pos hLF, if_pos hLF]
      exact Tracks.done (by dsimp only; omega)
    · rw [if_neg hLF, if_neg hLF]
      refine Tracks.loop ⟨htarget, by dsimp only; omega, ?_, hvalid⟩
      rw [haddr]
      dsimp only
      omega

/-- **One step of the code is one of the abstract console**, or cannot be seen. -/
theorem Sim.step (h : Sim copy s t) (hstep : Step copy s event s') :
    (visible event = none → Sim copy s' t) ∧
      ∀ b, visible event = some b → ∃ t', t.next b = some t' ∧ Sim copy s' t' := by
  cases hstep with
  | input c =>
    refine ⟨(fun hc => by cases hc), fun b hb => ?_⟩
    cases hb
    exact ⟨_, rfl, h.holds.input c, h.reader⟩
  | call i buf n hi hbuf hn hvalid =>
    refine ⟨(fun hc => by cases hc), fun b hb => ?_⟩
    cases hb
    have htr := h.reader i
    rw [hi] at htr
    generalize hrdg : t.reading i = rdg at htr
    cases htr
    refine ⟨_, Spec.next_call hrdg, h.move h.holds (Tracks.enter ⟨?_, rfl, ?_, hvalid⟩)⟩
    · exact Nat.mod_eq_of_lt hn
    · rw [Nat.add_zero, Nat.mod_eq_of_lt hbuf]
  | acquire i hi hfree =>
    refine ⟨fun _ => h.quiet ?_, fun b hb => by cases hb⟩
    have htr := h.reader i
    rw [hi] at htr
    generalize t.reading i = rdg at htr
    cases htr with
    | enter hp => exact Tracks.loop hp
  | sleep i hi hn hrw =>
    refine ⟨fun _ => h.quiet ?_, fun b hb => by cases hb⟩
    have htr := h.reader i
    rw [hi] at htr
    generalize t.reading i = rdg at htr
    cases htr with
    | loop hp => exact Tracks.sleeping hp
  | wake i hi =>
    refine ⟨fun _ => h.quiet ?_, fun b hb => by cases hb⟩
    have htr := h.reader i
    rw [hi] at htr
    generalize t.reading i = rdg at htr
    cases htr with
    | sleeping hp => exact Tracks.enter hp
  | @take rd cons rdr _ i hi hn hrw hread =>
    obtain ⟨t', ht', hsim⟩ := h.take hi hn hrw hread
    have hvis : visible event = some event := by
      cases event with
      | quiet =>
        exfalso
        unfold readByte at hread
        dsimp only at hread
        split_ifs at hread
        all_goals cases hread
      | _ => rfl
    rw [hvis]
    refine ⟨(fun hc => by cases hc), fun b hb => ?_⟩
    cases hb
    exact ⟨t', ht', hsim⟩
  | @stop rd i hi hn =>
    refine ⟨fun _ => h.quiet ?_, fun b hb => by cases hb⟩
    have htr := h.reader i
    rw [hi] at htr
    generalize t.reading i = rdg at htr
    cases htr with
    | @loop _ buf n got hp =>
      have hgot : got = n := by
        have := hp.left
        omega
      subst hgot
      exact Tracks.full (by rw [hp.target, hn]; omega)
  | @ret rd i hi =>
    refine ⟨(fun hc => by cases hc), fun b hb => ?_⟩
    cases hb
    have htr := h.reader i
    rw [hi] at htr
    generalize hrdg : t.reading i = rdg at htr
    refine ⟨_, Spec.next_ret ?_, h.move h.holds Tracks.idle⟩
    rw [hrdg]
    cases htr with
    | full hk => exact Or.inr ⟨_, by rw [hk]⟩
    | done hk => exact Or.inl (by rw [hk])

/-! ### Runs -/

omit [DecidableEq ι] in
theorem sim_start : Sim copy (start : State ι) startSpec := by
  refine ⟨⟨rfl, rfl, rfl, by simp [startSpec], by simp [startSpec], ?_, by simp [startSpec]⟩,
    fun i => Tracks.idle⟩
  intro k _ hk
  simp [startSpec] at hk

/-- Who took which byte. -/
def takes (events : List (Event ι)) : List (ι × ℕ) :=
  events.filterMap fun
    | .deliver i _ b => some (i, b)
    | .eof i false => some (i, C 'D')
    | _ => none

omit [DecidableEq ι] in
theorem takes_visible (events : List (Event ι)) :
    takes (events.filterMap visible) = takes events := by
  unfold takes
  rw [List.filterMap_filterMap]
  congr 1
  funext event
  cases event with
  | eof i kept => cases kept <;> rfl
  | _ => rfl

/-- The log is the record: its first bytes are those taken, in their order. -/
structure Ledger (line : Line ι) (l : List (ι × ℕ)) : Prop where
  takers : l.map Prod.fst = line.taken
  bytes : l.map Prod.snd <+: line.log

omit [DecidableEq ι] in
theorem Line.input_log (line : Line ι) (c : ℕ) : line.log <+: (line.input c).log := by
  unfold Line.input
  dsimp only
  split_ifs
  all_goals first | exact List.prefix_refl _ | exact List.prefix_append _ _

omit [DecidableEq ι] in
theorem Line.input_taken (line : Line ι) (c : ℕ) : (line.input c).taken = line.taken := by
  unfold Line.input
  dsimp only
  split_ifs <;> rfl

omit [DecidableEq ι] in
theorem Ledger.input {l : List (ι × ℕ)} (h : Ledger line l) (c : ℕ) : Ledger (line.input c) l :=
  ⟨by rw [line.input_taken c, h.takers], h.bytes.trans (line.input_log c)⟩

omit [DecidableEq ι] in
theorem Ledger.take {l : List (ι × ℕ)} {b : ℕ} (h : Ledger line l)
    (hb : line.committed.head? = some b) (i : ι) : Ledger (line.take i) (l ++ [(i, b)]) := by
  obtain ⟨rest, hrest⟩ := h.bytes
  have hlen : (l.map Prod.snd).length = line.taken.length := by
    rw [← h.takers, List.length_map, List.length_map]
  rw [Line.committed, ← hlen, ← hrest, List.drop_left, List.head?_eq_some_iff] at hb
  obtain ⟨rest', rfl⟩ := hb
  refine ⟨?_, rest', ?_⟩
  · rw [List.map_append, h.takers]
    rfl
  · rw [List.map_append, List.append_assoc]
    exact hrest

/-- What one step of the abstract console does to the log and to the record. -/
theorem Spec.Step.ledger {t t' : Spec ι} {l : List (ι × ℕ)} (hstep : Spec.Step t event t')
    (h : Ledger t.line l) : t.line.log <+: t'.line.log ∧ Ledger t'.line (l ++ takes [event]) := by
  unfold Spec.Step Spec.next at hstep
  cases event with
  | input c =>
    cases hstep
    exact ⟨t.line.input_log c, by simpa [takes] using h.input c⟩
  | call i buf n =>
    dsimp only at hstep
    split at hstep
    · cases hstep
      exact ⟨List.prefix_refl _, by simpa [takes] using h⟩
    · cases hstep
  | deliver i addr b =>
    dsimp only at hstep
    split at hstep
    · obtain ⟨hc, hstep⟩ := Option.ite_none_right_eq_some.mp hstep
      cases hstep
      exact ⟨List.prefix_refl _, h.take hc.2.1 i⟩
    · cases hstep
  | lose i b => cases hstep
  | eof i kept =>
    dsimp only at hstep
    split at hstep
    · obtain ⟨hc, hstep⟩ := Option.ite_none_right_eq_some.mp hstep
      cases hstep
      cases kept with
      | true => exact ⟨List.prefix_refl _, by simpa [takes] using h⟩
      | false => exact ⟨List.prefix_refl _, h.take hc.2.1 i⟩
    · cases hstep
  | ret i k =>
    dsimp only at hstep
    split at hstep
    · split_ifs at hstep
      cases hstep
      exact ⟨List.prefix_refl _, by simpa [takes] using h⟩
    · split_ifs at hstep
      cases hstep
      exact ⟨List.prefix_refl _, by simpa [takes] using h⟩
    · cases hstep
  | quiet => cases hstep

/-- **What a run of the abstract console does**: the log only grows, and its first bytes are those
taken. -/
theorem Spec.run_ledger {t t' : Spec ι} {events : List (Event ι)} {l : List (ι × ℕ)}
    (hrun : Run Spec.Step t events t') (h : Ledger t.line l) :
    t.line.log <+: t'.line.log ∧ Ledger t'.line (l ++ takes events) := by
  induction hrun with
  | refl => exact ⟨List.prefix_refl _, by simpa [takes] using h⟩
  | tail _ hstep ih =>
    obtain ⟨hlog, hledger⟩ := ih
    obtain ⟨hlog', hledger'⟩ := Spec.Step.ledger hstep hledger
    refine ⟨hlog.trans hlog', ?_⟩
    unfold takes at hledger' ⊢
    rwa [List.filterMap_append, ← List.append_assoc]

/-- From related states every run of the code is one of the abstract console. -/
theorem Sim.run {events : List (Event ι)} (h : Sim copy s t) (hrun : Run (Step copy) s events s') :
    ∃ t', Run Spec.Step t (events.filterMap visible) t' ∧ Sim copy s' t' :=
  hrun.simulate h (fun _ _ _ _ hs hstep hv => (hs.step hstep).1 hv)
    fun _ _ _ _ b hs hstep hv => (hs.step hstep).2 b hv

/-- **The console is the line discipline.** Every run of the code, from any state that it reaches, is a
run of the abstract console with the same visible steps. At its end the ring holds the line, at most
128 bytes; the log has grown only at its end; and the bytes taken since boot, each by one reader, are
the first of the log, in its order. -/
theorem console_refines {events events' : List (Event ι)} (hrun : Run (Step copy) start events s)
    (hrun' : Run (Step copy) s events' s') :
    ∃ t t', Run Spec.Step startSpec (events.filterMap visible) t ∧
      Run Spec.Step t (events'.filterMap visible) t' ∧ Holds s'.cons t'.line ∧
      t'.line.committed.length + t'.line.pending.length ≤ 128 ∧ t.line.log <+: t'.line.log ∧
      Ledger t'.line (takes (events ++ events')) := by
  obtain ⟨t, ht, hsim⟩ := sim_start.run hrun
  obtain ⟨t', ht', hsim'⟩ := hsim.run hrun'
  have hempty : Ledger (startSpec : Spec ι).line [] := ⟨rfl, List.prefix_refl _⟩
  obtain ⟨-, hledger⟩ := Spec.run_ledger ht hempty
  obtain ⟨hlog, hledger'⟩ := Spec.run_ledger ht' hledger
  refine ⟨t, t', ht, ht', hsim'.holds, ?_, hlog, ?_⟩
  · rw [Line.committed, List.length_drop]
    have h1 := hsim'.holds.fits
    have h2 := hsim'.holds.taken_le
    omega
  · rw [List.nil_append, takes_visible, takes_visible] at hledger'
    unfold takes at hledger' ⊢
    rwa [List.filterMap_append]

/-- A byte is typed. -/
theorem run_input (copy : Unit → ℕ → Bool) (s : State Unit) (h : s.holder = none) (c : ℕ) :
    Run (Step copy) s [.input c] { s with cons := (consintr s.cons c).1 } :=
  Run.single (Step.input c h)

theorem console_refines_sample : ∃ t t' : Spec Unit, Run Spec.Step startSpec [.input 'a'.toNat] t ∧
    Run Spec.Step t [.input LF] t' ∧ t.line.log <+: t'.line.log ∧
    Holds (consintr (consintr (start : State Unit).cons 'a'.toNat).1 LF).1 t'.line := by
  obtain ⟨t, t', ht, ht', hholds, -, hlog, -⟩ :=
    console_refines (run_input (fun _ _ => true) start rfl 'a'.toNat) (run_input _ _ rfl LF)
  exact ⟨t, t', ht, ht', hlog, hholds⟩

/-- **^P is swallowed**: typed on an empty line it leaves an empty line, not a line of one byte; and
the LF after it commits one byte, not two. -/
theorem control_p_swallowed : ∃ s s' : State Unit,
    Run (Step fun _ _ => true) start [.input (C 'P')] s ∧
    Run (Step fun _ _ => true) s [.input LF] s' ∧
    Holds (start : State Unit).cons ⟨([] : List ℕ), ([] : List Unit), []⟩ ∧
    ¬ Holds s.cons ⟨[], ([] : List Unit), [C 'P']⟩ ∧
    ¬ Holds s'.cons ⟨[C 'P', LF], ([] : List Unit), []⟩ ∧
    Holds s'.cons ⟨[LF], ([] : List Unit), []⟩ := by
  have hstart : Holds (start : State Unit).cons (startSpec : Spec Unit).line :=
    (sim_start : Sim (fun _ _ => true) _ _).holds
  refine ⟨_, _, run_input _ start rfl (C 'P'), run_input _ _ rfl LF, hstart, fun h => ?_, fun h => ?_,
    (hstart.input (C 'P')).input LF⟩
  · exact absurd h.e (by decide)
  · exact absurd h.w (by decide)

end UCore.Console.Discipline

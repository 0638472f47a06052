import Mathlib.Algebra.Order.Ring.Int
import Mathlib.Data.List.Basic
import Mathlib.Tactic.IntervalCases
import Mathlib.Tactic.NormNum

/-! # `printf` and `__panic`

`printf` with the arguments as it finds them: a slot for each, with the word in it and which argument of
the caller this is, if it is one. `__panic` gives `printf` its `va_list` as the only argument. So the first
conversion prints that pointer, the others what happens to be in the slots after it, and `__panic` is
`printf` for the formats that take no argument, and for no others (`panic_meets_iff`); every `panic` of
the kernel takes one (`panic_macro`). -/

namespace UCore.Console.Printf

/-! ### The code -/

/-- What can be seen of `printf`. -/
inductive Event
  /-- `consputc(c)` -/
  | putc (c : ℤ)
  /-- A slot is read; it is this argument of the caller, or none. -/
  | arg (k : Option ℕ)
  /-- A string that does not end, or a byte of it that cannot be read. -/
  | stuck
  deriving DecidableEq

/-- A slot of the argument area. -/
structure Slot where
  word : ℕ
  arg : Option ℕ

def code (c : Char) : ℤ := c.toNat

def digits : List Char :=
  ['0', '1', '2', '3', '4', '5', '6', '7', '8', '9', 'a', 'b', 'c', 'd', 'e', 'f']

def digit (i : ℕ) : ℤ := code (digits.getD i '0')

/-- The digits of a `uint`, the lowest first; `fuel` bits. -/
def digitLoop (base : ℕ) : ℕ → ℕ → List ℤ
  | 0, _ => []
  | fuel + 1, x => digit (x % base) :: if x / base = 0 then [] else digitLoop base fuel (x / base)

/-- `printint(xx, base, sign)` -/
def printint (xx : ℤ) (base : ℕ) (sign : Bool) : List ℤ :=
  let neg := sign && xx < 0
  let x := ((if neg then -xx else xx) % 2 ^ 32).toNat
  (digitLoop base 32 x ++ if neg then [code '-'] else []).reverse

/-- The loop of `printptr`: `n` digits, the highest first. -/
def ptrLoop : ℕ → ℕ → List ℤ
  | 0, _ => []
  | n + 1, x => digit (x >>> 60) :: ptrLoop n ((x <<< 4) % 2 ^ 64)

def printptr (x : ℕ) : List ℤ := code '0' :: code 'x' :: ptrLoop 16 x

/-- `for (; *s; s++) consputc(*s)`, and whether it comes to an end; `n` addresses are left. -/
def putString (mem : ℕ → Option ℕ) : ℕ → ℕ → List ℤ × Bool
  | 0, _ => ([], false)
  | n + 1, s =>
    match mem s with
    | none => ([], false)
    | some c =>
      if c = 0 then ([], true)
      else
        let r := putString mem n ((s + 1) % 2 ^ 64)
        ((c : ℤ) :: r.1, r.2)

/-- `va_arg(ap, int)` -/
def toInt (w : ℕ) : ℤ := Int.bmod w (2 ^ 32)

/-- The conversions that take an argument. -/
def Takes (c : ℤ) : Prop :=
  c = code 'd' ∨ c = code 'x' ∨ c = code 'p' ∨ c = code 's' ∨ c = code 'c'

instance (c : ℤ) : Decidable (Takes c) := by unfold Takes; infer_instance

/-- The `switch` of `printf`: what a conversion prints, and whether it comes to an end. -/
def convert (mem : ℕ → Option ℕ) (c : ℤ) (w : ℕ) : List ℤ × Bool :=
  if c = code 'd' then (printint (toInt w) 10 true, true)
  else if c = code 'x' then (printint (toInt w) 16 true, true)
  else if c = code 'p' then (printptr w, true)
  else if c = code 's' then
    if w = 0 then (['(', 'n', 'u', 'l', 'l', ')'].map code, true) else putString mem (2 ^ 64) w
  else if c = code 'c' then ([toInt w], true)
  else if c = code '%' then ([code '%'], true)
  else ([code '%', c], true)

/-- The loop of `printf` from a place of the format on; `k` slots are read. -/
def printfLoop (mem : ℕ → Option ℕ) (area : ℕ → Slot) : List ℤ → ℕ → List Event
  | [], _ => []
  | [c], _ => if c ≠ code '%' then [.putc c] else []
  | c :: d :: fmt, k =>
    if c ≠ code '%' then .putc c :: printfLoop mem area (d :: fmt) k
    else
      let r := convert mem d (area k).word
      (if Takes d then [.arg (area k).arg] else []) ++ r.1.map .putc ++
        if r.2 then printfLoop mem area fmt (if Takes d then k + 1 else k) else [.stuck]

/-- The slots of a call with these arguments; after them is what happens to be there. -/
def slots (args : List ℕ) (junk : ℕ → ℕ) (k : ℕ) : Slot :=
  match args[k]? with
  | some w => ⟨w, some k⟩
  | none => ⟨junk k, none⟩

/-- `printf(fmt, args...)` -/
def printf (mem : ℕ → Option ℕ) (fmt : List ℤ) (args : List ℕ) (junk : ℕ → ℕ) : List Event :=
  printfLoop mem (slots args junk) fmt 0

/-- `__panic(fmt, ...)`: `printf(fmt, ap)`. The slots of this call hold none of the caller's arguments. -/
def panic (mem : ℕ → Option ℕ) (fmt : List ℤ) (ap : ℕ) (junk : ℕ → ℕ) : List Event :=
  printfLoop mem (fun k => ⟨(slots [ap] junk k).word, none⟩) fmt 0

/-- The format of the macro `panic(fmt, ...)`: `"\x1b[%dm[%s %d] %s:%d: " fmt "\x1b[0m\n"`. -/
def panicFormat (fmt : List ℤ) : List ℤ :=
  ['\x1b', '[', '%', 'd', 'm', '[', '%', 's', ' ', '%', 'd', ']', ' ', '%', 's', ':', '%', 'd', ':',
    ' '].map code ++ fmt ++ ['\x1b', '[', '0', 'm', '\n'].map code

/-! ### What it is for -/

/-- The characters that are printed. -/
def chars (events : List Event) : List ℤ :=
  events.filterMap fun
    | .putc c => some c
    | _ => none

/-- The arguments that are read. -/
def reads (events : List Event) : List (Option ℕ) :=
  events.filterMap fun
    | .arg k => some k
    | _ => none

/-- `__panic` prints what `printf` prints, and its conversions read the arguments of the caller in
their order. -/
def PanicMeets (mem : ℕ → Option ℕ) (fmt : List ℤ) (args : List ℕ) (ap : ℕ) (junk junk' : ℕ → ℕ) :
    Prop :=
  chars (panic mem fmt ap junk') = chars (printf mem fmt args junk) ∧
    ∃ n ≤ args.length, reads (panic mem fmt ap junk') = (List.range n).map some

/-- The conversions of a format. -/
def conversions : List ℤ → List ℤ
  | [] => []
  | [_] => []
  | c :: d :: fmt => if c ≠ code '%' then conversions (d :: fmt) else d :: conversions fmt

/-- A format that takes no argument. -/
def Plain (fmt : List ℤ) : Prop := ∀ c ∈ conversions fmt, ¬ Takes c

instance (fmt : List ℤ) : Decidable (Plain fmt) := by unfold Plain; infer_instance

variable {mem : ℕ → Option ℕ} {area area' : ℕ → Slot} {fmt : List ℤ} {args : List ℕ} {ap k k' : ℕ}
  {junk junk' : ℕ → ℕ} {c d : ℤ}

/-! ### The loop, a conversion at a time -/

theorem printfLoop_putc (hc : c ≠ code '%') :
    ∀ fmt, printfLoop mem area (c :: fmt) k = .putc c :: printfLoop mem area fmt k
  | [] => if_pos hc
  | _ :: _ => if_pos hc

theorem convert_of_not_takes (hd : ¬ Takes d) (w : ℕ) :
    convert mem d w = (if d = code '%' then [code '%'] else [code '%', d], true) := by
  unfold Takes at hd
  simp only [not_or] at hd
  unfold convert
  rw [if_neg hd.1, if_neg hd.2.1, if_neg hd.2.2.1, if_neg hd.2.2.2.1, if_neg hd.2.2.2.2]
  split_ifs
  all_goals rfl

/-- A conversion that takes no argument. -/
theorem printfLoop_not_takes (hd : ¬ Takes d) : printfLoop mem area (code '%' :: d :: fmt) k =
    (if d = code '%' then [code '%'] else [code '%', d]).map .putc ++ printfLoop mem area fmt k := by
  rw [printfLoop, if_neg (not_not.mpr rfl), if_neg hd, if_neg hd, convert_of_not_takes hd]
  rfl

/-- A conversion that takes an argument. -/
theorem printfLoop_takes (hd : Takes d) : ∃ rest, printfLoop mem area (code '%' :: d :: fmt) k =
    .arg (area k).arg :: ((convert mem d (area k).word).1.map .putc ++ rest) := by
  rw [printfLoop, if_neg (not_not.mpr rfl), if_pos hd]
  exact ⟨_, rfl⟩

theorem plain_putc (hc : c ≠ code '%') : ∀ fmt, Plain (c :: fmt) ↔ Plain fmt
  | [] => Iff.rfl
  | d :: fmt => by rw [Plain, conversions, if_pos hc, Plain]

theorem plain_conversion : Plain (code '%' :: d :: fmt) ↔ ¬ Takes d ∧ Plain fmt := by
  rw [Plain, conversions, if_neg (not_not.mpr rfl), List.forall_mem_cons, Plain]

/-- A format is read a character or a conversion at a time. -/
theorem format_induction {P : List ℤ → Prop} (nil : P []) (last : P [code '%'])
    (putc : ∀ c fmt, c ≠ code '%' → P fmt → P (c :: fmt))
    (conversion : ∀ d fmt, P fmt → P (code '%' :: d :: fmt)) : ∀ fmt, P fmt
  | [] => nil
  | [c] => by
    by_cases hc : c = code '%'
    · exact hc ▸ last
    · exact putc c [] hc nil
  | c :: d :: fmt => by
    by_cases hc : c = code '%'
    · exact hc ▸ conversion d fmt (format_induction nil last putc conversion fmt)
    · exact putc c _ hc (format_induction nil last putc conversion (d :: fmt))

theorem reads_putc (out : List ℤ) (events : List Event) :
    reads (out.map .putc ++ events) = reads events := by
  induction out with
  | nil => rfl
  | cons c out ih => exact ih

theorem chars_putc (out : List ℤ) (events : List Event) :
    chars (out.map .putc ++ events) = out ++ chars events := by
  induction out with
  | nil => rfl
  | cons c out ih => exact congrArg (c :: ·) ih

/-! ### Formats that take no argument -/

/-- **A plain format** prints the same whatever the slots hold, and reads none. -/
theorem printfLoop_plain (area area' : ℕ → Slot) (k k' : ℕ) : Plain fmt →
    printfLoop mem area fmt k = printfLoop mem area' fmt k' ∧ reads (printfLoop mem area fmt k) = [] := by
  induction fmt using format_induction with
  | nil => exact fun _ => ⟨rfl, rfl⟩
  | last => exact fun _ => ⟨rfl, rfl⟩
  | putc c fmt hc ih =>
    intro h
    obtain ⟨heq, hreads⟩ := ih ((plain_putc hc fmt).mp h)
    rw [printfLoop_putc hc, printfLoop_putc hc, heq]
    exact ⟨rfl, heq ▸ hreads⟩
  | conversion d fmt ih =>
    intro h
    obtain ⟨hd, hplain⟩ := plain_conversion.mp h
    obtain ⟨heq, hreads⟩ := ih hplain
    rw [printfLoop_not_takes hd, printfLoop_not_takes hd, heq]
    exact ⟨rfl, (reads_putc _ _).trans (heq ▸ hreads)⟩

/-- **Another format** reads a slot that holds no argument of the caller, if none does. -/
theorem reads_none (hnone : ∀ k, (area k).arg = none) : ¬ Plain fmt →
    none ∈ reads (printfLoop mem area fmt k) := by
  induction fmt using format_induction with
  | nil => exact fun h => absurd (fun _ hc => absurd hc List.not_mem_nil) h
  | last => exact fun h => absurd (fun _ hc => absurd hc List.not_mem_nil) h
  | putc c fmt hc ih =>
    intro h
    rw [printfLoop_putc hc]
    exact ih fun hplain => h ((plain_putc hc fmt).mpr hplain)
  | conversion d fmt ih =>
    intro h
    by_cases hd : Takes d
    · obtain ⟨rest, heq⟩ := @printfLoop_takes mem area fmt k d hd
      rw [heq, hnone]
      exact List.mem_cons_self ..
    · rw [printfLoop_not_takes hd, reads, List.filterMap_append]
      exact List.mem_append_right _ (ih fun hplain => h (plain_conversion.mpr ⟨hd, hplain⟩))

/-- **`__panic` is `printf` for the formats that take no argument**, and for no others. -/
theorem panic_meets_iff (mem : ℕ → Option ℕ) (fmt : List ℤ) (args : List ℕ) (ap : ℕ)
    (junk junk' : ℕ → ℕ) : PanicMeets mem fmt args ap junk junk' ↔ Plain fmt := by
  constructor
  · rintro ⟨-, n, -, hreads⟩
    by_contra hno
    have hmem : none ∈ reads (panic mem fmt ap junk') := reads_none (fun _ => rfl) hno
    rw [hreads, List.mem_map] at hmem
    obtain ⟨j, -, hj⟩ := hmem
    exact absurd hj nofun
  · intro h
    obtain ⟨heq, hreads⟩ := @printfLoop_plain mem fmt
      (fun k => ⟨(slots [ap] junk' k).word, none⟩) (slots args junk) 0 0 h
    exact ⟨congrArg chars heq, 0, Nat.zero_le _, hreads⟩

/-- `panic` takes arguments, whatever its format is. -/
theorem panic_macro (fmt : List ℤ) : ¬ Plain (panicFormat fmt) := by
  intro h
  have hd : code 'd' ∈ conversions (panicFormat fmt) := List.mem_cons_self ..
  exact h _ hd (Or.inl rfl)

/-- **`panic("%d", 7)` on the first kernel stack**, with its `va_list` at `0xfffffffe00001fb8`, prints
8120, the low half of that address. -/
theorem panic_prints_area :
    chars (printf (fun _ => none) [code '%', code 'd'] [7] fun _ => 0) = [code '7'] ∧
    chars (panic (fun _ => none) [code '%', code 'd'] 0xfffffffe00001fb8 fun _ => 0) =
      [code '8', code '1', code '2', code '0'] ∧
    ¬ PanicMeets (fun _ => none) [code '%', code 'd'] [7] 0xfffffffe00001fb8 (fun _ => 0)
      fun _ => 0 := by
  refine ⟨by decide, by decide, fun h => ?_⟩
  exact absurd ((panic_meets_iff ..).mp h) (by decide)

/-! ### The characters alone -/

theorem digit_ne_minus (i : ℕ) : digit i ≠ code '-' := by
  unfold digit
  by_cases hi : i < 16
  · interval_cases i
    all_goals decide
  · have hnone : digits[i]? = none := List.getElem?_eq_none (Nat.not_lt.mp hi)
    rw [List.getD_eq_getElem?_getD, hnone]
    decide

theorem mem_digitLoop {base : ℕ} : ∀ {fuel x : ℕ}, c ∈ digitLoop base fuel x → ∃ i, c = digit i
  | fuel + 1, x, h => by
    rw [digitLoop, List.mem_cons] at h
    rcases h with rfl | h
    · exact ⟨_, rfl⟩
    · split_ifs at h
      · exact absurd h List.not_mem_nil
      · exact mem_digitLoop h

/-- The sign comes first. -/
theorem printint_head {xx : ℤ} {base : ℕ} :
    (printint xx base true).head? = some (code '-') ↔ xx < 0 := by
  unfold printint
  rw [List.head?_reverse]
  by_cases hneg : xx < 0
  · refine iff_of_true ?_ hneg
    simp [hneg]
  · refine iff_of_false (fun hlast => ?_) hneg
    simp only [hneg, decide_false, Bool.and_false, Bool.false_eq_true, if_false, List.append_nil] at hlast
    obtain ⟨i, hi⟩ := mem_digitLoop (List.mem_of_getLast? hlast)
    exact digit_ne_minus i hi.symm

theorem printint_ne_nil (xx : ℤ) (base : ℕ) : printint xx base true ≠ [] := by
  unfold printint
  simp [digitLoop]

theorem putString_head {n s b : ℕ} (hb : mem s = some b) (h0 : b ≠ 0) :
    (putString mem (n + 1) s).1.head? = some (b : ℤ) := by
  rw [putString, hb]
  dsimp only
  rw [if_neg h0]
  rfl

theorem convert_s (w : ℕ) : convert mem (code 's') w =
    if w = 0 then (['(', 'n', 'u', 'l', 'l', ')'].map code, true) else putString mem (2 ^ 64) w := by
  unfold convert
  rw [if_neg (by decide), if_neg (by decide), if_neg (by decide), if_pos rfl]

theorem convert_s_head {w b : ℕ} (hw : w ≠ 0) (hb : mem w = some b) (h0 : b ≠ 0) :
    (convert mem (code 's') w).1.head? = some (b : ℤ) := by
  rw [convert_s, if_neg hw, show 2 ^ 64 = 2 ^ 64 - 1 + 1 from rfl]
  exact putString_head hb h0

/-- Two outputs that differ within both. -/
theorem append_ne_of_head {l l' t t' : List ℤ} (hl : l ≠ []) (hl' : l' ≠ []) (h : l.head? ≠ l'.head?) :
    l ++ t ≠ l' ++ t' := by
  intro heq
  have := congrArg List.head? heq
  rw [List.head?_append_of_ne_nil _ hl, List.head?_append_of_ne_nil _ hl'] at this
  exact h this

/-- The sign of an `int` can be had either way. -/
theorem exists_other_sign (w : ℕ) : ∃ ap < 2 ^ 64, (toInt ap < 0 ↔ ¬ toInt w < 0) := by
  by_cases hneg : toInt w < 0
  · exact ⟨0, by decide, by simp [hneg]; decide⟩
  · exact ⟨2 ^ 31, by decide, by simp [hneg]; decide⟩

/-- **Every conversion that takes an argument** prints something else for some other argument, in some
memory. -/
theorem convert_differs (hd : Takes d) (w : ℕ) : ∃ mem, ∃ ap < 2 ^ 64, ∀ t t' : List ℤ,
    (convert mem d ap).1 ++ t ≠ (convert mem d w).1 ++ t' := by
  have int_differs : ∀ base : ℕ, ∃ ap < 2 ^ 64, ∀ t t' : List ℤ,
      printint (toInt ap) base true ++ t ≠ printint (toInt w) base true ++ t' := by
    intro base
    obtain ⟨ap, hap, hsign⟩ := exists_other_sign w
    refine ⟨ap, hap, fun t t' => append_ne_of_head (printint_ne_nil _ _)
      (printint_ne_nil _ _) fun heq => ?_⟩
    have hiff : toInt ap < 0 ↔ toInt w < 0 := by
      rw [← @printint_head _ base, heq, printint_head]
    exact iff_not_self (hiff.symm.trans hsign)
  rcases hd with rfl | rfl | rfl | rfl | rfl
  · obtain ⟨ap, hap, hne⟩ := int_differs 10
    exact ⟨fun _ => none, ap, hap, hne⟩
  · obtain ⟨ap, hap, hne⟩ := int_differs 16
    exact ⟨fun _ => none, ap, hap, hne⟩
  · -- the digits after `0x`
    by_cases hw : digit (w >>> 60) = code '0'
    · refine ⟨fun _ => none, 2 ^ 60, by decide, fun t t' heq => ?_⟩
      have hdigit := (List.cons.inj (List.cons.inj (List.cons.inj heq).2).2).1
      rw [hw] at hdigit
      exact absurd hdigit (by decide)
    · refine ⟨fun _ => none, 0, by decide, fun t t' heq => ?_⟩
      have hdigit := (List.cons.inj (List.cons.inj (List.cons.inj heq).2).2).1
      exact hw hdigit.symm
  · -- another string in memory
    obtain ⟨ap, hap, h0, hne⟩ : ∃ ap < 2 ^ 64, ap ≠ 0 ∧ ap ≠ w := by
      by_cases hw : w = 1
      · exact ⟨2, by decide, by decide, by omega⟩
      · exact ⟨1, by decide, by decide, fun h => hw h.symm⟩
    refine ⟨fun a => if a = ap then some 66 else some 65, ap, hap, fun t t' => ?_⟩
    have hhead := @convert_s_head (fun a => if a = ap then some 66 else some 65) ap 66 h0 (if_pos rfl)
      (by decide)
    have hhead' : ∃ b : ℤ, b ≠ 66 ∧
        (convert (fun a => if a = ap then some 66 else some 65) (code 's') w).1.head? = some b := by
      by_cases hw : w = 0
      · refine ⟨code '(', by decide, ?_⟩
        rw [convert_s, if_pos hw]
        rfl
      · exact ⟨65, by decide, convert_s_head hw (if_neg hne.symm) (by decide)⟩
    obtain ⟨b, hb, hhead'⟩ := hhead'
    refine append_ne_of_head (List.ne_nil_of_mem (List.mem_of_mem_head? hhead))
      (List.ne_nil_of_mem (List.mem_of_mem_head? hhead')) ?_
    rw [hhead, hhead']
    exact fun heq => hb (Option.some.inj heq).symm
  · by_cases hw : toInt w = 0
    · refine ⟨fun _ => none, 1, by decide, fun t t' heq => ?_⟩
      have hc := (List.cons.inj heq).1
      rw [hw] at hc
      exact absurd hc (by decide)
    · refine ⟨fun _ => none, 0, by decide, fun t t' heq => ?_⟩
      exact hw (List.cons.inj heq).1.symm

/-- **Another format** prints something else with some other word in the first slot. -/
theorem chars_differ (w : ℕ) : ¬ Plain fmt → ∃ mem, ∃ ap < 2 ^ 64, ∀ area area', (area 0).word = ap →
    (area' 0).word = w → chars (printfLoop mem area fmt 0) ≠ chars (printfLoop mem area' fmt 0) := by
  induction fmt using format_induction with
  | nil => exact fun h => absurd (fun _ hc => absurd hc List.not_mem_nil) h
  | last => exact fun h => absurd (fun _ hc => absurd hc List.not_mem_nil) h
  | putc c fmt hc ih =>
    intro h
    obtain ⟨mem, ap, hap, hne⟩ := ih fun hplain => h ((plain_putc hc fmt).mpr hplain)
    refine ⟨mem, ap, hap, fun area area' ha ha' heq => hne area area' ha ha' ?_⟩
    rw [printfLoop_putc hc, printfLoop_putc hc] at heq
    exact (List.cons.inj heq).2
  | conversion d fmt ih =>
    intro h
    by_cases hd : Takes d
    · obtain ⟨mem, ap, hap, hne⟩ := convert_differs hd w
      refine ⟨mem, ap, hap, fun area area' ha ha' heq => ?_⟩
      obtain ⟨rest, hloop⟩ := @printfLoop_takes mem area fmt 0 d hd
      obtain ⟨rest', hloop'⟩ := @printfLoop_takes mem area' fmt 0 d hd
      rw [hloop, hloop', ha, ha'] at heq
      change chars (_ ++ _) = chars (_ ++ _) at heq
      rw [chars_putc, chars_putc] at heq
      exact hne _ _ heq
    · obtain ⟨mem, ap, hap, hne⟩ := ih fun hplain => h (plain_conversion.mpr ⟨hd, hplain⟩)
      refine ⟨mem, ap, hap, fun area area' ha ha' heq => hne area area' ha ha' ?_⟩
      rw [printfLoop_not_takes hd, printfLoop_not_takes hd, chars_putc, chars_putc] at heq
      exact List.append_cancel_left heq

/-- **The characters alone** are the same for all stacks and memories if the format takes no argument,
and only then. -/
theorem panic_chars_iff (fmt : List ℤ) (args : List ℕ) :
    (∀ mem, ∀ ap < 2 ^ 64, ∀ junk junk', chars (panic mem fmt ap junk') = chars (printf mem fmt args junk)) ↔
      Plain fmt := by
  constructor
  · intro hsame
    by_contra hno
    obtain ⟨mem, ap, hap, hne⟩ := chars_differ (slots args (fun _ => 0) 0).word hno
    exact hne _ _ rfl rfl (hsame mem ap hap (fun _ => 0) fun _ => 0)
  · exact fun h mem ap _ junk junk' => ((panic_meets_iff mem fmt args ap junk junk').mpr h).1

end UCore.Console.Printf

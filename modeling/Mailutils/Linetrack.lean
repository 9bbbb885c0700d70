import Mailutils.Characters
import Mathlib.Data.List.Infix
import Mathlib.Data.Nat.ModEq
import Mathlib.Tactic.Ring

/-!
The line tracker (`libmailutils/locus/linetrack.c`). It keeps the lengths of the latest lines in a
cyclic stack and, in a directory, where on the stack the lines of each source begin. The stack stands
for the upper part of an unbounded one, whose entry number `h` it keeps at the index `h % max_lines`.
-/
namespace Mailutils.Linetrack

/-- `struct source` -/
structure Source where
  file_name : List UInt8
  idx : Nat
  line : Nat
  deriving DecidableEq, Repr

/-- `struct mu_linetrack`; the sources from `s_head` to `s_tail`, and `cols` as it was allocated. -/
structure MuLinetrack where
  sources : List Source
  max_lines : Nat
  head : Nat
  tos : Nat
  cols : List Nat
  deriving DecidableEq, Repr

/-- `struct mu_locus_point` -/
structure Point where
  mu_file : List UInt8
  mu_line : Nat
  mu_col : Nat
  deriving DecidableEq, Repr

/-- `struct mu_locus_range` -/
structure Range where
  beg : Point
  fin : Point
  deriving DecidableEq, Repr

inductive Rc where
  | ok
  | EINVAL
  | ERANGE
  deriving DecidableEq, Repr

/-- The arithmetic of the type `unsigned`. -/
def unsigned (n : Nat) : Nat := n % 4294967296


def trk_incr (trk : MuLinetrack) (a : Nat) : Nat := (a + 1) % trk.max_lines
def trk_decr (trk : MuLinetrack) (a : Nat) : Nat := (a + trk.max_lines - 1) % trk.max_lines
def count_lines (trk : MuLinetrack) (start : Nat) : Nat :=
  unsigned ((trk.tos + trk.max_lines - start) % trk.max_lines + 1)

/-- `trk->cols[i] = v`; in this and in the functions below, `none` is an index outside of `cols`, a null pointer or
    a loop that does not end. -/
def store (trk : MuLinetrack) (i v : Nat) : Option MuLinetrack :=
  if i < trk.cols.length then some { trk with cols := trk.cols.set i v } else none

def push (trk : MuLinetrack) : Option MuLinetrack :=
  match trk.sources.getLast? with
  | none => none
  | some tail =>
    let tos := trk_incr trk trk.tos
    let head := if tos = trk.head then trk_incr trk trk.head else trk.head
    let tail := if tos = trk.head then { tail with idx := head, line := unsigned (tail.line + 1) } else tail
    let others := trk.sources.dropLast
    let sources := if others.getLast?.map Source.idx = some tail.idx then others else others ++ [tail]
    store { trk with tos := tos, head := head, sources := sources } tos 0

/-- `pop`; the inner `none` is its null pointer. -/
def pop (trk : MuLinetrack) : Option (Option MuLinetrack) :=
  if trk.tos = trk.head then some none
  else
    match trk.sources with
    | [] => none
    | source :: rest =>
      some (some { trk with tos := trk_decr trk trk.tos,
                            sources := if trk.tos = source.idx then rest else trk.sources })

/-- `mu_linetrack_origin`, where there is memory. -/
def mu_linetrack_origin (trk : MuLinetrack) (file : Option (List UInt8)) (line col : Nat) : Option (Rc × MuLinetrack) :=
  if line = 0 then some (.EINVAL, trk)
  else
    match file.or (trk.sources.head?.map Source.file_name) with
    | none => some (.EINVAL, trk)
    | some file_name => do
      let current ← trk.cols[trk.tos]?
      let trk ← if current ≠ 0 then push trk else some trk
      let trk ← store trk trk.tos col
      some (.ok, { trk with sources := ⟨file_name, trk.tos, line⟩ :: trk.sources })

/-- `mu_linetrack_create`, where there is memory. -/
def mu_linetrack_create (file_name : List UInt8) (max_lines : Nat) : Option MuLinetrack := do
  let trk ← store ⟨[], if max_lines < 2 then 2 else max_lines, 0, 0, List.replicate max_lines 0⟩ 0 0
  let (_, trk) ← mu_linetrack_origin trk (some file_name) 1 0
  some trk

def mu_linetrack_locus (trk : MuLinetrack) : Option Point := do
  let source ← trk.sources.head?
  let col ← trk.cols[trk.tos]?
  some ⟨source.file_name, unsigned (source.line + count_lines trk source.idx + 4294967295), col⟩

/-- The loop of `mu_linetrack_advance`. -/
def advance_loop : List UInt8 → MuLinetrack → Option MuLinetrack
  | [], trk => some trk
  | c :: text, trk => do
    let col ← trk.cols[trk.tos]?
    let trk ← store trk trk.tos (unsigned (col + 1))
    let trk ← if c = LF then push trk else some trk
    advance_loop text trk

def mu_linetrack_advance (trk : MuLinetrack) (loc : Range) (text : List UInt8) : Option (Range × MuLinetrack) :=
  if text = [] then some (loc, trk)
  else do
    let before ← mu_linetrack_locus trk
    let beg : Point := { before with mu_col := unsigned (before.mu_col + 1) }
    let trk ← advance_loop text trk
    let after ← mu_linetrack_locus trk
    if after.mu_col ≠ 0 then some (⟨beg, { after with mu_file := before.mu_file }⟩, trk)
    else do
      let last ← trk.cols[trk_decr trk trk.tos]?
      let fin : Point := ⟨before.mu_file, unsigned (after.mu_line + 4294967295), unsigned (last + 4294967295)⟩
      let beg := if unsigned (fin.mu_col + 1) = beg.mu_col then { beg with mu_col := fin.mu_col } else beg
      some (⟨beg, fin⟩, trk)

/-- `count_chars`; the inner `none` is `ERANGE`. -/
def count_chars (trk : MuLinetrack) : Nat → Nat → Nat → Option (Option Nat)
  | 0, _, _ => none
  | fuel + 1, i, nch => do
    let n ← trk.cols[i]?
    if 18446744073709551615 - nch < n then some none
    else if i = trk.tos then some (some (nch + n))
    else count_chars trk fuel (trk_incr trk i) (nch + n)

/-- The loop of `mu_linetrack_retreat`. -/
def retreat_loop : Nat → MuLinetrack → Option (Rc × MuLinetrack)
  | 0, trk => some (.ok, trk)
  | n + 1, trk => do
    let col ← trk.cols[trk.tos]?
    if col ≠ 0 then retreat_loop n (← store trk trk.tos (col - 1))
    else
      match ← pop trk with
      | none => some (.ERANGE, trk)
      | some trk => do
        let col ← trk.cols[trk.tos]?
        if col = 0 then some (.ERANGE, trk) else retreat_loop n (← store trk trk.tos (col - 1))

def mu_linetrack_retreat (trk : MuLinetrack) (n : Nat) : Option (Rc × MuLinetrack) := do
  match ← count_chars trk trk.max_lines trk.head 0 with
  | none => some (.ERANGE, trk)
  | some nch => if nch < n then some (.ERANGE, trk) else retreat_loop n trk

/-- A line, or the part of one that is in one source: its length so far, its number, and whether an origin is set
    at its beginning. -/
structure Entry where
  len : Nat
  line : Nat
  file : List UInt8
  first : Bool
  deriving DecidableEq, Repr

/-- The lines of a source are numbered one after the other, and all but the topmost have characters. -/
def Chain : List Entry → Prop
  | [] => False
  | [e] => e.first = true
  | e :: e' :: es => e'.len ≠ 0 ∧ (e.first = false → e.line = e'.line + 1 ∧ e.file = e'.file) ∧ Chain (e' :: es)

/-- The part of the stack above its `lost` first entries is in `cols`. -/
def Kept (cols : List Nat) (n lost : Nat) : List Entry → Prop
  | [] => True
  | e :: es => (lost ≤ es.length → cols[es.length % n]? = some e.len) ∧ Kept cols n lost es

/-- The sources with entries above the `lost` first ones. -/
def directory (n lost : Nat) : List Entry → List Source
  | [] => []
  | e :: es =>
    if es.length < lost then []
    else if e.first ∨ es.length = lost then ⟨e.file, es.length % n, e.line⟩ :: directory n lost es
    else directory n lost es

/-- The tracker stands for a stack of which it has lost the first entries. -/
structure Represents (trk : MuLinetrack) (es : List Entry) (lost : Nat) : Prop where
  two_le : 2 ≤ trk.max_lines
  allocated : trk.cols.length = trk.max_lines
  lost_lt : lost < es.length
  length_le : es.length ≤ lost + trk.max_lines
  tos_eq : trk.tos = (es.length - 1) % trk.max_lines
  head_eq : trk.head = lost % trk.max_lines
  kept : Kept trk.cols trk.max_lines lost es
  sources_eq : trk.sources = directory trk.max_lines lost es
  chain : Chain es

/-- The counters have room for the numbers. -/
structure Fits (es : List Entry) : Prop where
  entry : ∀ e ∈ es, e.len < 4294967296 ∧ e.line < 4294967296
  total : (es.map Entry.len).sum < 18446744073709551616

theorem slot_inj {n a b : Nat} (le : a ≤ b) (lt : b < a + n) (eq : a % n = b % n) : a = b := by
  have divides : n ∣ b - a := (Nat.modEq_iff_dvd' le).mp eq
  have zero := Nat.eq_zero_of_dvd_of_lt divides (by omega)
  omega

theorem slot_sub {n a b : Nat} (le : a ≤ b) (lt : b < a + n) : (b % n + n - a % n) % n = b - a := by
  have pos : 0 < n := by omega
  have small := Nat.mod_lt a pos
  have cong : b % n + n - a % n ≡ b - a [MOD n] := by
    apply Nat.ModEq.add_right_cancel' (a % n)
    rw [Nat.sub_add_cancel (by omega)]
    calc b % n + n ≡ b [MOD n] := by simp [Nat.ModEq]
      _ = b - a + a := by omega
      _ ≡ b - a + a % n [MOD n] := (Nat.mod_modEq a n).symm.add_left _
  rw [cong, Nat.mod_eq_of_lt (by omega)]

theorem slot_pred {n a : Nat} (pos : 0 < n) : ((a + 1) % n + n - 1) % n = a % n := by
  apply Nat.ModEq.add_right_cancel' 1
  rw [Nat.sub_add_cancel (by omega)]
  simp [Nat.ModEq]

theorem kept_set {cols : List Nat} {n lost h v : Nat} {es : List Entry} (kept : Kept cols n lost es)
    (above : es.length ≤ h) (lt : h < lost + n) : Kept (cols.set (h % n) v) n lost es := by
  induction es with
  | nil => trivial
  | cons e es ih =>
    simp only [List.length_cons] at above
    refine ⟨fun inside => ?_, ih kept.2 (by omega)⟩
    have other : h % n ≠ es.length % n := fun eq => by
      have := slot_inj (by omega) (by omega) eq.symm
      omega
    rw [List.getElem?_set_ne other]
    exact kept.1 inside

private theorem kept_mono {cols : List Nat} {n lost lost' : Nat} {es : List Entry} (le : lost ≤ lost')
    (kept : Kept cols n lost es) : Kept cols n lost' es := by
  induction es with
  | nil => trivial
  | cons e es ih => exact ⟨fun inside => kept.1 (by omega), ih kept.2⟩

theorem directory_idx {n lost : Nat} {es : List Entry} {s : Source} (mem : s ∈ directory n lost es) :
    ∃ h, lost ≤ h ∧ h < es.length ∧ s.idx = h % n := by
  induction es with
  | nil => simp [directory] at mem
  | cons e es ih =>
    rw [directory] at mem
    split_ifs at mem with below here
    · simp at mem
    · rcases List.mem_cons.mp mem with rfl | mem
      · exact ⟨es.length, by omega, by simp, rfl⟩
      · obtain ⟨h, low, high, eq⟩ := ih mem
        exact ⟨h, low, by simp; omega, eq⟩
    · obtain ⟨h, low, high, eq⟩ := ih mem
      exact ⟨h, low, by simp; omega, eq⟩

private theorem directory_line {n lost : Nat} {es : List Entry} {s : Source} (mem : s ∈ directory n lost es) :
    ∃ x ∈ es, x.line = s.line := by
  induction es with
  | nil => simp [directory] at mem
  | cons e es ih =>
    rw [directory] at mem
    split_ifs at mem with below here
    · simp at mem
    · rcases List.mem_cons.mp mem with rfl | mem
      · exact ⟨e, by simp, rfl⟩
      · obtain ⟨x, inside, line⟩ := ih mem
        exact ⟨x, by simp [inside], line⟩
    · obtain ⟨x, inside, line⟩ := ih mem
      exact ⟨x, by simp [inside], line⟩

theorem directory_below {n lost : Nat} {es : List Entry} (le : es.length ≤ lost) : directory n lost es = [] := by
  cases es with
  | nil => rfl
  | cons e es => rw [directory, if_pos (by simp only [List.length_cons] at le; omega)]

theorem directory_head {n lost : Nat} {e : Entry} {es : List Entry} (chain : Chain (e :: es)) (le : lost ≤ es.length) :
    ∃ source rest h, directory n lost (e :: es) = source :: rest ∧ source.file_name = e.file ∧ lost ≤ h ∧
      h ≤ es.length ∧ source.idx = h % n ∧ source.line + (es.length - h) = e.line := by
  induction es generalizing e with
  | nil =>
    obtain rfl : lost = 0 := by simpa using le
    exact ⟨⟨e.file, 0 % n, e.line⟩, [], 0, by simp [directory], rfl, le_rfl, le_rfl, rfl, by simp⟩
  | cons e' es ih =>
    rw [directory, if_neg (by omega)]
    split_ifs with here
    · exact ⟨_, _, (e' :: es).length, rfl, rfl, le, le_rfl, rfl, by simp⟩
    · obtain ⟨notFirst, notLast⟩ := not_or.mp here
      obtain ⟨-, step, chain'⟩ := chain
      obtain ⟨line, file⟩ := step (by simpa using notFirst)
      simp only [List.length_cons] at le notLast ⊢
      obtain ⟨source, rest, h, eq, name, low, high, idx, sum⟩ := ih chain' (by omega)
      exact ⟨source, rest, h, eq, by rw [name, file], low, by omega, idx, by omega⟩

theorem directory_eldest {n : Nat} (e : Entry) (es : List Entry) :
    directory n es.length (e :: es) = [⟨e.file, es.length % n, e.line⟩] := by
  simp [directory, directory_below]

theorem directory_above {n lost : Nat} {e : Entry} {es : List Entry} (lt : lost < es.length) :
    directory n lost (e :: es) =
      if e.first then ⟨e.file, es.length % n, e.line⟩ :: directory n lost es else directory n lost es := by
  have notBelow : ¬ es.length < lost := by omega
  have notLast : es.length ≠ lost := by omega
  simp [directory, notBelow, notLast]

theorem directory_last {n lost : Nat} {es : List Entry} (lt : lost < es.length) :
    ∃ others tail, directory n lost es = others ++ [tail] ∧ tail.idx = lost % n ∧
      ∀ s ∈ others, ∃ h, lost < h ∧ h < es.length ∧ s.idx = h % n := by
  induction es with
  | nil => simp at lt
  | cons e es ih =>
    by_cases eldest : es.length = lost
    · subst eldest
      exact ⟨[], _, directory_eldest e es, rfl, by simp⟩
    · have above : lost < es.length := by simp only [List.length_cons] at lt; omega
      obtain ⟨others, tail, eq, idx, places⟩ := ih above
      have places' : ∀ s ∈ others, ∃ h, lost < h ∧ h < (e :: es).length ∧ s.idx = h % n := fun s mem => by
        obtain ⟨h, low, high, at_h⟩ := places s mem
        exact ⟨h, low, by simp; omega, at_h⟩
      rw [directory_above above, eq]
      cases e.first with
      | false => exact ⟨others, tail, rfl, idx, places'⟩
      | true =>
        refine ⟨⟨e.file, es.length % n, e.line⟩ :: others, tail, rfl, idx, fun s mem => ?_⟩
        rcases List.mem_cons.mp mem with rfl | mem
        · exact ⟨es.length, above, by simp, rfl⟩
        · exact places' s mem

/-- When the eldest entry is lost, its source begins with the next one, unless another source does. -/
theorem directory_succ {n lost : Nat} {es : List Entry} {others : List Source} {tail : Source} (chain : Chain es)
    (lt : lost + 1 < es.length) (le : es.length ≤ lost + n) (eq : directory n lost es = others ++ [tail]) :
    directory n (lost + 1) es =
      if others.getLast?.map Source.idx = some ((lost + 1) % n) then others
      else others ++ [{ tail with idx := (lost + 1) % n, line := tail.line + 1 }] := by
  induction es generalizing others with
  | nil => simp at lt
  | cons e es ih =>
    simp only [List.length_cons] at lt le
    rw [directory_above (by omega)] at eq
    match es, chain with
    | e' :: es, ⟨_, step, chain⟩ =>
      simp only [List.length_cons] at lt le ih
      by_cases next : es.length = lost
      · -- the next entry is the topmost one
        subst next
        have top : directory n (es.length + 1) (e :: e' :: es) = [⟨e.file, (es.length + 1) % n, e.line⟩] :=
          directory_eldest e (e' :: es)
        rw [directory_eldest] at eq
        rw [top]
        cases first : e.first with
        | true =>
          rw [first, if_pos rfl, ← List.singleton_append] at eq
          obtain ⟨rfl, -⟩ := List.append_inj' eq rfl
          simp
        | false =>
          rw [first, if_neg (by simp), ← List.nil_append [_]] at eq
          obtain ⟨rfl, last⟩ := List.append_inj' eq rfl
          obtain ⟨line, file⟩ := step first
          simp [← List.singleton_inj.mp last, line, file]
      · rw [directory_above (by simp only [List.length_cons]; omega)]
        cases first : e.first with
        | false =>
          rw [first, if_neg (by simp)] at eq
          simpa using ih chain (by omega) (by omega) eq
        | true =>
          rw [first, if_pos rfl] at eq
          obtain ⟨others', tail', eldest, -, -⟩ :=
            @directory_last n lost (e' :: es) (by simp only [List.length_cons]; omega)
          cases others with
          | nil =>
            rw [eldest] at eq
            simp at eq
          | cons x others =>
            obtain ⟨rfl, rest⟩ := List.cons_eq_cons.mp eq
            rw [if_pos rfl, ih chain (by omega) (by omega) rest]
            cases others with
            | nil =>
              have other : (es.length + 1) % n ≠ (lost + 1) % n := fun same => by
                have := slot_inj (by omega) (by omega) same.symm
                omega
              simp [other]
            | cons y others =>
              rw [List.getLast?_cons_cons]
              split_ifs <;> rfl

section
variable {trk : MuLinetrack} {e : Entry} {es : List Entry} {lost : Nat}

theorem Represents.top (rep : Represents trk (e :: es) lost) : trk.cols[trk.tos]? = some e.len := by
  rw [rep.tos_eq]
  exact rep.kept.1 (Nat.le_of_lt_succ rep.lost_lt)

theorem Represents.locus (rep : Represents trk (e :: es) lost) (small : e.line < 4294967296) :
    mu_linetrack_locus trk = some ⟨e.file, e.line, e.len⟩ := by
  have lt := rep.lost_lt
  have le := rep.length_le
  simp only [List.length_cons] at lt le
  obtain ⟨source, rest, h, eq, name, low, high, idx, sum⟩ :=
    @directory_head trk.max_lines lost e es rep.chain (by omega)
  have count : count_lines trk source.idx = unsigned (es.length - h + 1) := by
    rw [count_lines, rep.tos_eq, idx, List.length_cons, Nat.add_sub_cancel, slot_sub high (by omega)]
  have line : unsigned (source.line + count_lines trk source.idx + 4294967295) = e.line := by
    rw [count, unsigned, unsigned]
    omega
  simp [mu_linetrack_locus, rep.sources_eq, eq, rep.top, line, name]

theorem Represents.store (rep : Represents trk (e :: es) lost) (v : Nat) :
    ∃ trk', Linetrack.store trk trk.tos v = some trk' ∧ Represents trk' ({ e with len := v } :: es) lost ∧
      trk'.max_lines = trk.max_lines := by
  obtain ⟨two_le, allocated, lost_lt, length_le, tos_eq, head_eq, kept, sources_eq, chain⟩ := rep
  simp only [List.length_cons, Nat.add_sub_cancel] at tos_eq length_le
  have inside : trk.tos < trk.cols.length := by rw [tos_eq, allocated]; exact Nat.mod_lt _ (by omega)
  refine ⟨_, if_pos inside, ⟨two_le, by simpa using allocated, lost_lt, length_le, tos_eq, head_eq, ⟨fun _ => ?_, ?_⟩,
    sources_eq, ?_⟩, rfl⟩
  · rw [← tos_eq, List.getElem?_set_self inside]
  · rw [tos_eq]
    exact kept_set kept.2 le_rfl (by omega)
  · cases es with
    | nil => exact chain
    | cons e' es => exact chain

/-- The number of entries that are lost after another one was pushed. -/
def lostAfter (n lost length : Nat) : Nat := if length = lost + n then lost + 1 else lost

theorem full_iff {n length : Nat} (lt : lost < length) (le : length ≤ lost + n) :
    length % n = lost % n ↔ length = lost + n := by
  constructor
  · intro same
    by_contra room
    have := slot_inj (by omega) (by omega) same.symm
    omega
  · intro eq
    rw [eq, Nat.add_mod_right]

/-- `push` repairs the directory when an entry is lost, and leaves it as it is otherwise. -/
theorem Represents.push_eq (rep : Represents trk (e :: es) lost) (small : ∀ x ∈ e :: es, x.line < 4294967296) :
    Linetrack.push trk = Linetrack.store
      { trk with tos := (es.length + 1) % trk.max_lines,
                 head := lostAfter trk.max_lines lost (es.length + 1) % trk.max_lines,
                 sources := directory trk.max_lines (lostAfter trk.max_lines lost (es.length + 1)) (e :: es) }
      ((es.length + 1) % trk.max_lines) 0 := by
  obtain ⟨two_le, allocated, lost_lt, length_le, tos_eq, head_eq, kept, sources_eq, chain⟩ := rep
  obtain ⟨others, tail, last, idx, places⟩ := @directory_last trk.max_lines lost (e :: es) lost_lt
  have succ := fun lt => directory_succ chain lt length_le last
  simp only [List.length_cons, Nat.add_sub_cancel] at tos_eq length_le lost_lt places succ
  have next : trk_incr trk trk.tos = (es.length + 1) % trk.max_lines := by rw [trk_incr, tos_eq, Nat.mod_add_mod]
  have head' : trk_incr trk (lost % trk.max_lines) = (lost + 1) % trk.max_lines := by rw [trk_incr, Nat.mod_add_mod]
  have source : trk.sources.getLast? = some tail ∧ trk.sources.dropLast = others := by simp [sources_eq, last]
  simp only [Linetrack.push, source.1, source.2, next, head', head_eq, full_iff lost_lt length_le, lostAfter]
  by_cases lose : es.length + 1 = lost + trk.max_lines
  · have succ := succ (by omega)
    simp only [lose, if_true, succ]
    split_ifs with other
    · rfl
    · rw [if_neg other] at succ
      obtain ⟨x, mem, line⟩ := directory_line
        (by rw [succ]; simp : { tail with idx := (lost + 1) % trk.max_lines, line := tail.line + 1 } ∈ _)
      have below : tail.line + 1 < 4294967296 := by
        rw [← show x.line = tail.line + 1 from line]
        exact small x mem
      rw [unsigned, Nat.mod_eq_of_lt below]
  · simp only [lose, if_false]
    have apart : others.getLast?.map Source.idx ≠ some tail.idx := by
      rw [idx]
      intro same
      obtain ⟨s, final, at_lost⟩ := Option.map_eq_some_iff.mp same
      obtain ⟨h, low, high, at_h⟩ := places s (List.mem_of_getLast? final)
      have := slot_inj (by omega) (by omega) (at_lost.symm.trans at_h)
      omega
    rw [if_neg apart, last]

theorem Represents.push (rep : Represents trk (e :: es) lost) (small : ∀ x ∈ e :: es, x.line < 4294967296)
    (nonempty : e.len ≠ 0) :
    ∃ trk', Linetrack.push trk = some trk' ∧ trk'.max_lines = trk.max_lines ∧
      Represents trk' (⟨0, e.line + 1, e.file, false⟩ :: e :: es) (lostAfter trk.max_lines lost (es.length + 1)) := by
  have eq := rep.push_eq small
  obtain ⟨two_le, allocated, lost_lt, length_le, tos_eq, head_eq, kept, sources_eq, chain⟩ := rep
  simp only [List.length_cons] at length_le lost_lt
  have inside : (es.length + 1) % trk.max_lines < trk.cols.length := by rw [allocated]; exact Nat.mod_lt _ (by omega)
  rw [Linetrack.store, if_pos inside] at eq
  have bounds : lost ≤ lostAfter trk.max_lines lost (es.length + 1) ∧
      lostAfter trk.max_lines lost (es.length + 1) ≤ es.length ∧
      es.length + 1 < lostAfter trk.max_lines lost (es.length + 1) + trk.max_lines := by
    unfold lostAfter
    split_ifs <;> omega
  refine ⟨_, eq, rfl, two_le, by simpa using allocated, by simp only [List.length_cons]; omega,
    by simp only [List.length_cons]; omega, rfl, rfl, ⟨fun _ => List.getElem?_set_self inside, ?_⟩, ?_,
    ⟨nonempty, fun _ => ⟨rfl, rfl⟩, chain⟩⟩
  · exact kept_set (kept_mono bounds.1 kept) (by simp) (by omega)
  · have above : lostAfter trk.max_lines lost (es.length + 1) < (e :: es).length := by
      simp only [List.length_cons]
      omega
    dsimp only
    rw [directory_above above]
    rfl

/-- An origin at the beginning of a line that is neither the first line of a source nor the eldest one. -/
theorem Represents.origin (rep : Represents trk (e :: es) lost) (notFirst : e.first = false)
    (lt : lost < es.length) (file : List UInt8) (line : Nat) :
    ∃ trk', Linetrack.store trk trk.tos 0 = some trk' ∧ trk'.max_lines = trk.max_lines ∧
      Represents { trk' with sources := ⟨file, trk'.tos, line⟩ :: trk'.sources }
        (⟨0, line, file, true⟩ :: es) lost := by
  obtain ⟨trk', eq, rep', same⟩ := rep.store 0
  refine ⟨trk', eq, same, rep'.two_le, rep'.allocated, rep'.lost_lt, rep'.length_le, rep'.tos_eq, rep'.head_eq,
    rep'.kept, ?_, ?_⟩
  · dsimp only
    rw [directory_above lt, rep'.sources_eq, directory_above lt, rep'.tos_eq]
    simp [notFirst]
  · cases es with
    | nil => simp at lt
    | cons e' es => exact ⟨rep.chain.1, by simp, rep.chain.2.2⟩

theorem Represents.pop (rep : Represents trk (e :: es) lost) (lt : lost < es.length) :
    ∃ trk', Linetrack.pop trk = some (some trk') ∧ trk'.max_lines = trk.max_lines ∧ Represents trk' es lost := by
  obtain ⟨two_le, allocated, lost_lt, length_le, tos_eq, head_eq, kept, sources_eq, chain⟩ := rep
  simp only [List.length_cons, Nat.add_sub_cancel] at length_le tos_eq
  have notLast : trk.tos ≠ trk.head := by
    rw [tos_eq, head_eq]
    intro same
    have := slot_inj (by omega) (by omega) same.symm
    omega
  have before : trk_decr trk trk.tos = (es.length - 1) % trk.max_lines := by
    have pred := @slot_pred trk.max_lines (es.length - 1) (by omega)
    rw [Nat.sub_add_cancel (by omega)] at pred
    rw [trk_decr, tos_eq, pred]
  have directory' : ∃ source rest, trk.sources = source :: rest ∧
      (if trk.tos = source.idx then rest else source :: rest) = directory trk.max_lines lost es := by
    rw [sources_eq, directory_above lt]
    cases e.first with
    | true => exact ⟨_, _, rfl, if_pos tos_eq⟩
    | false =>
      obtain ⟨others, tail, last, -, -⟩ := @directory_last trk.max_lines lost es lt
      obtain ⟨source, rest, eq⟩ := List.exists_cons_of_ne_nil (show directory trk.max_lines lost es ≠ [] by simp [last])
      obtain ⟨h, low, high, idx⟩ := directory_idx (show source ∈ directory trk.max_lines lost es by simp [eq])
      refine ⟨source, rest, by simpa using eq, ?_⟩
      rw [if_neg, eq]
      rw [tos_eq, idx]
      intro same
      have := slot_inj (by omega) (by omega) same.symm
      omega
  obtain ⟨source, rest, eq, repaired⟩ := directory'
  refine ⟨{ trk with tos := (es.length - 1) % trk.max_lines, sources := directory trk.max_lines lost es }, ?_, rfl,
    two_le, allocated, lt, by dsimp only; omega, rfl, head_eq, kept.2, rfl, ?_⟩
  · rw [Linetrack.pop, if_neg notLast, eq]
    dsimp only
    rw [← eq] at repaired ⊢
    rw [before, repaired]
  · cases es with
    | nil => simp at lt
    | cons e' es => exact chain.2.2

/-- The characters of the entries that are kept. -/
def keptChars (lost : Nat) : List Entry → Nat
  | [] => 0
  | e :: es => if es.length < lost then 0 else e.len + keptChars lost es

theorem keptChars_le (lost : Nat) (es : List Entry) : keptChars lost es ≤ (es.map Entry.len).sum := by
  induction es with
  | nil => simp [keptChars]
  | cons e es ih =>
    rw [keptChars, List.map_cons, List.sum_cons]
    split_ifs <;> omega

theorem keptChars_below (le : es.length ≤ lost) : keptChars lost es = 0 := by
  cases es with
  | nil => rfl
  | cons e es => rw [keptChars, if_pos (by simp only [List.length_cons] at le; omega)]

theorem kept_at {cols : List Nat} {n h : Nat} (kept : Kept cols n lost es) (low : lost ≤ h) (high : h < es.length) :
    ∃ len, cols[h % n]? = some len ∧ keptChars h es = len + keptChars (h + 1) es := by
  induction es with
  | nil => simp at high
  | cons e es ih =>
    simp only [List.length_cons] at high
    by_cases top : h = es.length
    · subst top
      exact ⟨e.len, kept.1 low, by simp [keptChars, keptChars_below]⟩
    · obtain ⟨len, at_h, sum⟩ := ih kept.2 (by omega)
      refine ⟨len, at_h, ?_⟩
      rw [keptChars, keptChars, if_neg (by omega), if_neg (by omega), sum]
      omega

theorem Represents.count_chars (rep : Represents trk es lost) {fuel h nch : Nat} (low : lost ≤ h) (high : h < es.length)
    (enough : es.length ≤ h + fuel) (small : nch + keptChars h es < 18446744073709551616) :
    Linetrack.count_chars trk fuel (h % trk.max_lines) nch = some (some (nch + keptChars h es)) := by
  induction fuel generalizing h nch with
  | zero => omega
  | succ fuel ih =>
    obtain ⟨len, at_h, sum⟩ := kept_at rep.kept low high
    have length_le := rep.length_le
    rw [Linetrack.count_chars, at_h, Option.bind_eq_bind, Option.bind_some, if_neg (by omega), rep.tos_eq]
    by_cases top : h = es.length - 1
    · rw [if_pos (by rw [top]), sum, keptChars_below (by omega)]
      rfl
    · have other : h % trk.max_lines ≠ (es.length - 1) % trk.max_lines := fun same => by
        have := slot_inj (by omega) (by omega) same
        omega
      rw [if_neg other, trk_incr, Nat.mod_add_mod, ih (by omega) (by omega) (by omega) (by omega), sum, Nat.add_assoc]

/-- One character is taken back. -/
def unstep : List Entry → List Entry
  | [] => []
  | e :: es =>
    if e.len ≠ 0 then { e with len := e.len - 1 } :: es
    else
      match es with
      | [] => []
      | e' :: es => { e' with len := e'.len - 1 } :: es

theorem Represents.retreat_loop {n : Nat} (rep : Represents trk es lost) (le : n ≤ keptChars lost es) :
    ∃ trk', Linetrack.retreat_loop n trk = some (.ok, trk') ∧ trk'.max_lines = trk.max_lines ∧
      Represents trk' (unstep^[n] es) lost := by
  induction n generalizing trk es with
  | zero => exact ⟨trk, rfl, rfl, rep⟩
  | succ n ih =>
    match es, rep.lost_lt with
    | e :: es, lost_lt =>
      have le' := le
      simp only [List.length_cons] at lost_lt
      rw [keptChars, if_neg (by omega)] at le'
      rw [Linetrack.retreat_loop, rep.top, Option.bind_eq_bind, Option.bind_some, Function.iterate_succ_apply]
      by_cases nonempty : e.len ≠ 0
      · obtain ⟨trk', eq, rep', same⟩ := rep.store (e.len - 1)
        have more : n ≤ keptChars lost ({ e with len := e.len - 1 } :: es) := by
          rw [keptChars, if_neg (by omega)]
          dsimp only
          omega
        obtain ⟨trk'', run, same', rep''⟩ := ih rep' more
        refine ⟨trk'', ?_, same'.trans same, ?_⟩
        · simpa [nonempty, eq] using run
        · simpa [unstep, nonempty] using rep''
      · -- the newline of the line before, which has at least this character
        have lt : lost < es.length := by
          by_contra last
          rw [keptChars_below (by omega)] at le'
          omega
        obtain ⟨trk₁, popped, same, rep₁⟩ := rep.pop lt
        match es, rep.chain, rep₁ with
        | e' :: es, ⟨some_char, _, _⟩, rep₁ =>
          simp only [List.length_cons] at lt
          obtain ⟨trk', eq, rep', same₁⟩ := rep₁.store (e'.len - 1)
          have more : n ≤ keptChars lost ({ e' with len := e'.len - 1 } :: es) := by
            rw [keptChars, if_neg (by omega)] at le' ⊢
            dsimp only
            omega
          obtain ⟨trk'', run, same', rep''⟩ := ih rep' more
          refine ⟨trk'', ?_, same'.trans (same₁.trans same), ?_⟩
          · simpa [not_not.mp nonempty, popped, rep₁.top, some_char, eq] using run
          · simpa [unstep, not_not.mp nonempty] using rep''

/-- A retreat that stays among the entries that are kept takes its characters back, any other changes nothing. -/
theorem Represents.retreat (rep : Represents trk es lost) (total : (es.map Entry.len).sum < 18446744073709551616)
    (n : Nat) :
    if n ≤ keptChars lost es then ∃ trk', mu_linetrack_retreat trk n = some (.ok, trk') ∧
      trk'.max_lines = trk.max_lines ∧ Represents trk' (unstep^[n] es) lost
    else mu_linetrack_retreat trk n = some (.ERANGE, trk) := by
  have lost_lt := rep.lost_lt
  have sum := keptChars_le lost es
  have count : Linetrack.count_chars trk trk.max_lines (lost % trk.max_lines) 0 = some (some (0 + keptChars lost es)) :=
    rep.count_chars le_rfl lost_lt rep.length_le (by omega)
  rw [Nat.zero_add, ← rep.head_eq] at count
  split_ifs with le
  · obtain ⟨trk', run, same, rep'⟩ := rep.retreat_loop le
    refine ⟨trk', ?_, same, rep'⟩
    simp [mu_linetrack_retreat, count, Nat.not_lt.mpr le, run]
  · simp [mu_linetrack_retreat, count, Nat.not_le.mp le]

end

end Mailutils.Linetrack

import Mailutils.Mailbox
import Mailutils.Lines
import Mailutils.Stream
import Mathlib.Data.List.Sort

/-!
Copying a header without some of its fields (`libmailutils/stream/hdrcpy.c`). The
copy is a machine over single bytes: it holds back what may become the name of an
excluded field, drops the line once the name is complete, and stops at the empty
line. A line that ends while it still agrees with such a name runs on into the
next one, and the lines that continue an excluded field stay. An error of a
write is noticed only if it is the very last one: the next read replaces it.
-/
namespace Mailutils.HeaderCopy
open Mailutils.Filter Mailutils.Mailbox Mailutils.Stream

/-- The states of the copy. -/
inductive SaveState
  | init | expect | skip | copy | stop
  deriving DecidableEq, Repr

/-- The variables of the copy; `la_idx` is the length of `lookahead`. -/
structure Copier where
  state : SaveState := .init
  i : Nat := 0
  j : Nat := 0
  lookahead : List UInt8 := []
  deriving DecidableEq, Repr

def make_exclusion_list (names : List (List UInt8)) : List (List UInt8) :=
  (names.map fun name => name.map tolower ++ [COLON]).insertionSort (· ≤ ·)

/-- The length of the longest name and its colon. -/
def longest (names : List (List UInt8)) : Nat := (names.map fun name => name.length + 1).foldl max 0

/-- The next name after the `i`th that agrees with it so far and goes on with `c`. -/
def nextName (j : Nat) (c : UInt8) : List UInt8 → List (List UInt8) → Nat → Option Nat
  | _, [], _ => none
  | name, next :: rest, i =>
    if name.takeD j 0 ≠ next.takeD j 0 then none
    else if next.getD j 0 = c then some (i + 1)
    else nextName j c next rest (i + 1)

/-- Which operations of a copy fail: the reads and the writes of the held back
    bytes and of the byte itself, by the number of the byte, and the last write. -/
structure Faults where
  read : Nat → Bool := fun _ => false
  held : Nat → Fault := fun _ => none
  char : Nat → Fault := fun _ => none
  last : Fault := none

section
variable (exclude : List (List UInt8)) (la_max : Nat)

/-- The bytes of a name are looked at in lower case and held back, as long as there is room. -/
def lookAhead (st : Copier) (c : UInt8) : Copier × UInt8 :=
  if st.state = .init ∨ st.state = .expect then
    if st.lookahead.length = la_max then ({ st with state := .copy }, c)
    else ({ st with lookahead := st.lookahead ++ [c] }, tolower c)
  else (st, c)

/-- The case `save_state_init` -/
def copy_init (st : Copier) (c : UInt8) : Copier :=
  if c = LF then { st with state := .stop }
  else
    match exclude.findIdx? fun name => name.getD 0 0 = c with
    | some i => { st with state := .expect, i, j := 1 }
    | none => { st with state := .copy, j := 0 }

/-- The case `save_state_expect` -/
def copy_expect (st : Copier) (c : UInt8) : Copier :=
  let name := exclude.getD st.i []
  match if name.getD st.j 0 = c then some st.i else nextName st.j c name (exclude.drop (st.i + 1)) st.i with
  | none => { st with state := .copy }
  | some i =>
    if c = COLON then { st with i, lookahead := [], state := .skip }
    else if (exclude.getD i []).getD (st.j + 1) 0 = 0 then { st with i, j := st.j + 1, state := .copy }
    else { st with i, j := st.j + 1 }

/-- The case `save_state_copy` -/
def copy_copy (held char : Fault) (st : Copier) (dst : File) (c : UInt8) : Copier × File :=
  let (dst, ok) := if st.lookahead = [] then (dst, true) else dst.write held st.lookahead
  if ok then
    ({ st with lookahead := [], state := if c = LF then .init else .copy }, (dst.write char [c]).1)
  else (st, dst)

/-- The `switch` for one byte. -/
def copy_byte (held char : Fault) (st : Copier) (dst : File) (c : UInt8) : Copier × File :=
  let (st, c) := lookAhead la_max st c
  match st.state with
  | .init => (copy_init exclude st c, dst)
  | .expect => (copy_expect exclude st c, dst)
  | .copy => copy_copy held char st dst c
  | .skip => ({ st with state := if c = LF then .init else .skip }, dst)
  | .stop => (st, dst)

/-- The loop, at the byte `n`; whether it ended well, and what is left to read. -/
def copy_loop (faults : Faults) : Nat → Copier → File → List UInt8 → Copier × File × List UInt8 × Bool
  | n, st, dst, [] => (st, dst, [], !faults.read n)
  | n, st, dst, c :: src =>
    if faults.read n then (st, dst, c :: src, false)
    else
      let (st, dst) := copy_byte exclude la_max (faults.held n) (faults.char n) st dst c
      if st.state = .stop then (st, dst, src, true) else copy_loop faults (n + 1) st dst src

end

/-- `mu_stream_header_copy`: the destination, what it has not read of the source, and whether it succeeds. -/
def mu_stream_header_copy (faults : Faults) (exclude_names : List (List UInt8)) (dst : File) (src : List UInt8) :
    File × List UInt8 × Bool :=
  let (st, dst, src, ok) :=
    copy_loop (make_exclusion_list exclude_names) (longest exclude_names) faults 0 {} dst src
  if ok ∧ 1 < st.lookahead.length then
    let (dst, ok) := dst.write faults.last st.lookahead.dropLast
    (dst, src, ok)
  else (dst, src, ok)

section
variable (exclude : List (List UInt8)) (la_max : Nat) {base : List UInt8}

private theorem copy_copy_extends (held char : Fault) (st : Copier) {dst : File} (c : UInt8) (after : dst.Extends base) :
    (copy_copy held char st dst c).2.Extends base := by
  have written : (if st.lookahead = [] then (dst, true) else dst.write held st.lookahead).1.Extends base := by
    split
    · exact after
    · exact write_extends after held _
  unfold copy_copy
  generalize (if st.lookahead = [] then (dst, true) else dst.write held st.lookahead) = result at written ⊢
  dsimp only
  split
  · exact write_extends written char _
  · exact written

private theorem copy_byte_extends (held char : Fault) (st : Copier) {dst : File} (c : UInt8) (after : dst.Extends base) :
    (copy_byte exclude la_max held char st dst c).2.Extends base := by
  unfold copy_byte
  dsimp only
  split
  all_goals first
    | exact after
    | exact copy_copy_extends held char _ _ after

theorem copy_loop_extends (faults : Faults) (src : List UInt8) (n : Nat) (st : Copier) {dst : File}
    (after : dst.Extends base) : (copy_loop exclude la_max faults n st dst src).2.1.Extends base := by
  induction src generalizing n st dst with
  | nil => exact after
  | cons c src ih =>
    have next := copy_byte_extends exclude la_max (faults.held n) (faults.char n) st c after
    unfold copy_loop
    split
    · exact after
    · dsimp only
      split
      · exact next
      · exact ih _ _ next

theorem header_copy_extends (faults : Faults) (exclude_names : List (List UInt8)) {dst : File} (src : List UInt8)
    (after : dst.Extends base) : (mu_stream_header_copy faults exclude_names dst src).1.Extends base := by
  have copied := copy_loop_extends (make_exclusion_list exclude_names) (longest exclude_names) faults src 0 {} after
  unfold mu_stream_header_copy
  dsimp only
  split
  · exact write_extends copied _ _
  · exact copied

theorem copy_copy_apart (held char : Fault) (st : Copier) (dst dst' : File) (c : UInt8) :
    (copy_copy held char st dst c).1 = (copy_copy held char st dst' c).1 := by
  unfold copy_copy
  by_cases none : st.lookahead = []
  · simp [none]
  · cases held <;> simp [none, File.write]

theorem copy_byte_apart (held char : Fault) (st : Copier) (dst dst' : File) (c : UInt8) :
    (copy_byte exclude la_max held char st dst c).1 = (copy_byte exclude la_max held char st dst' c).1 := by
  unfold copy_byte
  dsimp only
  split
  all_goals first
    | rfl
    | exact copy_copy_apart held char _ _ _ _

theorem copy_loop_apart (faults : Faults) (src : List UInt8) (n : Nat) (st : Copier) (dst dst' : File) :
    (copy_loop exclude la_max faults n st dst src).1 = (copy_loop exclude la_max faults n st dst' src).1 ∧
      (copy_loop exclude la_max faults n st dst src).2.2 = (copy_loop exclude la_max faults n st dst' src).2.2 := by
  induction src generalizing n st dst dst' with
  | nil => exact ⟨rfl, rfl⟩
  | cons c src ih =>
    have same := copy_byte_apart exclude la_max (faults.held n) (faults.char n) st dst dst' c
    unfold copy_loop
    by_cases failed : faults.read n = true
    · simp [failed]
    · simp only [failed, Bool.false_eq_true, if_false, same]
      split
      · exact ⟨rfl, rfl⟩
      · exact ih _ _ _ _

theorem header_copy_apart (faults : Faults) (exclude_names : List (List UInt8)) (dst dst' : File) (src : List UInt8) :
    (mu_stream_header_copy faults exclude_names dst src).2 = (mu_stream_header_copy faults exclude_names dst' src).2 := by
  obtain ⟨same, result⟩ :=
    copy_loop_apart (make_exclusion_list exclude_names) (longest exclude_names) faults src 0 {} dst dst'
  unfold mu_stream_header_copy
  simp only [same, result]
  split
  · cases faults.last <;> rfl
  · rfl

end

end Mailutils.HeaderCopy

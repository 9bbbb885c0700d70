import Mailutils.FilterRuns
import Mailutils.Dq

/-!
The filter that joins continued lines (`libmailutils/filter/linecon.c`). A backslash waits for the byte behind it, and
two bytes that are not a continuation are written together. When there is room for the backslash only, the next call
begins anew with the second byte. If that is a backslash too, a newline behind it is taken for a continuation; and
the backslash that waits at the end of the text is never written (`linecon_iff`).
-/
namespace Mailutils.Linecon
open Mailutils.Transducer Mailutils.Filter

/-- `enum linecon_state`, with what is to be replayed from the rollback buffer. -/
inductive State
  | init
  | escape
  | rollback (b : UInt8) (buf : List UInt8)
  deriving DecidableEq, Repr

/-- `struct linecon_data`. The starter of the lines with line numbers is there with `LINECON_LINE_INFO`. -/
structure Data where
  line_info : Option (List UInt8)
  continuation : Bool
  state : State
  line_number : Nat
  deriving DecidableEq, Repr

/-- The state in which a buffer is replayed. -/
def replay : List UInt8 → State
  | [] => .init
  | b :: buf => .rollback b buf

/-- The format `%s %lu` and a newline. -/
def info (starter : List UInt8) (line_number : Nat) : List UInt8 := starter ++ SP :: printLu line_number ++ [LF]

/-- `pd->line_number++` -/
def next (line_number : Nat) : Nat := (line_number + 1) % 2 ^ 64

/-- A newline that is not escaped. -/
def newline (d : Data) : Data :=
  { d with
    line_number := next d.line_number
    continuation := false
    state := if d.continuation then replay (info (d.line_info.getD []) (next d.line_number)) else .init }

/-- A newline that is escaped. -/
def continued (d : Data) : Data :=
  { d with
    line_number := next d.line_number
    continuation := d.continuation || d.line_info.isSome
    state := .init }

/-- The loop of `_linecon_decoder`, with the room that is left: the state, the input not read and the output after
    it. -/
def linecon_loop (d : Data) (input : List UInt8) (room : Nat) (output : List UInt8) : Data × List UInt8 × List UInt8 :=
  match input, room with
  | [], _ => (d, [], output)
  | c :: rest, 0 => (d, c :: rest, output)
  | c :: rest, room + 1 =>
    match d.state with
    | .init =>
      if c = BACKSLASH then linecon_loop { d with state := .escape } rest (room + 1) output
      else if c = LF then linecon_loop (newline d) rest room (output ++ [c])
      else linecon_loop d rest room (output ++ [c])
    | .escape =>
      if c = LF then linecon_loop (continued d) rest (room + 1) output
      else
        match room with
        | 0 => ({ d with state := .init }, c :: rest, output ++ [BACKSLASH])
        | room + 1 => linecon_loop { d with state := .init } rest room (output ++ [BACKSLASH, c])
    | .rollback b buf => linecon_loop { d with state := replay buf } (c :: rest) room (output ++ [b])
termination_by input.length + room

def _linecon_decoder : Xcode Data := fun d cmd input osize =>
  match cmd with
  | .init => ⟨.ok, { d with state := .init }, input.length, osize, [], false⟩
  | .done => ⟨.ok, d, input.length, osize, [], false⟩
  | _ =>
    let (d, left, output) := linecon_loop d input osize []
    ⟨.ok, d, input.length - left.length, output.length, output, false⟩

/-- The state before the first call. -/
def opened (line_info : Option (List UInt8)) : Data := ⟨line_info, false, .init, 1⟩

/-- The arguments of the filter, behind its name. -/
def line_info : Option (List UInt8) → List (List UInt8) → Option (Option (List UInt8))
  | info, [] => some info
  | info, arg :: args =>
    if arg.head? = some 45 then
      if arg.tail.head? = some 105 then
        match args with
        | [] => none
        | starter :: args => line_info (some starter) args
      else none
    else line_info info args

def alloc_state (args : List (List UInt8)) : Option Data := (line_info none args).map opened

/-- A byte outside of an escape. -/
def read (d : Data) (c : UInt8) : Data × List UInt8 :=
  if c = BACKSLASH then ({ d with state := .escape }, []) else if c = LF then (newline d, [c]) else (d, [c])

/-- A byte. -/
def absorb (d : Data) (c : UInt8) : Data × List UInt8 :=
  match d.state with
  | .init => read d c
  | .escape => if c = LF then (continued d, []) else ({ d with state := .init }, [BACKSLASH, c])
  | .rollback b buf => ((read { d with state := .init } c).1, b :: buf ++ (read { d with state := .init } c).2)

/-- What is written for a text with room enough. -/
def total (d : Data) (x : List UInt8) : List UInt8 := (feed absorb d x).2

@[simp] theorem total_nil (d : Data) : total d [] = [] := rfl

theorem total_cons (d : Data) (c : UInt8) (rest : List UInt8) :
    total d (c :: rest) = (absorb d c).2 ++ total (absorb d c).1 rest := rfl

section
variable {d : Data} {c : UInt8} {rest : List UInt8}

theorem total_backslash (init : d.state = .init) :
    total d (BACKSLASH :: rest) = total { d with state := .escape } rest := by
  simp [total_cons, absorb, init, read]

theorem total_newline (init : d.state = .init) : total d (LF :: rest) = LF :: total (newline d) rest := by
  simp [total_cons, absorb, init, read, show LF ≠ BACKSLASH by decide]

theorem total_plain (init : d.state = .init) (c1 : c ≠ BACKSLASH) (c2 : c ≠ LF) :
    total d (c :: rest) = c :: total d rest := by
  simp [total_cons, absorb, init, read, c1, c2]

theorem total_continued (escape : d.state = .escape) : total d (LF :: rest) = total (continued d) rest := by
  simp [total_cons, absorb, escape]

theorem total_escaped (escape : d.state = .escape) (c2 : c ≠ LF) :
    total d (c :: rest) = BACKSLASH :: c :: total { d with state := .init } rest := by
  simp [total_cons, absorb, escape, c2]

theorem total_rollback {b : UInt8} {buf : List UInt8} (rollback : d.state = .rollback b buf) :
    total d (c :: rest) = b :: buf ++ total { d with state := .init } (c :: rest) := by
  simp [total_cons, absorb, rollback]

theorem total_replay (buf : List UInt8) :
    total { d with state := replay buf } (c :: rest) = buf ++ total { d with state := .init } (c :: rest) := by
  cases buf with
  | nil => rfl
  | cons b buf => exact total_rollback rfl
end

/-- No newline comes behind two backslashes, and no backslash comes last. -/
def Separate (x : List UInt8) : Prop := ¬ [BACKSLASH, BACKSLASH, LF] <:+: x ∧ x.getLast? ≠ some BACKSLASH

theorem separate_tail {c : UInt8} {rest : List UInt8} (separate : Separate (c :: rest)) : Separate rest := by
  refine ⟨fun pair => separate.1 (pair.trans (List.suffix_cons c rest).isInfix), fun last => separate.2 ?_⟩
  rw [List.getLast?_cons, last]
  rfl

/-- It makes no difference then whether a second backslash is written with the first one or taken for another escape. -/
theorem total_pair {rest : List UInt8} (separate : Separate (BACKSLASH :: BACKSLASH :: rest)) (d : Data) :
    total { d with state := .escape } rest = BACKSLASH :: total { d with state := .init } rest := by
  induction rest with
  | nil => exact absurd rfl separate.2
  | cons c rest ih =>
    have c2 : c ≠ LF := by
      rintro rfl
      exact separate.1 ⟨[], rest, rfl⟩
    rw [total_escaped rfl c2]
    by_cases c1 : c = BACKSLASH
    · subst c1
      rw [total_backslash rfl, ih (separate_tail separate)]
    · rw [total_plain rfl c1 c2]

theorem total_cut {c : UInt8} {rest : List UInt8} (separate : Separate (BACKSLASH :: c :: rest)) (c2 : c ≠ LF)
    {d : Data} (init : d.state = .init) : total d (c :: rest) = c :: total d rest := by
  by_cases c1 : c = BACKSLASH
  · subst c1
    rw [total_backslash init, total_pair separate d]
    congr 2
    rw [← init]
  · exact total_plain init c1 c2

/-- The text with its continued lines joined: every backslash with a newline behind it is removed and every other byte
    is kept. With a starter there comes a line with the number of the line behind every line that was continued, if
    something follows. -/
def joined (line_info : Option (List UInt8)) : Nat → Bool → List UInt8 → List UInt8
  | _, _, [] => []
  | _, _, [c] => [c]
  | n, continuation, c :: e :: rest =>
    if c = BACKSLASH ∧ e = LF then joined line_info (next n) (continuation || line_info.isSome) rest
    else if c = LF then
      LF :: ((if continuation then info (line_info.getD []) (next n) else []) ++
        joined line_info (next n) false (e :: rest))
    else c :: joined line_info n continuation (e :: rest)

example : joined (some (ascii "#")) 1 false (ascii "a\\\nb\nc\n") = ascii "ab\n# 3\nc\n" := by decide +kernel

theorem total_joined {x : List UInt8} (separate : Separate x) {d : Data} (init : d.state = .init) :
    total d x = joined d.line_info d.line_number d.continuation x := by
  induction size : x.length using Nat.strong_induction_on generalizing x d with
  | _ n ih =>
    subst size
    cases x with
    | nil => rfl
    | cons c rest =>
      cases rest with
      | nil =>
        have c1 : c ≠ BACKSLASH := by
          rintro rfl
          exact separate.2 rfl
        by_cases c2 : c = LF
        · subst c2
          rw [total_newline init]
          rfl
        · rw [total_plain init c1 c2]
          rfl
      | cons e rest =>
        have less : (e :: rest).length < (c :: e :: rest).length := Nat.lt_succ_self _
        have separate' := separate_tail separate
        rw [joined]
        by_cases c1 : c = BACKSLASH
        · subst c1
          by_cases e2 : e = LF
          · subst e2
            rw [if_pos ⟨rfl, rfl⟩, total_backslash init, total_continued rfl]
            exact ih rest.length (by simp only [List.length_cons]; omega) (separate_tail separate') rfl rfl
          · rw [if_neg (fun both => e2 both.2), if_neg (by decide), total_backslash init, total_escaped rfl e2,
              ← ih _ less separate' init rfl, total_cut separate e2 init]
            congr 3
            rw [← init]
        · rw [if_neg (fun both => c1 both.1)]
          by_cases c2 : c = LF
          · subst c2
            rw [if_pos rfl, total_newline init]
            cases more : d.continuation with
            | false =>
              have same : newline d = { d with line_number := next d.line_number, state := .init } := by
                simp [newline, more]
              rw [same, ih _ less separate' rfl rfl]
              simp [more]
            | true =>
              have same : newline d =
                  { ({ d with line_number := next d.line_number, continuation := false } : Data) with
                    state := replay (info (d.line_info.getD []) (next d.line_number)) } := by
                simp [newline, more]
              rw [same, total_replay, ih _ less separate' rfl rfl]
              simp
          · rw [if_neg c2, total_plain init c1 c2, ih _ less separate' init rfl]

/-- The backslash that has been read but not written. -/
def held (d : Data) : List UInt8 := if d.state = .escape then [BACKSLASH] else []

@[simp] theorem held_replay (d : Data) (buf : List UInt8) : held { d with state := replay buf } = [] := by
  cases buf <;> rfl

@[simp] theorem held_newline (d : Data) : held (newline d) = [] := by
  simp only [newline]
  split
  · exact held_replay d _
  · rfl

private theorem loop_kept (tail : List UInt8) (d : Data) (input : List UInt8) (room : Nat) (output : List UInt8)
    (separate : Separate (held d ++ (input ++ tail))) :
    ∃ wrote, Kept total (fun d p => Separate (held d ++ p)) tail d input room output
      (linecon_loop d input room output) wrote := by
  fun_induction linecon_loop d input room output with
  | case1 d room output => exact ⟨[], kept_here separate (.inl rfl)⟩
  | case2 d output c rest => exact ⟨[], kept_here separate (.inr rfl)⟩
  | case3 d output rest room init ih =>
    simp only [held, init] at separate
    obtain ⟨wrote, kept⟩ := ih separate
    exact ⟨_, kept_silent kept (List.suffix_cons _ _) (total_backslash init)⟩
  | case4 d output rest room init _ ih =>
    simp only [held, init] at separate
    obtain ⟨wrote, kept⟩ := ih (by rw [held_newline]; exact separate_tail separate)
    exact ⟨_, kept_round [LF] kept (List.suffix_cons _ _) (total_newline init)⟩
  | case5 d output c rest room init c1 c2 ih =>
    simp only [held, init] at separate ih
    obtain ⟨wrote, kept⟩ := ih (separate_tail separate)
    exact ⟨_, kept_round [c] kept (List.suffix_cons _ _) (total_plain init c1 c2)⟩
  | case6 d output rest room escape ih =>
    simp only [held, escape] at separate
    obtain ⟨wrote, kept⟩ := ih (separate_tail (separate_tail separate))
    exact ⟨_, kept_silent kept (List.suffix_cons _ _) (total_continued escape)⟩
  | case7 d output c rest escape c2 =>
    -- the second byte is left for the next call
    simp only [held, escape] at separate
    refine ⟨[BACKSLASH], List.suffix_rfl, separate_tail separate, rfl, ?_, .inr (Nat.le_refl 1)⟩
    rw [List.cons_append, total_escaped escape c2]
    exact congrArg (BACKSLASH :: ·) (total_cut separate c2 rfl).symm
  | case8 d output c rest escape c2 room ih =>
    simp only [held, escape] at separate
    obtain ⟨wrote, kept⟩ := ih (separate_tail (separate_tail separate))
    exact ⟨_, kept_round [BACKSLASH, c] kept (List.suffix_cons _ _) (total_escaped escape c2)⟩
  | case9 d output c rest room b buf rollback ih =>
    simp only [held, rollback] at separate
    obtain ⟨wrote, kept⟩ := ih (by rw [held_replay]; exact separate)
    refine ⟨_, kept_round [b] kept List.suffix_rfl ?_⟩
    rw [List.cons_append, total_replay, total_rollback rollback]
    rfl

theorem decoder_calls (d : Data) {cmd : Command} (runs : cmd = .lastbuf ∨ cmd = .xcode) (input : List UInt8)
    (osize : Nat) : _linecon_decoder d cmd input osize = ⟨.ok, (linecon_loop d input osize []).1,
      input.length - (linecon_loop d input osize []).2.1.length, (linecon_loop d input osize []).2.2.length,
      (linecon_loop d input osize []).2.2, false⟩ := by
  rcases runs with rfl | rfl <;> rfl

/-- Whatever the buffers, what is written for such texts is what is written with room enough. -/
theorem decoder_yields {x : List UInt8} (separate : Separate x) {d : Data} (init : d.state = .init) :
    Yields _linecon_decoder d 1 (·.last) x (total d x) := by
  refine yields_of_kept total (fun d p => Separate (held d ++ p)) (fun d input room => linecon_loop d input room [])
    (fun d o input => decoder_calls d o.command_cases input o.room)
    (fun tail d input room => loop_kept tail d input room []) (fun _ _ => rfl) ?_
  simpa [held, init] using separate

private theorem loop_replay (d : Data) (c : UInt8) (rest : List UInt8) (room : Nat) (buf output : List UInt8) :
    linecon_loop { d with state := replay buf } (c :: rest) (room + buf.length) output =
      linecon_loop { d with state := .init } (c :: rest) room (output ++ buf) := by
  induction buf generalizing output with
  | nil => rw [List.append_nil]; rfl
  | cons b buf ih =>
    rw [List.length_cons, ← Nat.add_assoc, linecon_loop.eq_def]
    exact (ih (output ++ [b])).trans (by rw [List.append_assoc, List.singleton_append])

theorem loop_read {d : Data} (init : d.state = .init) (c : UInt8) (rest : List UInt8) (room : Nat)
    (output : List UInt8) : linecon_loop d (c :: rest) (room + 1 + (read d c).2.length) output =
      linecon_loop (read d c).1 rest (room + 1) (output ++ (read d c).2) := by
  unfold read
  rw [linecon_loop.eq_def]
  by_cases c1 : c = BACKSLASH
  · simp [init, c1]
  · by_cases c2 : c = LF
    · simp [init, c2, show LF ≠ BACKSLASH by decide]
    · simp [init, c1, c2]

theorem loop_absorb (d : Data) (c : UInt8) (rest : List UInt8) (room : Nat) (output : List UInt8) :
    linecon_loop d (c :: rest) (room + 1 + (absorb d c).2.length) output =
      linecon_loop (absorb d c).1 rest (room + 1) (output ++ (absorb d c).2) := by
  cases state : d.state with
  | init =>
    simp only [absorb, state]
    exact loop_read state c rest room output
  | escape =>
    simp only [absorb, state]
    rw [linecon_loop.eq_def]
    by_cases c2 : c = LF
    · simp [state, c2]
    · simp [state, c2]
  | rollback b buf =>
    simp only [absorb, state]
    have same : d = { d with state := replay (b :: buf) } := by rw [replay, ← state]
    have size : room + 1 + (b :: buf ++ (read { d with state := .init } c).2).length =
        room + 1 + (read { d with state := .init } c).2.length + (b :: buf).length := by
      rw [List.length_append]
      omega
    rw [size, ← List.append_assoc, ← loop_read rfl]
    conv_lhs => rw [same]
    exact loop_replay d c rest _ (b :: buf) output

theorem loop_feed (d : Data) (p rest : List UInt8) (room : Nat) (output : List UInt8) :
    linecon_loop d (p ++ rest) (room + 1 + (total d p).length) output =
      linecon_loop (feed absorb d p).1 rest (room + 1) (output ++ total d p) := by
  induction p generalizing d output with
  | nil => simp
  | cons c p ih =>
    have size : room + 1 + (total d (c :: p)).length =
        room + (total (absorb d c).1 p).length + 1 + (absorb d c).2.length := by
      rw [total_cons, List.length_append]
      omega
    rw [size, List.cons_append, loop_absorb, Nat.add_right_comm, ih, total_cons, List.append_assoc]
    rfl

theorem offer_whole (d : Data) (x output : List UInt8) :
    (Session.mk d x output false false).offer _linecon_decoder ⟨0, true, 1 + (total d x).length⟩ =
      ⟨(feed absorb d x).1, [], output ++ total d x, false, true⟩ := by
  have reply : _linecon_decoder d .lastbuf x (1 + (total d x).length) =
      ⟨.ok, (feed absorb d x).1, x.length, (total d x).length, total d x, false⟩ := by
    have loop := loop_feed d x [] 0 []
    rw [List.append_nil, Nat.zero_add] at loop
    rw [decoder_calls d (.inl rfl), loop, linecon_loop]
    rfl
  refine (offer_ok (o := ⟨0, true, _⟩) rfl reply).trans ?_
  simp

theorem offer_cut {d d' : Data} {a first : List UInt8} (reads : feed absorb d (a ++ [BACKSLASH]) = (d', first))
    (escape : d'.state = .escape) (rest : List UInt8) :
    (Session.start d (a ++ BACKSLASH :: BACKSLASH :: rest)).offer _linecon_decoder ⟨0, true, 1 + first.length⟩ =
      ⟨{ d' with state := .init }, BACKSLASH :: rest, first ++ [BACKSLASH], false, false⟩ := by
  have reply : _linecon_decoder d .lastbuf (a ++ BACKSLASH :: BACKSLASH :: rest) (1 + first.length) =
      ⟨.ok, { d' with state := .init }, (a ++ [BACKSLASH]).length, (first ++ [BACKSLASH]).length,
        first ++ [BACKSLASH], false⟩ := by
    have loop := loop_feed d (a ++ [BACKSLASH]) (BACKSLASH :: rest) 0 []
    rw [total, reads, List.append_assoc, List.singleton_append, Nat.zero_add, linecon_loop.eq_def d'] at loop
    simp only [escape, show BACKSLASH ≠ LF by decide, if_false] at loop
    rw [decoder_calls d (.inl rfl), loop]
    simp
    omega
  refine (offer_ok (o := ⟨0, true, _⟩) rfl reply).trans ?_
  simp [Session.start]

section
variable {d : Data} {result : List UInt8}

theorem yields_whole {x : List UInt8} (yields : Yields _linecon_decoder d 1 (·.last) x result) :
    result = total d x := by
  have run : drive _linecon_decoder d x [⟨0, true, 1 + (total d x).length⟩] =
      ⟨(feed absorb d x).1, [], total d x, false, true⟩ := offer_whole d x []
  have output := yields.1 [⟨0, true, 1 + (total d x).length⟩] (by simp) (by rw [run])
  rw [run] at output
  exact output.symm

/-- What is yielded is written also when the calls are cut between two backslashes. -/
theorem yields_pair {d' : Data} {a first rest : List UInt8}
    (reads : feed absorb d (a ++ [BACKSLASH]) = (d', first)) (escape : d'.state = .escape)
    (yields : Yields _linecon_decoder d 1 (·.last) (a ++ BACKSLASH :: BACKSLASH :: rest) result) :
    total { d' with state := .escape } rest = BACKSLASH :: total { d' with state := .init } rest := by
  have run : drive _linecon_decoder d (a ++ BACKSLASH :: BACKSLASH :: rest) [⟨0, true, 1 + first.length⟩,
      ⟨0, true, 1 + (total { d' with state := .init } (BACKSLASH :: rest)).length⟩] =
        ⟨(feed absorb { d' with state := .init } (BACKSLASH :: rest)).1, [],
          first ++ [BACKSLASH] ++ total { d' with state := .init } (BACKSLASH :: rest), false, true⟩ := by
    rw [drive, List.foldl_cons, offer_cut reads escape, List.foldl_cons, offer_whole]
    rfl
  have output := yields.1 [⟨0, true, 1 + first.length⟩,
    ⟨0, true, 1 + (total { d' with state := .init } (BACKSLASH :: rest)).length⟩] (by simp) (by rw [run])
  have whole : total d (a ++ BACKSLASH :: BACKSLASH :: rest) =
      first ++ BACKSLASH :: BACKSLASH :: total { d' with state := .init } rest := by
    rw [show a ++ BACKSLASH :: BACKSLASH :: rest = a ++ [BACKSLASH] ++ BACKSLASH :: rest by simp, total, feed_append,
      reads]
    exact congrArg (first ++ ·) (total_escaped escape (by decide))
  rw [run, yields_whole yields, whole, List.append_assoc, total_backslash rfl] at output
  simpa using output

theorem absorb_escape {c : UInt8} : (absorb d c).1.state = .escape ↔ c = BACKSLASH ∧ d.state ≠ .escape := by
  have read_escape (d : Data) (init : d.state = .init) : (read d c).1.state = .escape ↔ c = BACKSLASH := by
    unfold read
    split
    · simp_all
    · split
      · next other _ =>
        simp only [newline, other, iff_false]
        split
        · cases info (d.line_info.getD []) (next d.line_number) <;> simp [replay]
        · simp
      · simp_all
  cases state : d.state with
  | init => simp [absorb, state, read_escape d state]
  | escape =>
    simp only [absorb, state]
    split <;> simp [continued]
  | rollback b buf => simp [absorb, state, read_escape { d with state := .init } rfl]

theorem escape_cases {a : List UInt8} (init : d.state = .init) (escape : (feed absorb d a).1.state = .escape) :
    ∃ a', a = a' ++ [BACKSLASH] ∧ (feed absorb d a').1.state ≠ .escape := by
  rcases List.eq_nil_or_concat a with rfl | ⟨a', c, rfl⟩
  · rw [feed_nil, init] at escape
    cases escape
  · rw [List.concat_eq_append, feed_concat, absorb_escape] at escape
    obtain ⟨rfl, other⟩ := escape
    exact ⟨a', List.concat_eq_append, other⟩

theorem escape_backslash {a : List UInt8} (other : (feed absorb d a).1.state ≠ .escape) :
    (feed absorb d (a ++ [BACKSLASH])).1.state = .escape := by
  rw [feed_concat, absorb_escape]
  exact ⟨rfl, other⟩
end

/-- A newline behind a backslash is not written as the first thing. -/
theorem total_ne_continued {d : Data} (init : d.state = .init) (x more : List UInt8) :
    total d x ≠ BACKSLASH :: LF :: more := by
  induction size : x.length using Nat.strong_induction_on generalizing x d with
  | _ n ih =>
    subst size
    cases x with
    | nil => simp
    | cons c rest =>
      by_cases c1 : c = BACKSLASH
      · subst c1
        rw [total_backslash init]
        cases rest with
        | nil => simp
        | cons e rest =>
          by_cases e2 : e = LF
          · subst e2
            rw [total_continued rfl]
            exact ih rest.length (by simp only [List.length_cons]; omega) rfl rest rfl
          · rw [total_escaped rfl e2]
            simp [e2]
      · by_cases c2 : c = LF
        · subst c2
          rw [total_newline init]
          simp [show LF ≠ BACKSLASH by decide]
        · rw [total_plain init c1 c2]
          simp [c1]

/-- With a newline behind them it makes a difference how two backslashes are read. -/
theorem total_pair_newline (d : Data) (rest : List UInt8) :
    total { d with state := .escape } (LF :: rest) ≠ BACKSLASH :: total { d with state := .init } (LF :: rest) := by
  rw [total_continued rfl, total_newline rfl]
  exact total_ne_continued rfl rest _

theorem joined_concat {line_info : Option (List UInt8)} {c : UInt8} (c2 : c ≠ LF) (n : Nat) (continuation : Bool)
    (x : List UInt8) (last : x.getLast? = some BACKSLASH) :
    joined line_info n continuation (x ++ [c]) = joined line_info n continuation x ++ [c] := by
  fun_induction joined line_info n continuation x with
  | case1 => cases last
  | case2 n continuation b =>
    obtain rfl : b = BACKSLASH := by simpa using last
    simp [joined, c2, show BACKSLASH ≠ LF by decide]
  | case3 n continuation b e rest both ih =>
    obtain ⟨rfl, rfl⟩ := both
    have last' : rest.getLast? = some BACKSLASH := by
      cases rest with
      | nil => cases last
      | cons e rest => simpa using last
    simpa [joined] using ih last'
  | case4 n continuation e rest plain ih =>
    simpa [joined, show LF ≠ BACKSLASH by decide] using ih (by simpa using last)
  | case5 n continuation b e rest plain b2 ih =>
    have step := ih (by simpa using last)
    rw [List.cons_append] at step
    rw [List.cons_append, List.cons_append, joined, if_neg plain, if_neg b2, step, List.cons_append]

theorem separate_concat {c : UInt8} {x : List UInt8} (c1 : c ≠ BACKSLASH) (c2 : c ≠ LF)
    (none : ¬ [BACKSLASH, BACKSLASH, LF] <:+: x) : Separate (x ++ [c]) := by
  refine ⟨fun pair => ?_, by simp [c1]⟩
  rcases List.infix_concat_iff.mp pair with suffix | pair
  · obtain ⟨t, same⟩ := suffix
    have last := congrArg List.getLast? same
    simp only [List.getLast?_append, List.getLast?_singleton, Option.some_or] at last
    exact c2 (Option.some.inj last).symm
  · exact none pair

/-- The lines are joined whatever the buffers just if no backslash is doubled before a newline or is the last byte. -/
theorem linecon_iff (line_info : Option (List UInt8)) (x : List UInt8) :
    Yields _linecon_decoder (opened line_info) 1 (·.last) x (joined line_info 1 false x) ↔
      ¬ [BACKSLASH, BACKSLASH, LF] <:+: x ∧ x.getLast? ≠ some BACKSLASH := by
  constructor
  · intro yields
    have pairs : ¬ [BACKSLASH, BACKSLASH, LF] <:+: x := by
      rintro ⟨a, b, rfl⟩
      by_cases escape : (feed absorb (opened line_info) a).1.state = .escape
      · -- a call that is cut one backslash before
        obtain ⟨a', rfl, other⟩ := escape_cases rfl escape
        rw [show a' ++ [BACKSLASH] ++ [BACKSLASH, BACKSLASH, LF] ++ b =
          a' ++ BACKSLASH :: BACKSLASH :: BACKSLASH :: LF :: b by simp] at yields
        have pair := yields_pair rfl (escape_backslash other) yields
        rw [total_escaped rfl (by decide), total_backslash rfl] at pair
        exact total_pair_newline _ b (List.cons.inj pair).2.symm
      · rw [show a ++ [BACKSLASH, BACKSLASH, LF] ++ b = a ++ BACKSLASH :: BACKSLASH :: LF :: b by simp] at yields
        exact total_pair_newline _ b (yields_pair rfl (escape_backslash escape) yields)
    refine ⟨pairs, fun last => ?_⟩
    obtain ⟨z, rfl⟩ := List.getLast?_eq_some_iff.mp last
    by_cases escape : (feed absorb (opened line_info) z).1.state = .escape
    · obtain ⟨z', rfl, other⟩ := escape_cases rfl escape
      rw [List.append_assoc] at yields
      exact absurd (yields_pair rfl (escape_backslash other) yields) (by simp)
    · -- the last backslash would come with the next byte
      have more := total_joined (separate_concat (show (97 : UInt8) ≠ BACKSLASH by decide) (by decide) pairs)
        (show (opened line_info).state = .init from rfl)
      have step : total (opened line_info) (z ++ [BACKSLASH] ++ [97]) =
          total (opened line_info) (z ++ [BACKSLASH]) ++ [BACKSLASH, 97] := by
        rw [total, feed_concat, absorb, escape_backslash escape]
        rfl
      have whole := yields_whole yields
      rw [step, joined_concat (by decide) _ _ _ last] at more
      have sizes := congrArg List.length (more.trans (congrArg (· ++ [97]) whole))
      simp at sizes
  · intro separate
    have same := total_joined separate (show (opened line_info).state = .init from rfl)
    exact same ▸ decoder_yields separate rfl

/-- Two backslashes and a newline are kept by one call; when it has room for one byte, the second backslash and the
    newline are removed by the next one. A backslash at the end is lost. -/
theorem backslash_reread :
    (drive _linecon_decoder (opened none) (ascii "\\\\\n") [⟨0, true, 9⟩]).output = ascii "\\\\\n" ∧
      (drive _linecon_decoder (opened none) (ascii "\\\\\n") [⟨0, true, 9⟩]).finished = true ∧
      (drive _linecon_decoder (opened none) (ascii "\\\\\n") [⟨0, true, 1⟩, ⟨0, true, 9⟩]).output = ascii "\\" ∧
      (drive _linecon_decoder (opened none) (ascii "\\\\\n") [⟨0, true, 1⟩, ⟨0, true, 9⟩]).finished = true ∧
      (drive _linecon_decoder (opened none) (ascii "a\\") [⟨0, true, 9⟩]).output = ascii "a" ∧
      (drive _linecon_decoder (opened none) (ascii "a\\") [⟨0, true, 9⟩]).finished = true := by
  decide +kernel

end Mailutils.Linecon

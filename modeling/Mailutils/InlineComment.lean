import Mailutils.Linecon

/-!
The filter that writes a comment sequence before every line and removes the lines that have it
(`libmailutils/filter/inline-comment.c`). With `-S` the encoder puts a space behind the sequence and writes the next
byte without looking whether there is room for it. The decoder compares bytes of the text, which are unsigned, with
characters of the sequence, which are signed, and so does not find a sequence that is not ASCII. Otherwise what was
encoded is removed (`ilcmt_iff`).
-/
namespace Mailutils.InlineComment
open Mailutils.Transducer Mailutils.Filter
open Mailutils.Linecon (info next)

/-- `enum ilcmt_state`, with what is used in the state: how much of the comment sequence has been seen, the white space
    that has been saved, what is to be replayed. -/
inductive State
  | initial
  | newline
  | copy
  | comment
  | part (level : Nat)
  | comment_ws
  | ws (buf : List UInt8)
  | rollback (buf : List UInt8)
  | rollback_ws (buf : List UInt8)
  deriving DecidableEq, Repr

/-- `struct ilcmt_data` -/
structure Data where
  state : State := .initial
  comment : List UInt8
  remove_empty_lines : Bool := false
  squeeze_ws : Bool := false
  follow_ws : Bool := false
  line_info : Option (List UInt8) := none
  emit_line_info : Bool := false
  line_number : Nat := 1
  deriving DecidableEq, Repr

/-- The comparison of a byte of the text with one of the comment sequence. -/
def same (c b : UInt8) : Bool := (c.toNat : Int) = schar b

/-- The line with the number of the line. -/
def Data.info (d : Data) : List UInt8 := Linecon.info (d.line_info.getD []) d.line_number

/-- A byte is replayed. -/
def replay (d : Data) (rollback : List UInt8 → State) (buf : List UInt8) : Data × Bool × Option UInt8 :=
  ({ d with state := if buf.tail = [] then .copy else rollback buf.tail }, false, buf.head?)

/-- A round of the loop of `_ilcmt_decoder`. -/
def step (d : Data) (c : UInt8) : Data × Bool × Option UInt8 :=
  match d.state with
  | .initial | .newline =>
    if same c (d.comment.headD 0) then ({ d with state := .part 1 }, true, none)
    else if d.emit_line_info then ({ d with state := .rollback d.info, emit_line_info := false }, false, none)
    else if c = LF then
      ({ d with line_number := next d.line_number }, true, if d.remove_empty_lines then none else some c)
    else if isspace c && d.remove_empty_lines then
      ({ d with state := .ws (if d.squeeze_ws then [] else [c]) }, true, none)
    else ({ d with state := .copy }, true, some c)
  | .part level =>
    if level = d.comment.length then ({ d with state := if d.follow_ws then .comment_ws else .comment }, false, none)
    else if same c (d.comment.getD level 0) then ({ d with state := .part (level + 1) }, true, none)
    else ({ d with state := .rollback (d.comment.take level) }, false, none)
  | .comment_ws =>
    if isspace c then ({ d with state := .comment }, decide (c ≠ LF), none)
    else if d.emit_line_info then
      ({ d with state := .rollback (d.info ++ d.comment), emit_line_info := false }, false, none)
    else ({ d with state := .rollback d.comment }, false, none)
  | .ws buf =>
    if c = LF then ({ d with state := .newline, line_number := next d.line_number }, true, none)
    else if isspace c then ({ d with state := .ws (if d.squeeze_ws then buf else buf ++ [c]) }, true, none)
    else ({ d with state := .rollback_ws buf }, false, none)
  | .copy => (if c = LF then { d with state := .newline, line_number := next d.line_number } else d, true, some c)
  | .comment =>
    (if c = LF then
      { d with
        state := .newline
        line_number := next d.line_number
        emit_line_info := d.emit_line_info || d.line_info.isSome }
    else d, true, none)
  | .rollback_ws buf =>
    if d.squeeze_ws then ({ d with state := .copy }, false, some SP) else replay d .rollback_ws buf
  | .rollback buf => replay d .rollback buf

/-- A bound of the rounds until a byte is read. -/
def rank (d : Data) : Nat :=
  match d.state with
  | .copy | .comment => 0
  | .rollback buf | .rollback_ws buf => buf.length + 1
  | .ws buf => buf.length + 2
  | .comment_ws => d.info.length + d.comment.length + 2
  | .part _ => d.info.length + d.comment.length + 3
  | .initial | .newline => d.info.length + 2

theorem replay_rank (d : Data) {rollback : List UInt8 → State}
    (replays : ∀ buf, rank { d with state := rollback buf } = buf.length + 1) (buf : List UInt8) :
    rank (replay d rollback buf).1 < buf.length + 1 := by
  unfold replay
  split
  · exact Nat.succ_pos _
  · next more =>
    rw [replays, List.length_tail]
    have := List.length_pos_iff.mpr (show buf ≠ [] by rintro rfl; exact more rfl)
    omega

private theorem step_rank (d : Data) (c : UInt8) (waits : (step d c).2.1 = false) : rank (step d c).1 < rank d := by
  have size (level : Nat) : (d.comment.take level).length ≤ d.comment.length := by simp
  cases state : d.state with
  | initial | newline | part | comment_ws | ws =>
    simp only [step, state] at waits ⊢
    simp only [rank, state]
    split_ifs at waits ⊢ <;> simp_all [Data.info] <;> omega
  | copy | comment => simp [step, state] at waits
  | rollback buf =>
    rw [show rank d = buf.length + 1 by simp [rank, state]]
    simp only [step, state]
    exact replay_rank d (fun _ => rfl) buf
  | rollback_ws buf =>
    rw [show rank d = buf.length + 1 by simp [rank, state]]
    simp only [step, state]
    split
    · exact Nat.succ_pos _
    · exact replay_rank d (fun _ => rfl) buf

/-- The loop of `_ilcmt_decoder`. -/
def decode : Machine Data where
  step := step
  rank := rank
  reads := step_rank

def _ilcmt_decoder : Xcode Data := fun d cmd input osize =>
  match cmd with
  | .init => ⟨.ok, { d with state := .initial }, input.length, osize, [], false⟩
  | .done => ⟨.ok, d, input.length, osize, [], false⟩
  | _ =>
    let (d, left, output) := decode.run d input osize []
    ⟨.ok, d, input.length - left.length, output.length, output, false⟩

/-- The state of the encoder when there is `buf` to be replayed. -/
def rolled (d : Data) (buf : List UInt8) : State :=
  if buf = [] then if d.follow_ws then .ws [] else .copy else .rollback buf

/-- The state of the encoder behind a byte of the text. -/
def copied (c : UInt8) : State := if c = LF then .newline else .copy

/-- The loop of `_ilcmt_encoder`, with the room that is left: the state, the input not read and the output after it. In
    the state `ws` two bytes are written, whether there is room for the second one or not. -/
def ilcmt_encode_loop (d : Data) (input : List UInt8) (room : Nat) (output : List UInt8) :
    Data × List UInt8 × List UInt8 :=
  match input, room with
  | [], _ => (d, [], output)
  | c :: rest, 0 => (d, c :: rest, output)
  | c :: rest, room + 1 =>
    match d.state with
    | .initial | .newline =>
      ilcmt_encode_loop { d with state := rolled d d.comment.tail } (c :: rest) room (output ++ d.comment.take 1)
    | .rollback buf => ilcmt_encode_loop { d with state := rolled d buf.tail } (c :: rest) room (output ++ buf.take 1)
    | .ws _ => ilcmt_encode_loop { d with state := copied c } rest (room - 1) (output ++ [SP, c])
    | .copy => ilcmt_encode_loop { d with state := copied c } rest room (output ++ [c])
    | _ => (d, c :: rest, output) -- `abort`
termination_by input.length + room

def _ilcmt_encoder : Xcode Data := fun d cmd input osize =>
  match cmd with
  | .init => ⟨.ok, { d with state := .initial }, input.length, osize, [], false⟩
  | .done => ⟨.ok, d, input.length, osize, [], false⟩
  | _ =>
    let (d, left, output) := ilcmt_encode_loop d input osize []
    ⟨.ok, d, input.length - left.length, output.length, output, false⟩

/-- The arguments of the filter, behind its name. -/
def parse_args (d : Data) : List (List UInt8) → Option Data
  | [] => some d
  | arg :: args =>
    if arg.head? = some 45 then
      if arg.tail.head? = some 114 then parse_args { d with remove_empty_lines := true } args
      else if arg.tail.head? = some 115 then parse_args { d with squeeze_ws := true } args
      else if arg.tail.head? = some 83 then parse_args { d with follow_ws := true } args
      else if arg.tail.head? = some 105 then
        match args with
        | [] => none
        | starter :: args => parse_args { d with line_info := some starter } args
      else none
    else parse_args { d with comment := arg } args

def alloc_state (args : List (List UInt8)) : Option Data := parse_args { comment := ascii ";" } args

/-- What is still to be written of the comment sequence. -/
def due (d : Data) : List UInt8 :=
  match d.state with
  | .initial | .newline => d.comment
  | .rollback buf => buf
  | _ => []

/-- A text with the comment sequence before its lines. -/
def encoded (d : Data) : List UInt8 → List UInt8
  | [] => []
  | c :: rest => due d ++ c :: encoded { d with state := copied c } rest

/-- The states of the encoder without `-S`. -/
structure Plain (d : Data) : Prop where
  nonempty : d.comment ≠ []
  unspaced : d.follow_ws = false
  state : d.state = .initial ∨ d.state = .newline ∨ d.state = .copy ∨ ∃ b buf, d.state = .rollback (b :: buf)

section
variable {d : Data} (plain : Plain d)
include plain

private theorem plain_copied (c : UInt8) : Plain { d with state := copied c } := by
  refine ⟨plain.nonempty, plain.unspaced, ?_⟩
  unfold copied
  split <;> simp

theorem plain_rolled (buf : List UInt8) : Plain { d with state := rolled d buf } := by
  refine ⟨plain.nonempty, plain.unspaced, ?_⟩
  cases buf <;> simp [rolled, plain.unspaced]

theorem due_rolled (buf : List UInt8) : due { d with state := rolled d buf } = buf := by
  cases buf <;> simp [rolled, plain.unspaced, due]

theorem encoded_rolled {b : UInt8} {buf : List UInt8} (begins : due d = b :: buf) (c : UInt8) (rest : List UInt8) :
    encoded d (c :: rest) = b :: encoded { d with state := rolled d buf } (c :: rest) := by
  rw [encoded, begins, encoded, due_rolled plain]
  rfl
end

theorem encode_loop_kept (tail : List UInt8) (d : Data) (input : List UInt8) (room : Nat) (output : List UInt8)
    (plain : Plain d) : ∃ wrote, Kept encoded (fun d _ => Plain d) tail d input room output
      (ilcmt_encode_loop d input room output) wrote ∧ wrote.length ≤ room := by
  -- a round that writes a byte of the comment sequence
  have replays {d : Data} {c : UInt8} {rest output : List UInt8} {room : Nat} (plain : Plain d) (buf : List UInt8)
      (begins : due d = buf) (more : buf ≠ []) {after : Data × List UInt8 × List UInt8}
      (ih : Plain { d with state := rolled d buf.tail } → ∃ wrote, Kept encoded (fun d _ => Plain d) tail
        { d with state := rolled d buf.tail } (c :: rest) room (output ++ buf.take 1) after wrote ∧
          wrote.length ≤ room) :
      ∃ wrote, Kept encoded (fun d _ => Plain d) tail d (c :: rest) (room + 1) output after wrote ∧
        wrote.length ≤ room + 1 := by
    obtain ⟨b, buf, rfl⟩ := List.exists_cons_of_ne_nil more
    obtain ⟨wrote, kept, bound⟩ := ih (plain_rolled plain buf)
    exact ⟨_, kept_round [b] kept List.suffix_rfl (encoded_rolled plain begins c (rest ++ tail)),
      Nat.succ_le_succ bound⟩
  fun_induction ilcmt_encode_loop d input room output with
  | case1 d room output => exact ⟨[], kept_here plain (.inl rfl), Nat.zero_le _⟩
  | case2 d output c rest => exact ⟨[], kept_here plain (.inr rfl), Nat.le_refl 0⟩
  | case3 d output c rest room state ih | case4 d output c rest room state ih =>
    exact replays plain d.comment (by simp [due, state]) plain.nonempty ih
  | case5 d output c rest room buf state ih =>
    refine replays plain buf (by simp [due, state]) ?_ ih
    rintro rfl
    rcases plain.state with other | other | other | ⟨_, _, other⟩ <;> simp [state] at other
  | case6 d output c rest room buf state ih =>
    rcases plain.state with other | other | other | ⟨_, _, other⟩ <;> simp [state] at other
  | case7 d output c rest room state ih =>
    obtain ⟨wrote, kept, bound⟩ := ih (plain_copied plain c)
    have step : encoded d (c :: (rest ++ tail)) = [c] ++ encoded { d with state := copied c } (rest ++ tail) := by
      simp [encoded, due, state]
    exact ⟨_, kept_round [c] kept (List.suffix_cons c rest) step, Nat.succ_le_succ bound⟩
  | case8 d output c rest room initial newline rollback _ copy =>
    rcases plain.state with state | state | state | ⟨b, buf, state⟩
    · exact absurd state initial
    · exact absurd state newline
    · exact absurd state copy
    · exact absurd state (rollback _)

theorem encoder_calls (d : Data) {cmd : Command} (runs : cmd = .lastbuf ∨ cmd = .xcode) (input : List UInt8)
    (osize : Nat) : _ilcmt_encoder d cmd input osize = ⟨.ok, (ilcmt_encode_loop d input osize []).1,
      input.length - (ilcmt_encode_loop d input osize []).2.1.length, (ilcmt_encode_loop d input osize []).2.2.length,
      (ilcmt_encode_loop d input osize []).2.2, false⟩ := by
  rcases runs with rfl | rfl <;> rfl

section
variable {d : Data} (plain : Plain d)
include plain

theorem encoder_yields (x : List UInt8) : Yields _ilcmt_encoder d 1 (·.last) x (encoded d x) := by
  refine yields_of_kept encoded (fun d _ => Plain d) (fun d input room => ilcmt_encode_loop d input room [])
    (fun d o input => encoder_calls d o.command_cases input o.room) ?_ (fun _ _ => rfl) plain
  intro tail d input room plain
  obtain ⟨wrote, kept, _⟩ := encode_loop_kept tail d input room [] plain
  exact ⟨wrote, kept⟩

/-- Without `-S` no call writes more than there is room for. -/
theorem encoder_bound (x : List UInt8) (schedule : List Offer) (o : Offer) :
    (_ilcmt_encoder (drive _ilcmt_encoder d x schedule).state o.command
      (o.portion (drive _ilcmt_encoder d x schedule).pending) o.room).osize ≤ o.room := by
  have keeps (s : Session Data) (o : Offer) (plain : Plain s.state) (_ : True) :
      Plain (s.offer _ilcmt_encoder o).state := by
    obtain ⟨wrote, kept, _⟩ := encode_loop_kept [] s.state (o.portion s.pending) o.room [] plain
    rw [Session.offer, encoder_calls _ o.command_cases]
    split
    · exact plain
    · exact kept.good
  have plain' : Plain (drive _ilcmt_encoder d x schedule).state :=
    foldl_keeps (Session.offer _ilcmt_encoder) (fun s => Plain s.state) (fun _ => True) keeps schedule
      (fun _ _ => trivial) (Session.start d x) plain
  obtain ⟨wrote, kept, bound⟩ := encode_loop_kept [] _ (o.portion (drive _ilcmt_encoder d x schedule).pending) o.room []
    plain'
  rw [encoder_calls _ o.command_cases, kept.written]
  exact bound
end

theorem same_iff {c b : UInt8} : same c b = true ↔ c = b ∧ b < 128 := by
  have lt := c.toNat_lt
  have lt' := b.toNat_lt
  simp only [same, schar, decide_eq_true_eq, UInt8.lt_iff_toNat_lt, UInt8.reduceToNat, ← UInt8.toNat_inj]
  split <;> omega

theorem decoder_yields (d : Data) (y : List UInt8) :
    Yields _ilcmt_decoder d 1 (·.last) y (decode.writes d y) := by
  refine decode.yields (fun d o input => ?_) d y
  rcases o.command_cases with cmd | cmd <;> rw [cmd] <;> rfl

/-- Before the comment sequence. -/
def Before (d : Data) : Prop := d.state = .initial ∨ d.state = .newline

/-- Behind the comment sequence. -/
def Behind (d : Data) : Prop := d.state = .part d.comment.length ∨ d.state = .comment

/-- Neither white space behind the comment sequence nor line numbers are asked for. -/
structure Silent (d : Data) : Prop where
  unspaced : d.follow_ws = false
  uncounted : d.line_info = none ∧ d.emit_line_info = false

theorem step_before {d : Data} (before : Before d) {b : UInt8} (found : same b (d.comment.headD 0) = true) :
    decode.absorb d b = ({ d with state := .part 1 }, []) := by
  refine decode.absorb_read (o := none) ?_
  show step d b = _
  rcases before with state | state <;> simp only [step, state, found, if_true]

theorem step_part {d : Data} {level : Nat} (state : d.state = .part level) {b : UInt8} {rest : List UInt8}
    (here : d.comment.drop level = b :: rest) (c : UInt8) :
    step d c = if same c b = true then ({ d with state := .part (level + 1) }, true, none)
      else ({ d with state := .rollback (d.comment.take level) }, false, none) := by
  have inside : level ≠ d.comment.length := by
    rintro rfl
    simp at here
  have byte : d.comment.getD level 0 = b := by
    rw [List.getD_eq_getElem?_getD, ← List.head?_drop, here]
    rfl
  simp only [step, state, if_neg inside, byte]

theorem feed_part (found : List UInt8) (plain : ∀ b ∈ found, b < 128) {d : Data} {level : Nat} {rest : List UInt8}
    (state : d.state = .part level) (here : d.comment.drop level = found ++ rest) :
    feed decode.absorb d found = ({ d with state := .part (level + found.length) }, []) := by
  induction found generalizing d level with
  | nil => rw [feed_nil, List.length_nil, Nat.add_zero, ← state]
  | cons b found ih =>
    obtain ⟨ascii, plain⟩ := List.forall_mem_cons.mp plain
    have first : decode.absorb d b = ({ d with state := .part (level + 1) }, []) := by
      refine decode.absorb_read (o := none) ?_
      exact (step_part state here b).trans (if_pos (same_iff.mpr ⟨rfl, ascii⟩))
    have next : d.comment.drop (level + 1) = found ++ rest := by
      rw [← List.drop_drop, here]
      rfl
    rw [feed_cons, first, @ih plain { d with state := .part (level + 1) } (level + 1) rfl next, List.length_cons,
      Nat.add_assoc, Nat.add_comm 1]
    rfl

theorem feed_found {d : Data} (before : Before d) {found rest : List UInt8} (some : found ≠ [])
    (plain : ∀ b ∈ found, b < 128) (begins : d.comment = found ++ rest) :
    feed decode.absorb d found = ({ d with state := .part found.length }, []) := by
  obtain ⟨b, found, rfl⟩ := List.exists_cons_of_ne_nil some
  obtain ⟨ascii, plain⟩ := List.forall_mem_cons.mp plain
  have first := step_before before (b := b) (same_iff.mpr (by rw [begins]; exact ⟨rfl, ascii⟩))
  have next : d.comment.drop 1 = found ++ rest := by
    rw [begins]
    rfl
  rw [feed_cons, first, @feed_part found plain { d with state := .part 1 } 1 rest rfl next, Nat.add_comm]
  rfl

theorem absorb_comment {d : Data} (silent : Silent d) (state : d.state = .comment) (c : UInt8) :
    (decode.absorb d c).2 = [] ∧ Silent (decode.absorb d c).1 ∧ (decode.absorb d c).1.comment = d.comment ∧
      (if c = LF then Before (decode.absorb d c).1 else Behind (decode.absorb d c).1) := by
  have read : step d c = ((step d c).1, true, none) := by simp only [step, state]
  rw [decode.absorb_read read]
  refine ⟨rfl, ?_⟩
  simp only [step, state]
  split
  · exact ⟨⟨silent.unspaced, silent.uncounted.1, by simp [silent.uncounted]⟩, rfl, .inr rfl⟩
  · exact ⟨silent, rfl, .inr state⟩

theorem absorb_behind {d : Data} (silent : Silent d) (behind : Behind d) (c : UInt8) :
    (decode.absorb d c).2 = [] ∧ Silent (decode.absorb d c).1 ∧ (decode.absorb d c).1.comment = d.comment ∧
      (if c = LF then Before (decode.absorb d c).1 else Behind (decode.absorb d c).1) := by
  rcases behind with state | state
  · have wait : decode.step d c = ({ d with state := .comment }, false, none) := by
      show step d c = _
      simp only [step, state, silent.unspaced, if_true, Bool.false_eq_true, if_false]
    rw [decode.absorb_wait wait]
    exact @absorb_comment { d with state := .comment } ⟨silent.unspaced, silent.uncounted⟩ rfl c
  · exact absorb_comment silent state c

theorem decode_encoded (x : List UInt8) {e d : Data} (plain : ∀ b ∈ d.comment, b < 128) (nonempty : d.comment ≠ [])
    (same : e.comment = d.comment) (silent : Silent d)
    (states : Before e ∧ Before d ∨ e.state = .copy ∧ Behind d) : decode.writes d (encoded e x) = [] := by
  induction x generalizing e d with
  | nil => rfl
  | cons c rest ih =>
    -- behind the comment sequence
    have inside {d : Data} (plain : ∀ b ∈ d.comment, b < 128) (nonempty : d.comment ≠ [])
        (same : e.comment = d.comment) (silent : Silent d) (behind : Behind d) :
        decode.writes d (c :: encoded { e with state := copied c } rest) = [] := by
      obtain ⟨nothing, silent', comment, states⟩ := absorb_behind silent behind c
      rw [decode.writes_cons, nothing, List.nil_append]
      refine ih (comment ▸ plain) (comment ▸ nonempty) (same.trans comment.symm) silent' ?_
      unfold copied
      split at states
      · next newline => exact .inl ⟨.inr (if_pos newline), states⟩
      · next other => exact .inr ⟨if_neg other, states⟩
    rw [encoded]
    rcases states with ⟨before, before'⟩ | ⟨state, behind⟩
    · have comment : due e = d.comment := by
        rw [← same]
        rcases before with state | state <;> simp only [due, state]
      have found := feed_found before' nonempty plain (List.append_nil _).symm
      rw [comment, Machine.writes, feed_append, found]
      exact inside (d := { d with state := .part d.comment.length }) plain nonempty same
        ⟨silent.unspaced, silent.uncounted⟩ (.inl rfl)
    · rw [show due e = [] by simp only [due, state]]
      exact inside plain nonempty same silent behind

theorem decode_lost {d : Data} (before : Before d) (silent : Silent d) (bytes : ¬ ∀ b ∈ d.comment, b < 128)
    (rest : List UInt8) : decode.writes d (d.comment ++ rest) ≠ [] := by
  -- the first byte that is not ASCII
  obtain ⟨found, b, behind, comment, plain, high⟩ : ∃ found b behind, d.comment = found ++ b :: behind ∧
      (∀ b ∈ found, b < 128) ∧ ¬ b < 128 := by
    push Not at bytes
    obtain ⟨b, mem, high⟩ := bytes
    obtain ⟨b, first⟩ := Option.isSome_iff_exists.mp
      ((List.find?_isSome (p := fun b : UInt8 => !decide (b < 128))).mpr ⟨b, mem, by simpa using high⟩)
    obtain ⟨high, found, behind, comment, plain⟩ := List.find?_eq_some_iff_append.mp first
    exact ⟨found, b, behind, comment, fun a mem => by simpa using plain a mem, by simpa using high⟩
  have other : ¬ same b b = true := fun equal => high (same_iff.mp equal).2
  rw [comment, List.append_assoc, List.cons_append, Machine.writes, feed_append]
  by_cases first : found = []
  · subst first
    have copies : step d b = ({ d with state := .copy }, true, some b) := by
      have letter : isspace b = false ∧ b ≠ LF := by
        revert high
        exact byte_forall (P := fun b => ¬ b < 128 → isspace b = false ∧ b ≠ LF) (by decide +kernel) b
      have head : d.comment.headD 0 = b := by
        rw [comment]
        rfl
      rcases before with state | state <;>
        simp only [step, state, head, if_neg other, silent.uncounted.2, letter, Bool.false_and, Bool.false_eq_true,
          if_false]
    rw [feed_nil, feed_cons, decode.absorb_read copies]
    simp
  · have replays : decode.step { d with state := .part found.length } b =
        ({ d with state := .rollback found }, false, none) := by
      have taken : d.comment.take found.length = found := by rw [comment, List.take_left]
      have here : d.comment.drop found.length = b :: behind := by rw [comment, List.drop_left]
      refine (@step_part { d with state := .part found.length } found.length rfl b behind here b).trans ?_
      rw [if_neg other, taken]
    obtain ⟨a, more, rfl⟩ := List.exists_cons_of_ne_nil first
    have writes : decode.step { d with state := .rollback (a :: more) } b =
      ({ d with state := if more = [] then .copy else .rollback more }, false, some a) := rfl
    rw [feed_found before first plain comment, feed_cons, decode.absorb_wait replays, decode.absorb_wait writes]
    simp

/-- Whatever the buffers, no call of the encoder writes more than there is room for, and of the complete encoding
    nothing is left by the decoder. -/
structure Removes (e d : Data) (x : List UInt8) : Prop where
  bounds : ∀ (schedule : List Offer) (o : Offer), (∀ o' ∈ schedule, 1 ≤ o'.room) → 1 ≤ o.room →
    (_ilcmt_encoder (drive _ilcmt_encoder e x schedule).state o.command
      (o.portion (drive _ilcmt_encoder e x schedule).pending) o.room).osize ≤ o.room
  decodes : ∃ y, Yields _ilcmt_encoder e 1 (·.last) x y ∧ Yields _ilcmt_decoder d 1 (·.last) y []

theorem encode_loop_rolls (d : Data) (c : UInt8) (rest : List UInt8) (room : Nat) (buf output : List UInt8) :
    ilcmt_encode_loop { d with state := rolled d buf } (c :: rest) (room + buf.length) output =
      ilcmt_encode_loop { d with state := rolled d [] } (c :: rest) room (output ++ buf) := by
  induction buf generalizing output with
  | nil => rw [List.append_nil, List.length_nil, Nat.add_zero]
  | cons b buf ih =>
    rw [List.length_cons, ← Nat.add_assoc, ilcmt_encode_loop.eq_def]
    exact (ih (output ++ [b])).trans (by rw [List.append_assoc, List.singleton_append])

/-- The space behind the comment sequence leaves no room for the byte behind it. -/
theorem encoder_overflow {d : Data} (nonempty : d.comment ≠ []) (state : d.state = .initial)
    (spaced : d.follow_ws = true) (c : UInt8) (rest : List UInt8) :
    (_ilcmt_encoder d .lastbuf (c :: rest) (1 + d.comment.length)).osize = d.comment.length + 2 := by
  have begins : ilcmt_encode_loop d (c :: rest) (1 + d.comment.length) [] =
      ilcmt_encode_loop { d with state := rolled d d.comment } (c :: rest) (1 + d.comment.length) [] := by
    rw [Nat.add_comm, ilcmt_encode_loop.eq_def, ilcmt_encode_loop.eq_def { d with state := rolled d d.comment }]
    simp only [state, rolled, if_neg nonempty]
  have spaces : ilcmt_encode_loop { d with state := rolled d [] } (c :: rest) 1 ([] ++ d.comment) =
      ilcmt_encode_loop { d with state := copied c } rest 0 (d.comment ++ [SP, c]) := by
    rw [ilcmt_encode_loop.eq_def]
    simp only [rolled, spaced, if_true, List.nil_append]
  have stops : (ilcmt_encode_loop { d with state := copied c } rest 0 (d.comment ++ [SP, c])).2.2 =
      d.comment ++ [SP, c] := by
    cases rest <;> rw [ilcmt_encode_loop]
  rw [encoder_calls d (.inl rfl), begins, encode_loop_rolls, spaces, stops, List.length_append]
  rfl

theorem encoder_empty (d : Data) : Yields _ilcmt_encoder d 1 (·.last) [] [] := by
  refine yields_of_kept (fun _ p => p) (fun _ p => p = []) (fun d input room => ilcmt_encode_loop d input room [])
    (fun d o input => encoder_calls d o.command_cases input o.room) ?_ (fun _ _ => rfl) rfl
  intro tail d input room none
  obtain ⟨rfl, rfl⟩ := List.append_eq_nil_iff.mp none
  rw [ilcmt_encode_loop]
  exact ⟨[], kept_here rfl (.inl rfl)⟩

theorem encoder_empty_bound (d : Data) (schedule : List Offer) (o : Offer) :
    (_ilcmt_encoder (drive _ilcmt_encoder d [] schedule).state o.command
      (o.portion (drive _ilcmt_encoder d [] schedule).pending) o.room).osize ≤ o.room := by
  have keeps (s : Session Data) (o : Offer) (none : s.pending = []) (_ : True) :
      (s.offer _ilcmt_encoder o).pending = [] := by
    rw [Session.offer, encoder_calls _ o.command_cases]
    split
    · exact none
    · simp [Session.accept, none]
  have none : (drive _ilcmt_encoder d [] schedule).pending = [] :=
    foldl_keeps (Session.offer _ilcmt_encoder) (·.pending = []) (fun _ => True) keeps schedule (fun _ _ => trivial)
      (Session.start d []) rfl
  have nothing : o.portion [] = [] := by simp [Offer.portion]
  rw [none, nothing, encoder_calls _ o.command_cases, ilcmt_encode_loop]
  exact Nat.zero_le _

/-- What was commented is decoded again just if blanks are not followed and the comment has only ASCII characters. -/
theorem ilcmt_iff (comment : List UInt8) (nonempty : comment ≠ []) (r s r' s' follow_ws : Bool) (x : List UInt8) :
    Removes { comment, remove_empty_lines := r, squeeze_ws := s, follow_ws }
        { comment, remove_empty_lines := r', squeeze_ws := s', follow_ws } x ↔
      x = [] ∨ follow_ws = false ∧ ∀ b ∈ comment, b < 128 := by
  constructor
  · rintro ⟨bounds, y, encodes, decodes⟩
    cases x with
    | nil => exact .inl rfl
    | cons c rest =>
      right
      have unspaced : follow_ws = false := by
        by_contra spaced
        have wrote := encoder_overflow (d := { comment, remove_empty_lines := r, squeeze_ws := s, follow_ws }) nonempty
          rfl (by simpa using spaced) c rest
        have bound := bounds [] ⟨0, true, 1 + comment.length⟩ (by simp) (Nat.le_add_right _ _)
        have size : comment.length + 2 ≤ 1 + comment.length := wrote ▸ bound
        omega
      subst unspaced
      refine ⟨rfl, ?_⟩
      by_contra bytes
      have usable : ∃ o : Offer, o.last = true ∧ 1 ≤ o.room := ⟨⟨0, true, 1⟩, rfl, Nat.le_refl 1⟩
      have whole := encodes.unique (encoder_yields ⟨nonempty, rfl, .inl rfl⟩ (c :: rest)) usable
      have nothing := decodes.unique (decoder_yields _ y) usable
      rw [whole] at nothing
      exact decode_lost (.inl rfl) ⟨rfl, rfl, rfl⟩ bytes _ nothing.symm
  · rintro (rfl | ⟨rfl, plain⟩)
    · exact ⟨fun schedule o _ _ => encoder_empty_bound _ schedule o, [], encoder_empty _, decoder_yields _ []⟩
    · refine ⟨fun schedule o _ _ => encoder_bound ⟨nonempty, rfl, .inl rfl⟩ x schedule o, _,
        encoder_yields ⟨nonempty, rfl, .inl rfl⟩ x, ?_⟩
      have nothing := decode_encoded x (e := { comment, remove_empty_lines := r, squeeze_ws := s, follow_ws := false })
        (d := { comment, remove_empty_lines := r', squeeze_ws := s', follow_ws := false }) plain nonempty rfl
        ⟨rfl, rfl, rfl⟩ (.inl ⟨.inl rfl, .inl rfl⟩)
      exact nothing ▸ decoder_yields _ _

theorem ilcmt_semicolon :
    ascii "; " ≠ [] ∧ Removes { comment := ascii "; " } { comment := ascii "; " } (ascii "a\n") := by
  have plain : (ascii "; ").all (· < 128) = true := by decide
  refine ⟨by decide, (ilcmt_iff (ascii "; ") (by decide) false false false false false (ascii "a\n")).mpr ?_⟩
  exact .inr ⟨rfl, by simpa only [List.all_eq_true, decide_eq_true_eq] using plain⟩

/-- With `-S` a call with room for two bytes writes three. A sequence that is not ASCII is not found by the decoder. -/
theorem space_overrun :
    (_ilcmt_encoder { comment := ascii ";", follow_ws := true } .lastbuf (ascii "a\n") 2).osize = 3 ∧
      (drive _ilcmt_encoder { comment := [0xC2, 0xA7] } (ascii "a\n") [⟨0, true, 9⟩]).output = [0xC2, 0xA7, 97, 10] ∧
      (drive _ilcmt_decoder { comment := [0xC2, 0xA7] } [0xC2, 0xA7, 97, 10] [⟨0, true, 9⟩]).output =
        [0xC2, 0xA7, 97, 10] ∧
      (drive _ilcmt_decoder { comment := [0xC2, 0xA7] } [0xC2, 0xA7, 97, 10] [⟨0, true, 9⟩]).finished = true := by
  decide +kernel

end Mailutils.InlineComment

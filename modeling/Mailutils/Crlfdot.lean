import Mailutils.Filter
import Mathlib.Data.List.Induction

/-!
The CRLFDOT filter (`libmailutils/filter/crlfdot.c`), the end-of-data framing of
SMTP and POP3. The decoder finds the end mark of an encoded text and nothing
before it, except that without normalization the encoder takes a carriage return
for the end of a line: a text that ends in one gets an end mark in the middle
of a line, which the decoder does not see (`crlfdot_framed`).
-/
namespace Mailutils.Crlfdot
open Mailutils.Transducer Mailutils.Filter

/-- `enum crlfdot_decode_state` -/
inductive DecodeState
  | init | char | cr | crlf | dot | dotcr | «end»
  deriving DecidableEq, Repr

def new_decode_state : DecodeState → UInt8 → DecodeState
  | .init, c => if c = CR then .cr else if c = DOT then .dot else .char
  | .char, c => if c = CR then .cr else .char
  | .cr, c => if c = CR then .cr else if c = LF then .crlf else .char
  -- the cases fall through, to no other effect
  | .crlf, c => if c = CR then .cr else if c = DOT then .dot else .char
  | .dot, c => if c = CR then .dotcr else .char
  | .dotcr, c => if c = LF then .end else .char
  | .end, _ => .char

/-- The loop of `_crlfdot_decoder`, at the byte `i` with `output` stored. That
    `i + 1` is `isize` is said by `rest = []`; `past` is the byte behind the buffer,
    at which a dot that comes last makes the loop look. -/
def crlfdot_decode_loop (past : UInt8) (osize : Nat) :
    DecodeState → List UInt8 → Nat → List UInt8 → DecodeState × Nat × List UInt8
  | state, [], i, output => (state, i, output)
  | state, c :: rest, i, output =>
    if state ≠ .end ∧ output.length < osize then
      if c = CR then
        if rest = [] then (state, i, output)
        else if rest.headD past = LF then
          crlfdot_decode_loop past osize (new_decode_state state c) rest (i + 1) output
        else crlfdot_decode_loop past osize (new_decode_state state c) rest (i + 1) (output ++ [c])
      else if c = DOT ∧ (state = .init ∨ state = .crlf) then
        if rest.length = 1 then (state, i, output)
        else if rest.headD past ≠ CR then
          crlfdot_decode_loop past osize (new_decode_state state c) rest (i + 1) output
        else crlfdot_decode_loop past osize (new_decode_state state c) rest (i + 1) (output ++ [c])
      else crlfdot_decode_loop past osize (new_decode_state state c) rest (i + 1) (output ++ [c])
    else (state, i, output)

def crlfdot_decoder (past : UInt8) : Xcode DecodeState := fun state cmd input osize =>
  match cmd with
  | .init => ⟨.ok, .init, input.length, osize, [], false⟩
  | .done => ⟨.ok, state, input.length, osize, [], false⟩
  | _ =>
    let (state, i, output) := crlfdot_decode_loop past osize state input 0 []
    if state = .end then ⟨.ok, state, i, sizeSub output.length 2, output, true⟩
    else ⟨.ok, state, i, output.length, output, false⟩

/-- `enum crlfdot_encode_at` -/
inductive EncodeAt
  | init | char | cr | lf
  deriving DecidableEq, Repr

/-- `struct crlfdot_encode_state` -/
structure EncodeState where
  «at» : EncodeAt
  normalize : Bool
  deriving DecidableEq, Repr

/-- Without `normalize` the case `'\r'` falls through to `'\n'`. -/
def new_encode_state (state : EncodeState) (c : UInt8) : EncodeState :=
  { state with «at» := if c = CR then (if state.normalize then .cr else .lf) else if c = LF then .lf else .char }

/-- The loop of `_crlfdot_encoder`: `none` when it asks for a larger output buffer. -/
def crlfdot_encode_loop (osize : Nat) : EncodeState → List UInt8 → Nat → List UInt8 →
    Option (EncodeState × Nat × List UInt8)
  | state, [], i, output => some (state, i, output)
  | state, c :: rest, i, output =>
    if output.length < osize then
      if c = LF then
        if state.at = .cr then crlfdot_encode_loop osize (new_encode_state state c) rest (i + 1) (output ++ [c])
        else if output.length + 1 = osize then
          if i = 0 then none else some (state, i, output)
        else crlfdot_encode_loop osize (new_encode_state state c) rest (i + 1) (output ++ [CR, LF])
      else if c = DOT ∧ (state.at = .init ∨ state.at = .lf) then
        if osize < output.length + 2 then
          if i = 0 then none else some (state, i, output)
        else crlfdot_encode_loop osize (new_encode_state state c) rest (i + 1) (output ++ [DOT, DOT])
      else crlfdot_encode_loop osize (new_encode_state state c) rest (i + 1) (output ++ [c])
    else some (state, i, output)

/-- What the encoder adds at the end of input, by where it is. -/
def endMark : EncodeAt → List UInt8
  | .init | .lf => [DOT, CR, LF]
  | .char | .cr => [CR, LF, DOT, CR, LF]

def crlfdot_encoder : Xcode EncodeState := fun state cmd input osize =>
  match cmd with
  | .init => ⟨.ok, { state with «at» := .init }, input.length, osize, [], false⟩
  | .done => ⟨.ok, state, input.length, osize, [], false⟩
  | _ =>
    match crlfdot_encode_loop osize state input 0 [] with
    | none => ⟨.moreoutput, state, input.length, 2, [], false⟩
    | some (state, i, output) =>
      if cmd = .lastbuf then
        if osize < output.length + (endMark state.at).length then ⟨.again, state, i, output.length, output, false⟩
        else ⟨.ok, state, i, (output ++ endMark state.at).length, output ++ endMark state.at, false⟩
      else ⟨.ok, state, i, output.length, output, false⟩

/-- What the encoder does at a byte when there is room. -/
def encodeStep (state : EncodeState) (c : UInt8) : EncodeState × List UInt8 :=
  (new_encode_state state c,
    if c = LF then (if state.at = .cr then [LF] else [CR, LF])
    else if c = DOT ∧ (state.at = .init ∨ state.at = .lf) then [DOT, DOT] else [c])

/-- The encoded text with its end mark. -/
def encoded (state : EncodeState) (x : List UInt8) : List UInt8 :=
  (feed encodeStep state x).2 ++ endMark (feed encodeStep state x).1.at

theorem encodeStep_length (state : EncodeState) (c : UInt8) : (encodeStep state c).2.length ≤ 2 := by
  unfold encodeStep
  split_ifs <;> simp

theorem encode_loop_feed (osize : Nat) (state : EncodeState) (input : List UInt8) (i : Nat) (output : List UInt8)
    (room : output.length + 2 * input.length ≤ osize) :
    crlfdot_encode_loop osize state input i output =
        some ((feed encodeStep state input).1, i + input.length, output ++ (feed encodeStep state input).2) ∧
      (output ++ (feed encodeStep state input).2).length ≤ output.length + 2 * input.length := by
  induction input generalizing state i output with
  | nil => simp [crlfdot_encode_loop]
  | cons c rest ih =>
    have two := encodeStep_length state c
    rw [List.length_cons] at room
    have goes : crlfdot_encode_loop osize state (c :: rest) i output =
        crlfdot_encode_loop osize (encodeStep state c).1 rest (i + 1) (output ++ (encodeStep state c).2) := by
      rw [crlfdot_encode_loop, if_pos (by omega)]
      unfold encodeStep
      split_ifs with newline <;> first | rfl | omega | rw [newline]
    obtain ⟨loop, bound⟩ := ih (encodeStep state c).1 (i + 1) (output ++ (encodeStep state c).2) (by
      rw [List.length_append]
      omega)
    rw [goes, loop, feed_cons]
    refine ⟨by simp [Nat.add_assoc, Nat.add_comm 1], ?_⟩
    simp only [List.length_append, List.length_cons] at bound ⊢
    omega

theorem encoder_reply (state : EncodeState) (x : List UInt8) {osize : Nat} (room : 2 * x.length + 5 ≤ osize) :
    crlfdot_encoder state .lastbuf x osize =
      ⟨.ok, (feed encodeStep state x).1, x.length, (encoded state x).length, encoded state x, false⟩ := by
  obtain ⟨loop, bound⟩ := encode_loop_feed osize state x 0 [] (by simp; omega)
  have mark : (endMark (feed encodeStep state x).1.at).length ≤ 5 := by
    cases (feed encodeStep state x).1.at <;> simp [endMark]
  simp only [List.length_nil, Nat.zero_add, List.nil_append] at loop bound
  simp only [crlfdot_encoder, loop, if_true]
  rw [if_neg (by omega)]
  rfl

/-- Where the decoder is when it has read what the encoder has written. A
    carriage return that the encoder takes for the end of a line is none for the decoder. -/
def Aligned (state : EncodeState) (d : DecodeState) : Prop :=
  match state.at with
  | .init => d = .init
  | .char => d = .char
  | .cr => d = .cr ∧ state.normalize = true
  | .lf => d = .crlf ∨ d = .cr ∧ state.normalize = false

private theorem aligned_cases {state : EncodeState} {d : DecodeState} (aligned : Aligned state d) :
    d = .init ∨ d = .char ∨ d = .cr ∨ d = .crlf := by
  unfold Aligned at aligned
  split at aligned
  · exact .inl aligned
  · exact .inr (.inl aligned)
  · exact .inr (.inr (.inl aligned.1))
  · exact .inr (.inr (aligned.symm.imp_left And.left))

section Loop
variable (past : UInt8) {osize : Nat} {d : DecodeState} {c : UInt8} {rest : List UInt8} {i : Nat} {output : List UInt8}

theorem loop_plain (going : d ≠ .end) (space : output.length < osize) (notCR : c ≠ CR)
    (notMark : ¬ (c = DOT ∧ (d = .init ∨ d = .crlf))) :
    crlfdot_decode_loop past osize d (c :: rest) i output =
      crlfdot_decode_loop past osize (new_decode_state d c) rest (i + 1) (output ++ [c]) := by
  rw [crlfdot_decode_loop, if_pos ⟨going, space⟩, if_neg notCR, if_neg notMark]

theorem loop_cr (going : d ≠ .end) (space : output.length < osize) (more : rest ≠ []) :
    crlfdot_decode_loop past osize d (CR :: rest) i output =
      crlfdot_decode_loop past osize (new_decode_state d CR) rest (i + 1)
        (output ++ if rest.headD past = LF then [] else [CR]) := by
  rw [crlfdot_decode_loop, if_pos ⟨going, space⟩, if_pos rfl, if_neg more]
  split <;> simp

theorem loop_dot (space : output.length < osize) (bol : d = .init ∨ d = .crlf) (more : rest.length ≠ 1) :
    crlfdot_decode_loop past osize d (DOT :: rest) i output =
      crlfdot_decode_loop past osize .dot rest (i + 1) (output ++ if rest.headD past = CR then [DOT] else []) := by
  have going : d ≠ .end := by rcases bol with rfl | rfl <;> simp
  have next : new_decode_state d DOT = .dot := by rcases bol with rfl | rfl <;> rfl
  rw [crlfdot_decode_loop, if_pos ⟨going, space⟩, if_neg (by decide), if_pos ⟨rfl, bol⟩, if_neg more, next]
  split <;> simp_all

end Loop

theorem decode_unit (past : UInt8) (osize : Nat) {state : EncodeState} {d : DecodeState} (aligned : Aligned state d)
    (c : UInt8) {more : List UInt8} (long : 3 ≤ more.length) (i : Nat) (output : List UInt8)
    (room : output.length + ((encodeStep state c).2 ++ more).length ≤ osize) :
    ∃ d' o, crlfdot_decode_loop past osize d ((encodeStep state c).2 ++ more) i output =
        crlfdot_decode_loop past osize d' more (i + (encodeStep state c).2.length) (output ++ o) ∧
      Aligned (encodeStep state c).1 d' ∧ o.length ≤ (encodeStep state c).2.length ∧ (d' = .cr ↔ c = CR) ∧
      (c ≠ CR → d ≠ .cr → o = [c]) := by
  have between := aligned_cases aligned
  have going : d ≠ .end := by rcases between with rfl | rfl | rfl | rfl <;> simp
  have some : more ≠ [] := by rintro rfl; simp at long
  by_cases return' : c = CR
  · subst return'
    have unit : (encodeStep state CR).2 = [CR] := rfl
    have next : new_decode_state d CR = .cr := by rcases between with rfl | rfl | rfl | rfl <;> rfl
    rw [unit] at room ⊢
    simp only [List.length_append, List.length_singleton] at room
    rw [List.singleton_append, loop_cr past going (by omega) some, next]
    refine ⟨.cr, _, rfl, ?_, by split <;> simp, by simp, by simp⟩
    cases normal : state.normalize <;> simp [Aligned, encodeStep, new_encode_state, normal]
  · by_cases newline : c = LF
    · subst newline
      have ends : Aligned (encodeStep state LF).1 .crlf := .inl rfl
      by_cases behind : state.at = .cr
      · have unit : (encodeStep state LF).2 = [LF] := by simp [encodeStep, behind]
        obtain rfl : d = .cr := by
          simp only [Aligned, behind] at aligned
          exact aligned.1
        rw [unit] at room ⊢
        simp only [List.length_append, List.length_singleton] at room
        rw [List.singleton_append, loop_plain past going (by omega) (by decide) (by simp)]
        exact ⟨.crlf, [LF], rfl, ends, by simp, by simp [return'], fun _ notCR => absurd rfl notCR⟩
      · have unit : (encodeStep state LF).2 = [CR, LF] := by simp [encodeStep, behind]
        have next : new_decode_state d CR = .cr := by rcases between with rfl | rfl | rfl | rfl <;> rfl
        rw [unit] at room ⊢
        simp only [List.length_append, List.length_cons, List.length_nil] at room
        rw [List.cons_append, List.singleton_append, loop_cr past going (by omega) (by simp), next]
        simp only [List.headD_cons, if_true, List.append_nil]
        rw [loop_plain past (by simp) (by omega) (by decide) (by simp)]
        exact ⟨.crlf, [LF], rfl, ends, by simp, by simp [return'], fun _ _ => rfl⟩
    · have after : (encodeStep state c).1.at = .char := by simp [encodeStep, new_encode_state, return', newline]
      have ends {d' : DecodeState} (char : d' = .char) : Aligned (encodeStep state c).1 d' := by
        simpa [Aligned, after] using char
      by_cases stuffed : c = DOT ∧ (state.at = .init ∨ state.at = .lf)
      · obtain ⟨rfl, bol⟩ := stuffed
        have unit : (encodeStep state DOT).2 = [DOT, DOT] := by simp [encodeStep, newline, bol]
        rw [unit] at room ⊢
        simp only [List.length_append, List.length_cons, List.length_nil] at room
        rw [List.cons_append, List.singleton_append]
        by_cases atStart : d = .init ∨ d = .crlf
        · rw [loop_dot past (by omega) atStart (by simp; omega)]
          simp only [List.headD_cons, show ¬ DOT = CR by decide, if_false, List.append_nil]
          rw [loop_plain past (by simp) (by omega) (by decide) (by simp)]
          exact ⟨.char, [DOT], rfl, ends rfl, by simp, by simp, fun _ _ => rfl⟩
        · -- the encoder has taken a carriage return for the end of the line
          obtain rfl : d = .cr := by rcases bol with init | lf <;> simp_all [Aligned]
          rw [loop_plain past (by simp) (by omega) (by decide) (by simp),
            loop_plain past (by decide) (by simp; omega) (by decide) (by decide)]
          exact ⟨.char, [DOT, DOT], by rw [List.append_assoc]; rfl, ends rfl, by simp, by simp [return'],
            fun _ notCR => absurd rfl notCR⟩
      · have unit : (encodeStep state c).2 = [c] := by simp [encodeStep, newline, stuffed]
        have notMark : ¬ (c = DOT ∧ (d = .init ∨ d = .crlf)) := by
          rintro ⟨dot, bol⟩
          refine stuffed ⟨dot, ?_⟩
          cases place : state.at <;> rcases bol with rfl | rfl <;> simp_all [Aligned]
        have next : new_decode_state d c = .char := by
          rcases between with rfl | rfl | rfl | rfl <;> simp_all [new_decode_state]
        rw [unit] at room ⊢
        simp only [List.length_append, List.length_singleton] at room
        rw [List.singleton_append, loop_plain past going (by omega) return' notMark, next]
        exact ⟨.char, [c], rfl, ends rfl, by simp, by simp [return'], fun _ _ => rfl⟩

theorem decode_text (past : UInt8) (osize : Nat) (x : List UInt8) {state : EncodeState} {d : DecodeState}
    (aligned : Aligned state d) (notCR : d ≠ .cr) (more : List UInt8) (long : 3 ≤ more.length) (i : Nat)
    (output : List UInt8) (room : output.length + ((feed encodeStep state x).2 ++ more).length ≤ osize) :
    ∃ d' o, crlfdot_decode_loop past osize d ((feed encodeStep state x).2 ++ more) i output =
        crlfdot_decode_loop past osize d' more (i + (feed encodeStep state x).2.length) (output ++ o) ∧
      Aligned (feed encodeStep state x).1 d' ∧ o.length ≤ (feed encodeStep state x).2.length ∧
      (d' = .cr ↔ x.getLast? = some CR) ∧ (CR ∉ x → o = x) := by
  induction x using List.reverseRecOn generalizing more with
  | nil => exact ⟨d, [], by simp, aligned, by simp, by simpa using notCR, fun _ => rfl⟩
  | append_singleton x c ih =>
    rw [feed_concat, List.append_assoc] at room ⊢
    obtain ⟨d', o, loop, aligned', short, return', same⟩ :=
      ih ((encodeStep (feed encodeStep state x).1 c).2 ++ more) (by simp; omega) room
    obtain ⟨d'', o', loop', aligned'', short', return'', same'⟩ := decode_unit past osize aligned' c long
      (i + (feed encodeStep state x).2.length) (output ++ o) (by
        simp only [List.length_append] at room ⊢
        omega)
    refine ⟨d'', o ++ o', ?_, aligned'', by simp; omega, by simpa using return'', fun clean => ?_⟩
    · rw [loop, loop', List.append_assoc, List.length_append, Nat.add_assoc]
    · have notLast : x.getLast? ≠ some CR := fun last => clean (List.mem_append_left _ (List.mem_of_getLast? last))
      rw [same fun member => clean (List.mem_append_left _ member),
        same' (fun here => clean (by simp [here])) (fun cr => notLast (return'.mp cr))]

theorem loop_end (past : UInt8) (osize : Nat) (rest : List UInt8) (i : Nat) (output : List UInt8) :
    crlfdot_decode_loop past osize .end rest i output = (.end, i, output) := by
  cases rest <;> simp [crlfdot_decode_loop]

theorem decode_dot (past : UInt8) {osize : Nat} {d : DecodeState} (bol : d = .init ∨ d = .crlf) (r : List UInt8) (i : Nat)
    (output : List UInt8) (room : output.length + 2 ≤ osize) :
    crlfdot_decode_loop past osize d ([DOT, CR, LF] ++ r) i output = (.end, i + 3, output ++ [DOT, LF]) := by
  simp only [List.cons_append, List.nil_append]
  rw [loop_dot past (by omega) bol (by simp)]
  simp only [List.headD_cons, if_true]
  rw [loop_cr past (by simp) (by simp; omega) (by simp)]
  simp only [List.headD_cons, if_true, List.append_nil]
  rw [loop_plain past (by decide) (by simp; omega) (by decide) (by decide), List.append_assoc]
  exact loop_end past osize r (i + 3) _

/-- The end mark after a carriage return is text. -/
theorem decode_dot_missed (past : UInt8) {osize : Nat} (r : List UInt8) (i : Nat) (output : List UInt8)
    (room : output.length + 3 ≤ osize) :
    crlfdot_decode_loop past osize .cr ([DOT, CR, LF] ++ r) i output =
      crlfdot_decode_loop past osize .crlf r (i + 3) (output ++ [DOT, LF]) := by
  simp only [List.cons_append, List.nil_append]
  rw [loop_plain past (by simp) (by omega) (by decide) (by simp),
    loop_cr past (by decide) (by simp; omega) (by simp)]
  simp only [List.headD_cons, if_true, List.append_nil]
  rw [loop_plain past (by decide) (by simp; omega) (by decide) (by decide), List.append_assoc]
  rfl

theorem decode_newline (past : UInt8) {osize : Nat} {d : DecodeState} (within : d = .char ∨ d = .cr) (r : List UInt8)
    (i : Nat) (output : List UInt8) (space : output.length < osize) :
    crlfdot_decode_loop past osize d ([CR, LF] ++ r) i output =
      crlfdot_decode_loop past osize .crlf r (i + 2) (output ++ [LF]) := by
  have going : d ≠ .end := by rcases within with rfl | rfl <;> simp
  have next : new_decode_state d CR = .cr := by rcases within with rfl | rfl <;> rfl
  simp only [List.cons_append, List.nil_append]
  rw [loop_cr past going space (by simp), next]
  simp only [List.headD_cons, if_true, List.append_nil]
  rw [loop_plain past (by decide) space (by decide) (by decide)]
  rfl

theorem loop_reads (past : UInt8) (osize : Nat) (d : DecodeState) (input : List UInt8) (i : Nat) (output : List UInt8) :
    i ≤ (crlfdot_decode_loop past osize d input i output).2.1 ∧
      (d ≠ .end → (crlfdot_decode_loop past osize d input i output).1 = .end →
        i < (crlfdot_decode_loop past osize d input i output).2.1) := by
  induction input generalizing d i output with
  | nil => exact ⟨Nat.le_refl i, fun going ended => absurd ended going⟩
  | cons c rest ih =>
    have onward (d' : DecodeState) (o : List UInt8) : i < (crlfdot_decode_loop past osize d' rest (i + 1) o).2.1 :=
      (ih d' (i + 1) o).1
    rw [crlfdot_decode_loop]
    split_ifs <;> first
      | exact ⟨Nat.le_refl i, fun going ended => absurd ended going⟩
      | exact ⟨Nat.le_of_lt (onward _ _), fun _ _ => onward _ _⟩

theorem feed_normalize (state : EncodeState) (x : List UInt8) :
    (feed encodeStep state x).1.normalize = state.normalize := by
  induction x generalizing state with
  | nil => rfl
  | cons c rest ih => rw [feed_cons, ih]; rfl

/-- The encoder ends a text as the decoder gives it back. -/
theorem completed_at (x : List UInt8) (clean : CR ∉ x) (normalize : Bool) :
    completed x = x ++ if (feed encodeStep ⟨.init, normalize⟩ x).1.at = .char then [LF] else [] := by
  induction x using List.reverseRecOn with
  | nil => rfl
  | append_singleton x c _ =>
    have notCR : c ≠ CR := fun here => clean (by simp [here])
    by_cases newline : c = LF
    · simp [completed, feed_concat, encodeStep, new_encode_state, notCR, ← newline]
    · simp [completed, feed_concat, encodeStep, new_encode_state, notCR, newline]

/-- What the decoder does with an encoded text and whatever follows: it comes to
    the end just behind the mark, or misses it. -/
theorem decode_encoded (past : UInt8) (osize : Nat) (x r : List UInt8) (normalize : Bool)
    (room : (encoded ⟨.init, normalize⟩ x ++ r).length ≤ osize) :
    let loop := crlfdot_decode_loop past osize .init (encoded ⟨.init, normalize⟩ x ++ r) 0 []
    if normalize = true ∨ x.getLast? ≠ some CR then
      ∃ text, loop = (.end, (encoded ⟨.init, normalize⟩ x).length, text ++ [DOT, LF]) ∧ (CR ∉ x → text = completed x)
    else loop.1 = .end → loop.2.1 ≠ (encoded ⟨.init, normalize⟩ x).length := by
  intro loop
  have mark : 3 ≤ (endMark (feed encodeStep ⟨.init, normalize⟩ x).1.at ++ r).length := by
    rw [List.length_append]
    cases (feed encodeStep ⟨.init, normalize⟩ x).1.at <;> simp [endMark] <;> omega
  rw [encoded, List.append_assoc] at room
  obtain ⟨d, o, run, aligned, short, return', same⟩ := decode_text past osize x
    (show Aligned ⟨.init, normalize⟩ .init from rfl) (by simp) _ mark 0 [] (by simpa using room)
  have normal : (feed encodeStep ⟨.init, normalize⟩ x).1.normalize = normalize := feed_normalize _ x
  have text (clean : CR ∉ x) := completed_at x clean normalize
  simp only [loop, encoded, List.append_assoc, List.length_append, run, Nat.zero_add, List.nil_append] at room ⊢
  unfold Aligned at aligned
  cases place : (feed encodeStep ⟨.init, normalize⟩ x).1.at with
  | init =>
    simp only [place, endMark, List.length_cons, List.length_nil] at aligned room text ⊢
    rw [if_pos (.inr fun last => by simp [return'.mpr last] at aligned), decode_dot past (.inl aligned) r _ o (by omega)]
    exact ⟨o, rfl, fun clean => by simp [text clean, same clean]⟩
  | char =>
    simp only [place, endMark, List.length_cons, List.length_nil] at aligned room text ⊢
    rw [if_pos (.inr fun last => by simp [return'.mpr last] at aligned),
      show [CR, LF, DOT, CR, LF] ++ r = [CR, LF] ++ ([DOT, CR, LF] ++ r) from rfl,
      decode_newline past (.inl aligned) _ _ o (by omega), decode_dot past (.inr rfl) r _ _ (by simp; omega)]
    exact ⟨o ++ [LF], rfl, fun clean => by simp [text clean, same clean]⟩
  | cr =>
    simp only [place, endMark, List.length_cons, List.length_nil] at aligned room text ⊢
    rw [if_pos (.inl (normal ▸ aligned.2)),
      show [CR, LF, DOT, CR, LF] ++ r = [CR, LF] ++ ([DOT, CR, LF] ++ r) from rfl,
      decode_newline past (.inr aligned.1) _ _ o (by omega), decode_dot past (.inr rfl) r _ _ (by simp; omega)]
    exact ⟨o ++ [LF], rfl, fun clean => absurd (List.mem_of_getLast? (return'.mp aligned.1)) clean⟩
  | lf =>
    simp only [place, endMark, List.length_cons, List.length_nil] at aligned room text ⊢
    rcases aligned with rfl | ⟨rfl, missed⟩
    · rw [if_pos (.inr fun last => by simp at return'; exact return' last), decode_dot past (.inr rfl) r _ o (by omega)]
      exact ⟨o, rfl, fun clean => by simp [text clean, same clean]⟩
    · have neither : ¬ (normalize = true ∨ x.getLast? ≠ some CR) := by
        rintro (on | notLast)
        · rw [normal, on] at missed
          cases missed
        · exact notLast (return'.mp rfl)
      rw [if_neg neither, decode_dot_missed past r _ o (by omega)]
      intro ended
      have := (loop_reads past osize .crlf r _ _).2 (by simp) ended
      omega

theorem encoded_length (state : EncodeState) (x : List UInt8) : (encoded state x).length ≤ 2 * x.length + 5 := by
  have text := (encode_loop_feed (2 * x.length) state x 0 [] (by simp)).2
  have mark : (endMark (feed encodeStep state x).1.at).length ≤ 5 := by
    cases (feed encodeStep state x).1.at <;> simp [endMark]
  simp only [List.length_nil, Nat.zero_add, List.nil_append] at text
  rw [encoded, List.length_append]
  omega

/-- The decoder, run on an encoded text and anything after it, reports the end
    having read just the encoded text, and gives a text without carriage returns
    back, completed by a newline: exactly when the encoder normalizes or the text
    does not end in a carriage return. -/
theorem crlfdot_framed (x r : List UInt8) (e0 : EncodeState) (d0 : DecodeState) (past : UInt8) (osize osize' : Nat)
    (encodeRoom : 2 * x.length + 5 ≤ osize) (decodeRoom : 2 * x.length + 5 + r.length ≤ osize') :
    let e := crlfdot_encoder (crlfdot_encoder e0 .init [] 0).state .lastbuf x osize
    let d := crlfdot_decoder past (crlfdot_decoder past d0 .init [] 0).state .lastbuf (e.written ++ r) osize'
    e.result = .ok ∧ e.isize = x.length ∧ d.result = .ok ∧
      (d.eof = true ∧ d.isize = e.written.length ∧ (CR ∉ x → d.written = completed x) ↔
        e0.normalize = true ∨ x.getLast? ≠ some CR) := by
  intro e d
  have reply : e = ⟨.ok, _, x.length, _, _, false⟩ := encoder_reply ⟨.init, e0.normalize⟩ x encodeRoom
  have written : e.written = encoded ⟨.init, e0.normalize⟩ x := by rw [reply, written_all]
  have bound := encoded_length ⟨.init, e0.normalize⟩ x
  have outcome := decode_encoded past osize' x r e0.normalize (by rw [List.length_append]; omega)
  refine ⟨by rw [reply], by rw [reply], ?_⟩
  simp only [d, written, crlfdot_decoder]
  generalize crlfdot_decode_loop past osize' .init (encoded ⟨.init, e0.normalize⟩ x ++ r) 0 [] = loop at outcome ⊢
  by_cases framed : e0.normalize = true ∨ x.getLast? ≠ some CR
  · simp only [if_pos framed] at outcome
    obtain ⟨text, rfl, same⟩ := outcome
    refine ⟨by simp, fun _ => framed, fun _ => ⟨by simp, by simp, fun clean => ?_⟩⟩
    rw [← same clean]
    simp [Reply.written, sizeSub_of_le]
  · simp only [if_neg framed] at outcome
    by_cases ended : loop.1 = .end
    · refine ⟨by simp [ended], fun holds => ?_, fun on => absurd on framed⟩
      simp only [ended, if_true] at holds
      exact absurd holds.2.1 (outcome ended)
    · refine ⟨by simp [ended], fun holds => ?_, fun on => absurd on framed⟩
      simp [ended] at holds

/-- A text of dots and line ends, and another end mark behind it. -/
theorem crlfdot_framed_dots :
    let x := ascii ".\n.x\n\n."
    let e := crlfdot_encoder (crlfdot_encoder ⟨.char, false⟩ .init [] 0).state .lastbuf x 19
    let d := crlfdot_decoder 13 (crlfdot_decoder 13 .end .init [] 0).state .lastbuf (e.written ++ [DOT, CR, LF]) 22
    d.eof = true ∧ d.isize = e.written.length ∧ (CR ∉ x → d.written = completed x) := by
  obtain ⟨_, _, _, exact⟩ := crlfdot_framed (ascii ".\n.x\n\n.") [DOT, CR, LF] ⟨.char, false⟩ .end 13 19 22
    (by decide) (by decide)
  exact exact.mpr (.inr (by decide))

/-- The end mark of a text that is a carriage return is missed. -/
theorem crlfdot_mark_missed :
    let e := crlfdot_encoder (crlfdot_encoder ⟨.init, false⟩ .init [] 0).state .lastbuf [CR] 99
    let d := crlfdot_decoder 0 (crlfdot_decoder 0 .init .init [] 0).state .lastbuf (e.written ++ []) 99
    e.written = [CR, DOT, CR, LF] ∧ d.eof = false := by
  decide

end Mailutils.Crlfdot

import Mailutils.Filter

/-!
The DOT filter (`libmailutils/filter/dot.c`). Whatever the buffers, the encoder
writes the dot-stuffed text and its end mark (`encoded`), and the decoder, given
that text and anything after it, writes the original text, ended by a newline
unless it is empty, and stops at the mark.
-/
namespace Mailutils.Dot
open Mailutils.Transducer Mailutils.Filter

/-- `enum dot_decode_state` -/
inductive DecodeState
  | bol | char | dot | «end»
  deriving DecidableEq, Repr

def new_decode_state : DecodeState → UInt8 → DecodeState
  | .bol, c => if c = DOT then .dot else if c = LF then .bol else .char
  | .char, c => if c = LF then .bol else .char
  | .dot, c => if c = LF then .end else .char
  | .end, _ => .end

/-- The loop of `_dot_decoder`, at the byte `i` with `output` stored: the
    state, the count of consumed bytes, the output and `iobuf->eof`. -/
def dot_decode_loop (osize : Nat) : DecodeState → List UInt8 → Nat → List UInt8 →
    DecodeState × Nat × List UInt8 × Bool
  | state, [], i, output => (state, i, output, false)
  | state, c :: rest, i, output =>
    if output.length < osize then
      if c = DOT ∧ state = .bol then dot_decode_loop osize (new_decode_state state c) rest (i + 1) output
      -- the `break` skips the increment: the newline of the mark is not counted
      else if new_decode_state state c = .end then (.end, i, output, true)
      else dot_decode_loop osize (new_decode_state state c) rest (i + 1) (output ++ [c])
    else (state, i, output, false)

def dot_decoder : Xcode DecodeState := fun state cmd input osize =>
  match cmd with
  | .init => ⟨.ok, .bol, input.length, osize, [], false⟩
  | .done => ⟨.ok, state, input.length, osize, [], false⟩
  | _ =>
    let (state, i, output, eof) := dot_decode_loop osize state input 0 []
    ⟨.ok, state, i, output.length, output, eof⟩

/-- `enum dot_encode_state` -/
inductive EncodeState
  | init | char | lf
  deriving DecidableEq, Repr

def new_encode_state (c : UInt8) : EncodeState := if c = LF then .lf else .char

/-- The loop of `_dot_encoder`: `none` when it asks for a larger output buffer. -/
def dot_encode_loop (osize : Nat) : EncodeState → List UInt8 → Nat → List UInt8 →
    Option (EncodeState × Nat × List UInt8)
  | state, [], i, output => some (state, i, output)
  | state, c :: rest, i, output =>
    if output.length < osize then
      if c = DOT ∧ (state = .init ∨ state = .lf) then
        if osize < output.length + 2 then
          if i = 0 then none else some (state, i, output)
        else dot_encode_loop osize (new_encode_state c) rest (i + 1) (output ++ [DOT, DOT])
      else dot_encode_loop osize (new_encode_state c) rest (i + 1) (output ++ [c])
    else some (state, i, output)

/-- What the encoder adds at the end of input, by the state it is in. -/
def endMark : EncodeState → List UInt8
  | .char => [LF, DOT, LF]
  | _ => [DOT, LF]

def dot_encoder : Xcode EncodeState := fun state cmd input osize =>
  match cmd with
  | .init => ⟨.ok, .init, input.length, osize, [], false⟩
  | .done => ⟨.ok, state, input.length, osize, [], false⟩
  | _ =>
    match dot_encode_loop osize state input 0 [] with
    | none => ⟨.moreoutput, state, input.length, 2, [], false⟩
    | some (state, i, output) =>
      if cmd = .lastbuf then
        if osize < output.length + (endMark state).length then ⟨.again, state, i, output.length, output, false⟩
        else
          ⟨.ok, state, i, (output ++ endMark state).length, output ++ endMark state, false⟩
      else ⟨.ok, state, i, output.length, output, false⟩

def decodeStep (state : DecodeState) (c : UInt8) : DecodeState × List UInt8 :=
  (new_decode_state state c,
    if (c = DOT ∧ state = .bol) ∨ new_decode_state state c = .end then [] else [c])

def encodeStep (state : EncodeState) (c : UInt8) : EncodeState × List UInt8 :=
  (new_encode_state c, if c = DOT ∧ (state = .init ∨ state = .lf) then [DOT, DOT] else [c])

/-- The dot-stuffed text with its end mark. -/
def encoded (x : List UInt8) : List UInt8 :=
  (feed encodeStep .init x).2 ++ endMark (feed encodeStep .init x).1

/-- The encoder's loop reads as the machine does until its output is too full
    for the end mark. -/
theorem encode_loop_ran {osize : Nat} (room : 2 ≤ osize) (state : EncodeState) (input : List UInt8) :
    ∃ state' k output', dot_encode_loop osize state input 0 [] = some (state', 0 + k, output') ∧
      output'.length ≤ osize ∧
      Ran encodeStep (fun s o => osize < o.length + (endMark s).length) state input [] state' k output' := by
  obtain ⟨state', k, output', loop, ⟨_, fits⟩, ran⟩ := ran_of_loop encodeStep
    (fun s o => osize < o.length + (endMark s).length) (dot_encode_loop osize) (fun s i o => some (s, i, o))
    (fun i o => (i = 0 → o = []) ∧ o.length ≤ osize) (fun _ _ _ => rfl) (fun state c rest i output ⟨fresh, fits⟩ => by
      by_cases space : output.length < osize
      · by_cases stuffed : c = DOT ∧ (state = .init ∨ state = .lf)
        · by_cases tight : osize < output.length + 2
          · have later : i ≠ 0 := by
              intro zero
              rw [fresh zero] at tight
              simp at tight
              omega
            refine Or.inl ⟨?_, by simp [dot_encode_loop, space, stuffed, tight, later]⟩
            rcases stuffed.2 with rfl | rfl <;> simpa [endMark] using tight
          · refine Or.inr ⟨⟨by simp, ?_⟩, by simp [dot_encode_loop, space, stuffed, tight, encodeStep]⟩
            simp [encodeStep, stuffed]
            omega
        · refine Or.inr ⟨⟨by simp, ?_⟩, by simp [dot_encode_loop, space, stuffed, encodeStep]⟩
          simp [encodeStep, stuffed]
          omega
      · refine Or.inl ⟨?_, by simp [dot_encode_loop, space]⟩
        cases state <;> simp [endMark] <;> omega)
    input state 0 [] ⟨fun _ => rfl, Nat.zero_le _⟩
  exact ⟨state', k, output', loop, fits, ran⟩

theorem encoder_reply {osize : Nat} (room : 3 ≤ osize) (state : EncodeState) (offer : Offer) (input : List UInt8) :
    ∃ k output, k ≤ input.length ∧ output = (feed encodeStep state (input.take k)).2 ∧
      ((osize < output.length + (endMark (feed encodeStep state (input.take k)).1).length ∧
          offer.last = true ∧ dot_encoder state offer.command input osize =
            ⟨.again, (feed encodeStep state (input.take k)).1, k, output.length, output, false⟩) ∨
        (offer.last = false ∧ dot_encoder state offer.command input osize =
          ⟨.ok, (feed encodeStep state (input.take k)).1, k, output.length, output, false⟩) ∨
        (offer.last = true ∧ k = input.length ∧ dot_encoder state offer.command input osize =
          ⟨.ok, (feed encodeStep state input).1, k,
            (output ++ endMark (feed encodeStep state input).1).length,
            output ++ endMark (feed encodeStep state input).1, false⟩)) := by
  obtain ⟨state', k, output, loop, within, ran⟩ :=
    encode_loop_ran (show 2 ≤ osize by omega) state input
  rw [Nat.zero_add] at loop
  have written : output = (feed encodeStep state (input.take k)).2 := by simpa using ran.written
  refine ⟨k, output, ran.bound, written, ?_⟩
  rw [← ran.state]
  by_cases last : offer.last = true
  · have command : offer.command = .lastbuf := by simp [Offer.command, last]
    by_cases full : osize < output.length + (endMark state').length
    · exact .inl ⟨full, last, by simp [dot_encoder, command, loop, full]⟩
    · have whole : k = input.length := by
        by_contra short
        exact full (ran.early (Nat.lt_of_le_of_ne ran.bound short))
      have final : (feed encodeStep state input).1 = state' := by rw [ran.state, whole, List.take_length]
      exact .inr (.inr ⟨last, whole, by simp [dot_encoder, command, loop, full, final]⟩)
  · have command : offer.command = .xcode := by simp [Offer.command, last]
    exact .inr (.inl ⟨by simpa using last, by simp [dot_encoder, command, loop]⟩)

/-- The encoder has read a prefix of the data and written what the machine
    writes for it; once finished, it has written the whole encoded text. -/
def Encoding (x : List UInt8) (s : Session EncodeState) : Prop :=
  if s.finished then s.output = encoded x
  else ∃ read, x = read ++ s.pending ∧ feed encodeStep .init read = (s.state, s.output)

theorem encoding_start (x : List UInt8) : Encoding x (.start .init x) := ⟨[], rfl, rfl⟩

/-- What a further portion adds to what the encoder has read. -/
private theorem encoding_read {x pending output : List UInt8} {state : EncodeState} {offer : Offer} {k : Nat}
    (within : ∃ read, x = read ++ pending ∧ feed encodeStep .init read = (state, output))
    (bound : k ≤ (offer.portion pending).length) :
    ∃ read, x = read ++ pending.drop k ∧ feed encodeStep .init read =
      ((feed encodeStep state ((offer.portion pending).take k)).1,
        output ++ (feed encodeStep state ((offer.portion pending).take k)).2) := by
  obtain ⟨read, split, fed⟩ := within
  refine ⟨read ++ pending.take k, by rw [List.append_assoc, List.take_append_drop, split], ?_⟩
  rw [feed_append, fed, take_portion bound]

theorem encoding_offer (x : List UInt8) (s : Session EncodeState) (offer : Offer) (inv : Encoding x s)
    (room : 3 ≤ offer.room) : Encoding x (s.offer dot_encoder offer) := by
  by_cases finished : s.finished = true
  · simpa [Session.offer, finished] using inv
  have within := inv
  simp only [Encoding, finished, Bool.false_eq_true, if_false] at within
  obtain ⟨k, output, bound, written, ⟨_, _, reply⟩ | ⟨notLast, reply⟩ | ⟨last, whole, reply⟩⟩ :=
    encoder_reply room s.state offer (offer.portion s.pending)
  · have further := encoding_read within bound
    rw [← written] at further
    simpa [Session.offer, finished, reply, Session.accept, Encoding] using further
  · have further := encoding_read within bound
    rw [← written] at further
    simpa [Session.offer, finished, reply, Session.accept, Encoding, notLast] using further
  · have all : offer.portion s.pending = s.pending := by simp [Offer.portion, last]
    obtain ⟨read, split, fed⟩ := within
    rw [all] at whole written reply
    rw [whole, List.take_length] at written
    have complete : encoded x = s.output ++ output ++ endMark (feed encodeStep s.state s.pending).1 := by
      rw [encoded, split, feed_append, fed, written]
    simp only [Session.offer, finished, all, reply, Session.accept, Encoding, last, whole, complete, written_all]
    simp

theorem encodeStep_length (state : EncodeState) (x : List UInt8) :
    (feed encodeStep state x).2.length ≤ 2 * x.length := by
  induction x generalizing state with
  | nil => simp
  | cons c rest ih =>
    have here : (encodeStep state c).2.length ≤ 2 := by
      unfold encodeStep
      split <;> simp
    have later := ih (encodeStep state c).1
    simp only [feed_cons, List.length_append, List.length_cons]
    omega

theorem encoded_length (x : List UInt8) : (encoded x).length ≤ 2 * x.length + 3 := by
  have text := encodeStep_length .init x
  have mark : (endMark (feed encodeStep .init x).1).length ≤ 3 := by
    cases (feed encodeStep .init x).1 <;> simp [endMark]
  simp only [encoded, List.length_append]
  omega

/-- The output of an unfinished encoder is no longer than the encoded text. -/
theorem encoding_part {x : List UInt8} {s : Session EncodeState} (inv : Encoding x s) : s.output <+: encoded x := by
  unfold Encoding at inv
  split at inv
  · exact inv ▸ List.prefix_rfl
  · obtain ⟨read, split, fed⟩ := inv
    rw [encoded, split, feed_append, fed]
    simp only [List.append_assoc]
    exact List.prefix_append _ _

private theorem encoder_finishes (x : List UInt8) (schedule : List Offer) (room : ∀ o ∈ schedule, 3 ≤ o.room)
    (enough : 2 * x.length + 3 < schedule.countP (·.last)) :
    (drive dot_encoder .init x schedule).finished = true := by
  refine foldl_reaches (Session.offer dot_encoder) (Encoding x) (fun s => s.finished = true) (fun o => 3 ≤ o.room)
    (·.last) (fun s => (encoded x).length - s.output.length) (encoding_offer x) ?_ ?_ ?_ schedule room _
    (encoding_start x) ?_
  · intro s offer _ _ finished
    simp [Session.offer, finished]
  · intro s offer inv room unfinished last
    have open' : s.finished = false := by
      by_contra finished
      exact unfinished (by simp [Session.offer, finished])
    have after := (encoding_part (encoding_offer x s offer inv room)).length_le
    obtain ⟨k, output, bound, written, ⟨full, _, reply⟩ | ⟨notLast, reply⟩ | ⟨_, whole, reply⟩⟩ :=
      encoder_reply room s.state offer (offer.portion s.pending)
    · have some : 0 < output.length := by
        have mark : (endMark (feed encodeStep s.state ((offer.portion s.pending).take k)).1).length ≤ 3 := by
          cases (feed encodeStep s.state ((offer.portion s.pending).take k)).1 <;> simp [endMark]
        omega
      simp [Session.offer, open', reply, Session.accept] at after ⊢
      omega
    · simp [last] at notLast
    · exfalso
      apply unfinished
      have all : offer.portion s.pending = s.pending := by simp [Offer.portion, last]
      rw [all] at whole reply
      simp [Session.offer, open', all, reply, Session.accept, last, whole]
  · intro s offer inv room _
    have after := (encoding_part (encoding_offer x s offer inv room)).length_le
    by_cases finished : s.finished = true
    · simp [Session.offer, finished]
    · obtain ⟨k, output, bound, written, ⟨_, _, reply⟩ | ⟨_, reply⟩ | ⟨_, _, reply⟩⟩ :=
        encoder_reply room s.state offer (offer.portion s.pending) <;>
      simp [Session.offer, finished, reply, Session.accept] <;> omega
  · have bound := encoded_length x
    simp only [Session.start, List.length_nil]
    omega

theorem encoder_output (x : List UInt8) {schedule : List Offer} (room : ∀ o ∈ schedule, 3 ≤ o.room)
    (finished : (drive dot_encoder .init x schedule).finished = true) :
    (drive dot_encoder .init x schedule).output = encoded x := by
  have inv : Encoding x (drive dot_encoder .init x schedule) :=
    foldl_keeps (Session.offer dot_encoder) (Encoding x) (fun o => 3 ≤ o.room) (encoding_offer x) schedule room _
      (encoding_start x)
  simpa [Encoding, finished] using inv

/-- The decoder is at the beginning of a line exactly when the encoder is. -/
def Aligned (e : EncodeState) (d : DecodeState) : Prop := d = if e = .char then .char else .bol

theorem step_aligned (e : EncodeState) (d : DecodeState) (c : UInt8) (aligned : Aligned e d) :
    Aligned (encodeStep e c).1 (feed decodeStep d (encodeStep e c).2).1 ∧
      [] ++ [c] = (feed decodeStep d (encodeStep e c).2).2 ++ [] := by
  unfold Aligned at aligned
  subst aligned
  by_cases dot : c = DOT
  · subst dot
    cases e <;> simp only [Aligned] <;> decide
  · by_cases newline : c = LF
    · subst newline
      cases e <;> simp only [Aligned] <;> decide
    · cases e <;> simp [Aligned, encodeStep, new_encode_state, decodeStep, new_decode_state, feed_cons, dot, newline]

theorem decode_text (x : List UInt8) :
    Aligned (feed encodeStep .init x).1 (feed decodeStep .bol (feed encodeStep .init x).2).1 ∧
      x = (feed decodeStep .bol (feed encodeStep .init x).2).2 := by
  have paced := feed_paced encodeStep decodeStep Aligned (fun _ => []) step_aligned x .init .bol rfl
  simpa using paced

theorem encode_state_last (x : List UInt8) :
    (feed encodeStep .init x).1 = .char ↔ ¬ (x = [] ∨ x.getLast? = some LF) := by
  rcases List.eq_nil_or_concat x with rfl | ⟨front, c, rfl⟩
  · simp
  · simp [feed_concat, encodeStep, new_encode_state]

/-- Before the last byte of the encoded text, the decoder has written the text
    and has seen the dot of the mark. -/
theorem decode_mark (x : List UInt8) :
    ∃ front, encoded x = front ++ [LF] ∧ feed decodeStep .bol front = (.dot, completed x) := by
  obtain ⟨aligned, text⟩ := decode_text x
  unfold Aligned at aligned
  have ended := encode_state_last x
  by_cases open' : (feed encodeStep .init x).1 = .char
  · refine ⟨(feed encodeStep .init x).2 ++ [LF, DOT], by simp [encoded, open', endMark], ?_⟩
    rw [feed_append, aligned, ← text, if_pos open', completed, if_neg (ended.mp open')]
    rfl
  · refine ⟨(feed encodeStep .init x).2 ++ [DOT], ?_, ?_⟩
    · have mark : endMark (feed encodeStep .init x).1 = [DOT, LF] := by
        cases state : (feed encodeStep .init x).1 with
        | char => exact absurd state open'
        | init => rfl
        | lf => rfl
      simp [encoded, mark]
    · rw [feed_append, aligned, ← text, if_neg open', completed, if_pos (by_contra fun h => open' (ended.mpr h))]
      simp [feed_cons, decodeStep, new_decode_state]

theorem decode_end (word : List UInt8) : (feed decodeStep .end word).1 = .end := by
  induction word with
  | nil => rfl
  | cons c rest ih => simpa [feed_cons, decodeStep, new_decode_state] using ih

/-- What the decoder reads of the encoded text and whatever follows it without
    reaching the end is a proper part of the encoded text. -/
theorem read_within {x r read pending : List UInt8} (split : encoded x ++ r = read ++ pending)
    (going : (feed decodeStep .bol read).1 ≠ .end) :
    ∃ rest, rest ≠ [] ∧ encoded x = read ++ rest ∧ pending = rest ++ r := by
  obtain ⟨front, mark, fed⟩ := decode_mark x
  rcases List.append_eq_append_iff.mp split with ⟨more, readIs, _⟩ | ⟨rest, whole, pendingIs⟩
  · exfalso
    apply going
    have closed : (feed decodeStep .bol (encoded x)).1 = .end := by simp [mark, feed_concat, fed, decodeStep, new_decode_state]
    rw [readIs, feed_append, closed, decode_end]
  · refine ⟨rest, fun empty => going ?_, whole, pendingIs⟩
    rw [empty, List.append_nil] at whole
    simp [← whole, mark, feed_concat, fed, decodeStep, new_decode_state]

/-- The decoder's loop reads as the machine does until its output is full, or
    it is about to read the newline of the mark. -/
theorem decode_loop_ran (osize : Nat) (state : DecodeState) (input : List UInt8) (i : Nat) (output : List UInt8) :
    ∃ state' k output', Ran decodeStep (fun _ _ => True) state input output state' k output' ∧
      (state ≠ .end → state' ≠ .end) ∧
      (dot_decode_loop osize state input i output = (state', i + k, output', false) ∧
          (k < input.length → osize ≤ output'.length) ∨
        dot_decode_loop osize state input i output = (.end, i + k, output', true) ∧
          ∃ c rest, input.drop k = c :: rest ∧ decodeStep state' c = (.end, [])) := by
  induction input generalizing state i output with
  | nil => exact ⟨state, 0, output, .nil, id, .inl ⟨rfl, by simp⟩⟩
  | cons c rest ih =>
    by_cases space : output.length < osize
    · by_cases mark : ¬ (c = DOT ∧ state = .bol) ∧ new_decode_state state c = .end
      · have ends : decodeStep state c = (.end, []) := by simp [decodeStep, mark.2]
        refine ⟨state, 0, output, .here trivial, id, .inr ⟨?_, c, rest, rfl, ends⟩⟩
        rw [dot_decode_loop, if_pos space, if_neg mark.1, if_pos mark.2]
        rfl
      · have onward : dot_decode_loop osize state (c :: rest) i output =
            dot_decode_loop osize (decodeStep state c).1 rest (i + 1) (output ++ (decodeStep state c).2) := by
          by_cases stuffed : c = DOT ∧ state = .bol
          · simp [dot_decode_loop, space, stuffed, decodeStep]
          · have going : new_decode_state state c ≠ .end := fun ends => mark ⟨stuffed, ends⟩
            simp [dot_decode_loop, space, stuffed, decodeStep, going]
        have going : state ≠ .end → (decodeStep state c).1 ≠ .end := by
          intro _ ends
          refine mark ⟨?_, ends⟩
          rintro ⟨rfl, rfl⟩
          simp [decodeStep, new_decode_state] at ends
        obtain ⟨state', k, output', ran, open', outcome⟩ := ih (decodeStep state c).1 (i + 1) (output ++ (decodeStep state c).2)
        refine ⟨state', k + 1, output', ran.cons, open' ∘ going, ?_⟩
        rw [onward]
        rcases outcome with ⟨loop, full⟩ | ⟨loop, mark⟩
        · exact .inl ⟨by rw [loop, Nat.add_assoc, Nat.add_comm 1 k], fun less => full (by simpa using less)⟩
        · exact .inr ⟨by rw [loop, Nat.add_assoc, Nat.add_comm 1 k], mark⟩
    · exact ⟨state, 0, output, .here trivial, id, .inl ⟨by simp [dot_decode_loop, space], fun _ => by omega⟩⟩

/-- The decoder has read a prefix of the data without reaching the end of the
    text; once it has reported the end, the newline of the mark comes next. -/
def Decoding (data : List UInt8) (s : Session DecodeState) : Prop :=
  ∃ read d, data = read ++ s.pending ∧ feed decodeStep .bol read = (d, s.output) ∧ d ≠ .end ∧
    if s.eof then s.state = .end ∧ ∃ c rest, s.pending = c :: rest ∧ decodeStep d c = (.end, []) else s.state = d

theorem decoding_start (data : List UInt8) : Decoding data (.start .bol data) :=
  ⟨[], .bol, rfl, rfl, by simp, rfl⟩

private theorem decoder_at_end (offer : Offer) (input : List UInt8) (osize : Nat) :
    ∃ eof, dot_decoder .end offer.command input osize = ⟨.ok, .end, 0, 0, [], eof⟩ := by
  have loop : ∃ eof, dot_decode_loop osize .end input 0 [] = (.end, 0, [], eof) := by
    cases input with
    | nil => exact ⟨false, rfl⟩
    | cons c rest =>
      by_cases space : 0 < osize
      · exact ⟨true, by simp [dot_decode_loop, space, new_decode_state]⟩
      · exact ⟨false, by simp [dot_decode_loop, space]⟩
  obtain ⟨eof, loop⟩ := loop
  refine ⟨eof, ?_⟩
  unfold Offer.command
  split <;> simp [dot_decoder, loop]

theorem decoder_reply (state : DecodeState) (going : state ≠ .end) (offer : Offer) (input : List UInt8) (osize : Nat) :
    ∃ k output state', k ≤ input.length ∧ feed decodeStep state (input.take k) = (state', output) ∧ state' ≠ .end ∧
      (dot_decoder state offer.command input osize = ⟨.ok, state', k, output.length, output, false⟩ ∧
          (k < input.length → osize ≤ output.length) ∨
        dot_decoder state offer.command input osize = ⟨.ok, .end, k, output.length, output, true⟩ ∧
          ∃ c rest, input.drop k = c :: rest ∧ decodeStep state' c = (.end, [])) := by
  obtain ⟨state', k, output, ran, open', outcome⟩ := decode_loop_ran osize state input 0 []
  rw [Nat.zero_add] at outcome
  have fed : feed decodeStep state (input.take k) = (state', output) := by
    rw [ran.state, ran.written]
    simp
  have command : ∀ loop, dot_decode_loop osize state input 0 [] = loop →
      dot_decoder state offer.command input osize =
        ⟨.ok, loop.1, loop.2.1, loop.2.2.1.length, loop.2.2.1, loop.2.2.2⟩ := by
    rintro _ rfl
    unfold Offer.command
    split <;> rfl
  refine ⟨k, output, state', ran.bound, fed, open' going, ?_⟩
  rcases outcome with ⟨loop, full⟩ | ⟨loop, mark⟩
  · exact .inl ⟨command _ loop, full⟩
  · exact .inr ⟨command _ loop, mark⟩

variable {s : Session DecodeState} {x r : List UInt8}

theorem decoding_pending (inv : Decoding (encoded x ++ r) s) :
    s.pending ≠ [] := by
  obtain ⟨read, d, split, fed, going, _⟩ := inv
  obtain ⟨rest, more, _, pending⟩ := read_within split (by rw [fed]; exact going)
  simp [pending, more]

theorem decoding_call (inv : Decoding (encoded x ++ r) s)
    (going : s.eof = false) (offer : Offer) :
    ∃ k, Decoding (encoded x ++ r)
        (s.accept offer.last (dot_decoder s.state offer.command (offer.portion s.pending) offer.room)) ∧
      (s.accept offer.last (dot_decoder s.state offer.command (offer.portion s.pending) offer.room)).pending =
        s.pending.drop k ∧
      (0 < offer.room → offer.portion s.pending ≠ [] →
        (s.accept offer.last (dot_decoder s.state offer.command (offer.portion s.pending) offer.room)).eof = true ∨
          0 < k) := by
  obtain ⟨read, d, split, fed, notEnd, state⟩ := inv
  simp only [going, Bool.false_eq_true, if_false] at state
  obtain ⟨k, output, d', bound, fedMore, notEnd', outcome⟩ :=
    decoder_reply s.state (state ▸ notEnd) offer (offer.portion s.pending) offer.room
  rw [take_portion bound, state] at fedMore
  have fedAll : feed decodeStep .bol (read ++ s.pending.take k) = (d', s.output ++ output) := by
    rw [feed_append, fed, fedMore]
  have splitAll : encoded x ++ r = (read ++ s.pending.take k) ++ s.pending.drop k := by
    rw [List.append_assoc, List.take_append_drop, split]
  refine ⟨k, ?_⟩
  rcases outcome with ⟨reply, full⟩ | ⟨reply, c, rest, next, mark⟩
  · rw [reply]
    refine ⟨⟨_, d', splitAll, ?_, notEnd', ?_⟩, rfl, fun room some => .inr ?_⟩
    · simpa [Session.accept] using fedAll
    · simp [Session.accept, going]
    · by_contra none
      obtain rfl : k = 0 := by omega
      have empty : output = [] := by simpa using (congrArg Prod.snd fedMore).symm
      have := full (List.length_pos_iff.mpr some)
      simp [empty] at this
      omega
  · rw [reply]
    refine ⟨⟨_, d', splitAll, ?_, notEnd', ?_⟩, rfl, fun _ _ => .inl ?_⟩
    · simpa [Session.accept] using fedAll
    · obtain ⟨tail, whole, _⟩ := portion_append offer s.pending
      have ahead : s.pending.drop k = c :: (rest ++ tail) := by
        conv_lhs => rw [whole]
        rw [List.drop_append_of_le_length bound, next, List.cons_append]
      simp [Session.accept, ahead, mark]
    · simp [Session.accept]

theorem decoding_rest (inv : Decoding (encoded x ++ r) s)
    (ended : s.eof = true) (offer : Offer) :
    s.accept offer.last (dot_decoder s.state offer.command (offer.portion s.pending) offer.room) =
      { s with finished := false } := by
  have pending := decoding_pending inv
  obtain ⟨_, _, _, _, _, atEnd⟩ := inv
  simp only [ended, if_true] at atEnd
  obtain ⟨eof, reply⟩ := decoder_at_end offer (offer.portion s.pending) offer.room
  rw [atEnd.1, reply]
  cases s
  simp_all [Session.accept, Reply.written]

/-- The decoder keeps reading a prefix of the data, and the driver is never
    through with the data: the newline of the mark is not consumed. -/
theorem decoding_offer (x r : List UInt8) (s : Session DecodeState) (offer : Offer)
    (inv : Decoding (encoded x ++ r) s ∧ s.finished = false) :
    Decoding (encoded x ++ r) (s.offer dot_decoder offer) ∧ (s.offer dot_decoder offer).finished = false := by
  obtain ⟨inv, unfinished⟩ := inv
  simp only [Session.offer, unfinished, Bool.false_eq_true, if_false]
  cases ended : s.eof with
  | true =>
    rw [decoding_rest inv ended offer]
    exact ⟨inv, rfl⟩
  | false =>
    obtain ⟨_, further, _⟩ := decoding_call inv ended offer
    refine ⟨further, ?_⟩
    have pending := decoding_pending further
    revert pending
    unfold Session.accept
    split <;> simp_all

theorem decoder_ends (x r : List UInt8) (schedule : List Offer) (room : ∀ o ∈ schedule, 0 < o.room)
    (enough : (encoded x).length + r.length < schedule.countP Offer.nonempty) :
    (drive dot_decoder .bol (encoded x ++ r) schedule).eof = true := by
  refine foldl_reaches (Session.offer dot_decoder) (fun s => Decoding (encoded x ++ r) s ∧ s.finished = false)
    (fun s => s.eof = true) (fun o => 0 < o.room) Offer.nonempty (fun s => s.pending.length)
    (fun s o inv _ => decoding_offer x r s o inv) ?_ ?_ ?_ schedule room _ ⟨decoding_start _, rfl⟩ ?_
  · rintro s offer ⟨inv, unfinished⟩ _ ended
    simp only [Session.offer, unfinished, Bool.false_eq_true, if_false]
    rw [decoding_rest inv ended offer]
    exact ended
  · rintro s offer ⟨inv, unfinished⟩ room going some
    simp only [Session.offer, unfinished, Bool.false_eq_true, if_false] at going ⊢
    have more := List.length_pos_iff.mpr (decoding_pending inv)
    cases ended : s.eof with
    | true =>
      rw [decoding_rest inv ended offer] at going
      exact absurd ended going
    | false =>
      obtain ⟨k, _, pending, reads⟩ := decoding_call inv ended offer
      have advanced := (reads room (portion_ne_nil some (decoding_pending inv))).resolve_left going
      rw [pending, List.length_drop]
      omega
  · rintro s offer ⟨inv, unfinished⟩ _ going
    simp only [Session.offer, unfinished, Bool.false_eq_true, if_false] at going ⊢
    cases ended : s.eof with
    | true =>
      rw [decoding_rest inv ended offer] at going
      exact absurd ended going
    | false =>
      obtain ⟨k, _, pending, _⟩ := decoding_call inv ended offer
      rw [pending, List.length_drop]
      omega
  · simpa [Session.start] using enough

/-- Whatever the portions, the decoder writes a part of the text, and the whole
    of it once it reports the end. -/
theorem decoder_writes (x r : List UInt8) (schedule : List Offer) :
    (drive dot_decoder .bol (encoded x ++ r) schedule).output <+: completed x ∧
      ((drive dot_decoder .bol (encoded x ++ r) schedule).eof = true →
        (drive dot_decoder .bol (encoded x ++ r) schedule).output = completed x) := by
  obtain ⟨⟨read, d, split, fed, going, atEnd⟩, _⟩ :=
    foldl_keeps (Session.offer dot_decoder) (fun s => Decoding (encoded x ++ r) s ∧ s.finished = false) (fun _ => True)
      (fun s o inv _ => decoding_offer x r s o inv) schedule (fun _ _ => trivial) _ ⟨decoding_start _, rfl⟩
  rw [← drive] at split fed atEnd
  obtain ⟨front, mark, text⟩ := decode_mark x
  obtain ⟨rest, more, whole, pending⟩ := read_within split (by rw [fed]; exact going)
  -- what was read is a prefix of everything before the last newline
  obtain ⟨init, rfl⟩ : ∃ init, rest = init ++ [LF] := by
    rcases List.eq_nil_or_concat rest with empty | ⟨init, c, rfl⟩
    · exact absurd empty more
    · have last := congrArg List.getLast? (mark.symm.trans whole)
      simp only [List.concat_eq_append, ← List.append_assoc, List.getLast?_concat, Option.some.injEq] at last
      exact ⟨init, by simp [last]⟩
  have frontIs : front = read ++ init := by
    rw [mark, ← List.append_assoc] at whole
    exact List.append_cancel_right whole
  have outputs : completed x = (drive dot_decoder .bol (encoded x ++ r) schedule).output ++ (feed decodeStep d init).2 := by
    have all := congrArg Prod.snd text
    rw [frontIs, feed_append, fed] at all
    exact all.symm
  refine ⟨⟨_, outputs.symm⟩, fun ended => ?_⟩
  simp only [ended, if_true] at atEnd
  obtain ⟨_, c, tail, next, ends⟩ := atEnd
  cases init with
  | nil => simpa using outputs.symm
  | cons b init =>
    -- the end was reported at `c`, so the machine would be at the end before the last newline
    exfalso
    rw [pending] at next
    obtain rfl : b = c := by simpa using (List.cons.inj next).1
    have state := congrArg Prod.fst text
    rw [frontIs, feed_append, fed, feed_cons, ends, decode_end] at state
    cases state

/-- Whatever the buffers, of at least three bytes of output: the encoder
    finishes; and the decoder, run on what it wrote and anything after that,
    writes the text, completed by a newline, then reports the end, and never
    writes anything else. -/
theorem dot_transparent (x r : List UInt8) (e0 : EncodeState) (d0 : DecodeState) (encoding decoding : List Offer)
    (encodeRoom : ∀ o ∈ encoding, 3 ≤ o.room) (decodeRoom : ∀ o ∈ decoding, 3 ≤ o.room) :
    let e := drive dot_encoder (dot_encoder e0 .init [] 0).state x encoding
    let d := drive dot_decoder (dot_decoder d0 .init [] 0).state (e.output ++ r) decoding
    (2 * x.length + 3 < encoding.countP (·.last) → e.finished = true) ∧
      (e.finished = true → d.output <+: completed x ∧ (d.eof = true → d.output = completed x) ∧
        (e.output.length + r.length < decoding.countP Offer.nonempty → d.eof = true)) := by
  intro e d
  refine ⟨encoder_finishes x encoding encodeRoom, fun finished => ?_⟩
  have written : e.output = encoded x := encoder_output x encodeRoom finished
  have decoded : d = drive dot_decoder .bol (encoded x ++ r) decoding := by simp only [d, written]; rfl
  rw [decoded, written]
  obtain ⟨part, all⟩ := decoder_writes x r decoding
  exact ⟨part, all, decoder_ends x r decoding fun o member => by have := decodeRoom o member; omega⟩

/-- A dot on a line of its own goes through buffers of three bytes. -/
theorem dot_transparent_lone_dot :
    let encoding := List.replicate 8 (Offer.mk 1 true 3)
    let decoding := List.replicate 12 (Offer.mk 2 false 3)
    let e := drive dot_encoder .init [DOT, LF] encoding
    let d := drive dot_decoder .bol (e.output ++ [DOT]) decoding
    e.finished = true ∧ d.output = [DOT, LF] ∧ d.eof = true := by
  have all := dot_transparent [DOT, LF] [DOT] .init .bol (List.replicate 8 (Offer.mk 1 true 3))
    (List.replicate 12 (Offer.mk 2 false 3)) (by decide) (by decide)
  exact ⟨all.1 (by decide), (all.2 (all.1 (by decide))).2.1 (by decide), by decide⟩

end Mailutils.Dot

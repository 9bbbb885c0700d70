import Mailutils.Getdelim

/-!
Reading into a buffer of the caller up to a delimiter (`mu_stream_timed_readdelim` in `libmailutils/stream/stream.c`,
without a timeout). It can be mixed with `mu_stream_timed_getdelim`, each call having its own delimiter: every call goes
on where the one before stopped, whatever the buffer of the stream (`calls_give`).
-/
namespace Mailutils.Buffered

section
variable {B : Type*} (m : Methods B)

/-- What is stored in `buf`, and `*pread`. -/
def mu_stream_timed_readdelim (delim : UInt8) (stream : Stream B) (size : Nat) :
    Except Errno (List UInt8 × Nat) × Stream B :=
  if size = 0 then (.error .einval, stream)
  else if size - 1 = 0 then (.error .bufspace, stream)
  else
    let (rc, stream) := if stream.buftype = .none then (none, stream) else _stream_flush_buffer m stream false
    match rc with
    | some code => (.error code, stream)
    | none =>
      match read_part m delim stream (size - 1) with
      | (some code, _, stream) => (.error code, stream)
      | (none, data, stream) => (.ok (data ++ [0], data.length), stream)

inductive Call
  | readdelim (delim : UInt8) (size : Nat)
  | getdelim (delim : UInt8)

/-- The bytes that a call gives, one of `getdelim` with `line`. -/
def Call.run (fuel : Nat) (stream : Stream B) (line : LineBuf) : Call → Option (List UInt8 × Stream B × LineBuf)
  | .readdelim delim size =>
    match mu_stream_timed_readdelim m delim stream size with
    | (.ok (buf, n), stream) => some (buf.take n, stream, line)
    | (.error _, _) => none
  | .getdelim delim =>
    match mu_stream_timed_getdelim m delim 0 fuel stream line with
    | some (none, n, line, stream) => some (line.block.take n, stream, line)
    | _ => none

/-- What the calls give, if none fails. -/
def run_calls (fuel : Nat) : List Call → Stream B → LineBuf → Option (List (List UInt8))
  | [], _, _ => some []
  | call :: calls, stream, line =>
    match call.run m fuel stream line with
    | some (data, stream, line) => (run_calls fuel calls stream line).map (data :: ·)
    | none => none
end

/-- What a call should give when `rest` is left. -/
def Call.part (rest : List UInt8) : Call → List UInt8
  | .readdelim delim size => (piece delim rest).take (size - 1)
  | .getdelim delim => piece delim rest

def parts : List Call → List UInt8 → List (List UInt8)
  | [], _ => []
  | call :: calls, rest => call.part rest :: parts calls (rest.drop (call.part rest).length)

/-- The delimiter is an ASCII character, and there is room for a byte and the null byte. -/
def Call.Proper : Call → Prop
  | .readdelim delim size => delim < 128 ∧ 1 < size
  | .getdelim delim => delim < 128

section
variable {B : Type*} {m : Methods B} {view : B → List UInt8}

private theorem call_gives (source : Source m view) {stream : Stream B} {rest : List UInt8} (gives : Gives view stream rest)
    {line : LineBuf} (valid : line.Valid) {fuel : Nat} (enough : rest.length < fuel)
    (memory : rest.length < SIZE_MAX / 3 * 2) {call : Call} (proper : call.Proper) : ∃ after line',
      call.run m fuel stream line = some (call.part rest, after, line') ∧
      Gives view after (rest.drop (call.part rest).length) ∧ line'.Valid := by
  cases call with
  | readdelim delim size =>
    obtain ⟨after, read, gives'⟩ := read_part_spec source proper.1 gives (size - 1)
    have room := proper.2
    have flush : (if stream.buftype = .none then (none, stream) else _stream_flush_buffer m stream false) =
        (none, stream) := by
      rw [flush_idle gives.clean, ite_self]
    refine ⟨after, line, ?_, gives', valid⟩
    simp only [Call.run, Call.part, mu_stream_timed_readdelim, if_neg (show size ≠ 0 by omega),
      if_neg (show size - 1 ≠ 0 by omega), flush, read, List.take_left]
  | getdelim delim =>
    obtain ⟨line', last, called, valid', _, taken, gives'⟩ := getdelim_spec 0 source proper (flush_idle gives.clean)
      gives valid enough (Nat.lt_of_le_of_lt (piece_front rest).length_le memory)
    refine ⟨last, line', ?_, gives', valid'⟩
    simp only [Call.run, Call.part, called, taken]

/-- Calls of both kinds, in any order: each gives its part of what the ones before it have left. -/
theorem calls_give (source : Source m view) : ∀ {calls : List Call} {stream : Stream B} {line : LineBuf}
    {content : List UInt8} {fuel : Nat}, Gives view stream content → line.Valid → content.length < fuel →
    content.length < SIZE_MAX / 3 * 2 → (∀ call ∈ calls, call.Proper) →
    run_calls m fuel calls stream line = some (parts calls content) := by
  intro calls
  induction calls with
  | nil =>
    intros
    rfl
  | cons call calls ih =>
    intro stream line content fuel gives valid enough memory proper
    obtain ⟨properCall, proper⟩ := List.forall_mem_cons.mp proper
    obtain ⟨after, line', called, gives', valid'⟩ := call_gives source gives valid enough memory properCall
    have shorter : (content.drop (call.part content).length).length ≤ content.length := by simp
    rw [run_calls, called, parts]
    simp only [ih gives' valid' (Nat.lt_of_le_of_lt shorter enough) (Nat.lt_of_le_of_lt shorter memory) proper,
      Option.map_some]

theorem calls_give_two : run_calls pair_methods 8 [.readdelim 2 3, .getdelim 58]
    { dirty_stream with dirty := false } ⟨none, 0⟩ = some [[58, 2], [3, 58]] := by
  have start : Gives id { dirty_stream with dirty := false } [58, 2, 3, 58, 58, 4, 5] := ⟨rfl, rfl, rfl,
    fun _ => by decide, fun none => absurd none (by decide), by decide, rfl, fun eof => absurd eof (by decide)⟩
  exact calls_give pair_source start (fun _ none => by cases none) (by decide) (by decide) (by simp [Call.Proper])
end
end Mailutils.Buffered

import Mailutils.FilterRuns

/-!
The filter that escapes double quotes (`libmailutils/filter/dq.c`). The decoder takes two bytes from its buffer for an
escape and counts one, so that it reads past the end of a buffer with an escape in it, and says that it has read less
than it has. What comes through are the texts in which nothing is escaped (`dq_round_trip_iff`).
-/
namespace Mailutils.Dq
open Mailutils.Transducer Mailutils.Filter

/-- `strchr` with the characters that are escaped, which also finds the null byte that ends them. -/
def escapes (c : UInt8) : Bool := c = BACKSLASH ∨ c = DQUOTE ∨ c = 0

/-- The loop of `_dq_encoder`: `none` when it asks for a larger output buffer. -/
def dq_encode_loop (osize : Nat) : List UInt8 → Nat → List UInt8 → Option (Nat × List UInt8)
  | [], i, output => some (i, output)
  | c :: rest, i, output =>
    if output.length < osize then
      if escapes c then
        if output.length + 1 = osize then
          if i = 0 then none else some (i, output)
        else dq_encode_loop osize rest (i + 1) (output ++ [BACKSLASH, c])
      else dq_encode_loop osize rest (i + 1) (output ++ [c])
    else some (i, output)

def _dq_encoder : Xcode Unit := fun _ cmd input osize =>
  match cmd with
  | .init | .done => ⟨.ok, (), input.length, osize, [], false⟩
  | _ =>
    match dq_encode_loop osize input 0 [] with
    | none => ⟨.moreoutput, (), input.length, 2, [], false⟩
    | some (i, output) => ⟨.ok, (), i, output.length, output, false⟩

/-- The loop of `_dq_decoder`, with what is in the buffer from `iptr` on: `none` when it reads past the end. -/
def dq_decode_loop (isize osize : Nat) : List UInt8 → Nat → List UInt8 → Option (Nat × List UInt8)
  | [], i, output => if i < isize ∧ output.length < osize then none else some (i, output)
  | c :: rest, i, output =>
    if i < isize ∧ output.length < osize then
      if c = BACKSLASH then
        if i + 1 = isize then some (i, output)
        else
          match rest with
          | [] => none
          | d :: rest => dq_decode_loop isize osize rest (i + 1) (output ++ [d])
      else dq_decode_loop isize osize rest (i + 1) (output ++ [c])
    else some (i, output)

def _dq_decoder (cmd : Command) (input : List UInt8) (osize : Nat) : Option (Reply Unit) :=
  match cmd with
  | .init | .done => some ⟨.ok, (), input.length, osize, [], false⟩
  | _ => (dq_decode_loop input.length osize input 0 []).map fun stop => ⟨.ok, (), stop.1, stop.2.length, stop.2, false⟩

/-- The decoder as a driver sees it, with a failure in the place of a read past the end. -/
def dq_decoder : Xcode Unit := fun _ cmd input osize =>
  (_dq_decoder cmd input osize).getD ⟨.failure, (), 0, 0, [], false⟩

/-- What the encoder does at a byte when there is room. -/
def encodeStep (_ : Unit) (c : UInt8) : Unit × List UInt8 := ((), if escapes c then [BACKSLASH, c] else [c])

/-- What the encoder writes for a text. -/
def encoded (x : List UInt8) : List UInt8 := (feed encodeStep () x).2

theorem encoded_cons (c : UInt8) (x : List UInt8) :
    encoded (c :: x) = (if escapes c then [BACKSLASH, c] else [c]) ++ encoded x := rfl

theorem encoded_plain {x : List UInt8} (plain : ∀ c ∈ x, escapes c = false) (rest : List UInt8) :
    encoded (x ++ rest) = x ++ encoded rest := by
  induction x with
  | nil => rfl
  | cons c x ih =>
    rw [List.forall_mem_cons] at plain
    rw [List.cons_append, encoded_cons, plain.1, ih plain.2]
    rfl

theorem encode_loop_ran {osize : Nat} (two : 2 ≤ osize) (input : List UInt8) :
    ∃ k o, dq_encode_loop osize input 0 [] = some (0 + k, o) ∧
      Ran encodeStep (fun _ o => osize ≤ o.length + 1) () input [] () k o := by
  obtain ⟨_, k, o, loop, _, ran⟩ := ran_of_loop encodeStep (fun _ o => osize ≤ o.length + 1)
    (fun _ => dq_encode_loop osize) (fun _ i o => some (i, o)) (fun i o => i = 0 → o = []) (fun _ _ _ => rfl)
    (fun _ c rest i output fresh => by
      by_cases space : output.length < osize
      · by_cases escaped : escapes c = true
        · by_cases tight : output.length + 1 = osize
          · have begun : i ≠ 0 := by
              intro first
              rw [fresh first, List.length_nil] at tight
              omega
            refine Or.inl ⟨by omega, ?_⟩
            rw [dq_encode_loop, if_pos space, if_pos escaped, if_pos tight, if_neg begun]
          · refine Or.inr ⟨by simp, ?_⟩
            rw [dq_encode_loop, if_pos space, if_pos escaped, if_neg tight, encodeStep, if_pos escaped]
        · refine Or.inr ⟨by simp, ?_⟩
          rw [dq_encode_loop, if_pos space, if_neg escaped, encodeStep, if_neg escaped]
      · exact Or.inl ⟨by omega, by rw [dq_encode_loop, if_neg space]⟩)
    input () 0 [] (fun _ => rfl)
  exact ⟨k, o, loop, ran⟩

theorem encoder_yields (x : List UInt8) : Yields _dq_encoder () 2 (·.last) x (encoded x) := by
  refine yields_of_ran (fun room o => room ≤ o.length + 1) (fun room two full => ?_) (fun _ o input room => ?_) _ x
  · simp only [List.length_nil] at full
    omega
  · obtain ⟨k, output, loop, ran⟩ := encode_loop_ran room input
    refine ⟨(), k, output, ?_, ran⟩
    rw [Nat.zero_add] at loop
    rcases o.command_cases with last | more
    · simp only [_dq_encoder, last, loop]
    · simp only [_dq_encoder, more, loop]

theorem decoder_calls {cmd : Command} (runs : cmd = .lastbuf ∨ cmd = .xcode) (input : List UInt8) (osize : Nat) :
    _dq_decoder cmd input osize = (dq_decode_loop input.length osize input 0 []).map fun stop =>
      ⟨.ok, (), stop.1, stop.2.length, stop.2, false⟩ := by
  rcases runs with rfl | rfl <;> rfl

theorem decode_other {isize osize : Nat} {c : UInt8} (other : c ≠ BACKSLASH) {i : Nat} {output : List UInt8}
    (goes : i < isize ∧ output.length < osize) (rest : List UInt8) :
    dq_decode_loop isize osize (c :: rest) i output = dq_decode_loop isize osize rest (i + 1) (output ++ [c]) := by
  rw [dq_decode_loop.eq_def]
  exact (if_pos goes).trans (if_neg other)

theorem decode_loop_plain {isize osize : Nat} {front : List UInt8} (plain : ∀ c ∈ front, c ≠ BACKSLASH)
    (rest : List UInt8) (i : Nat) (output : List UInt8) (inside : i + front.length ≤ isize)
    (room : output.length + front.length ≤ osize) :
    dq_decode_loop isize osize (front ++ rest) i output =
      dq_decode_loop isize osize rest (i + front.length) (output ++ front) := by
  induction front generalizing i output with
  | nil => simp
  | cons c front ih =>
    rw [List.forall_mem_cons] at plain
    rw [List.length_cons] at inside room
    rw [List.cons_append, decode_other plain.1 (by omega), ih plain.2 _ _ (by omega) (by simp; omega)]
    simp [Nat.add_comm, Nat.add_left_comm]

theorem decoder_plain {cmd : Command} (runs : cmd = .lastbuf ∨ cmd = .xcode) {input : List UInt8}
    (plain : ∀ c ∈ input, c ≠ BACKSLASH) (osize : Nat) :
    _dq_decoder cmd input osize = some ⟨.ok, (), min input.length osize,
      (input.take (min input.length osize)).length, input.take (min input.length osize), false⟩ := by
  have copied : (input.take (min input.length osize)).length = min input.length osize := by
    rw [List.length_take]
    omega
  have loop := @decode_loop_plain input.length osize (input.take (min input.length osize))
    (fun c member => plain c (List.mem_of_mem_take member)) (input.drop (min input.length osize)) 0 []
    (by omega) (by rw [List.length_nil]; omega)
  rw [List.take_append_drop, copied, Nat.zero_add, List.nil_append] at loop
  have stops (rest : List UInt8) : dq_decode_loop input.length osize rest (min input.length osize)
      (input.take (min input.length osize)) = some (min input.length osize, input.take (min input.length osize)) := by
    have full : ¬ (min input.length osize < input.length ∧ (input.take (min input.length osize)).length < osize) := by
      omega
    rw [dq_decode_loop.eq_def]
    cases rest <;> exact if_neg full
  rw [decoder_calls runs, loop, stops]
  rfl

/-- The first escape, when the buffer ends behind it: one byte more is read. -/
theorem decoder_overruns {front : List UInt8} (plain : ∀ c ∈ front, c ≠ BACKSLASH) (c : UInt8) :
    _dq_decoder .xcode (front ++ [BACKSLASH, c]) (front.length + 2) = none := by
  have loop := @decode_loop_plain (front ++ [BACKSLASH, c]).length (front.length + 2) front plain [BACKSLASH, c] 0 []
    (by simp) (by simp)
  rw [decoder_calls (.inr rfl), loop]
  simp [dq_decode_loop]

/-- Every call of the decoder stays inside of its buffer, and the text comes back, whatever the buffers. -/
structure RoundTrips (x : List UInt8) : Prop where
  inside : ∀ e, Yields _dq_encoder () 2 (·.last) x e → ∀ (schedule : List Offer) (o : Offer),
    (∀ o ∈ schedule, 2 ≤ o.room) → 2 ≤ o.room →
      (_dq_decoder o.command (o.portion (drive dq_decoder () e schedule).pending) o.room).isSome = true
  yields : ∃ e, Yields _dq_encoder () 2 (·.last) x e ∧ Yields dq_decoder () 2 (·.last) e x

theorem escapes_eq_false (c : UInt8) : escapes c = false ↔ c ≠ BACKSLASH ∧ c ≠ DQUOTE ∧ c ≠ 0 := by
  simp [escapes]

theorem decoder_copies (o : Offer) (input : List UInt8) (plain : ∀ c ∈ input, escapes c = false) (_ : 2 ≤ o.room) :
    dq_decoder () o.command input o.room = ⟨.ok, (), min input.length o.room,
      (input.take (min input.length o.room)).length, input.take (min input.length o.room), false⟩ := by
  rw [dq_decoder, decoder_plain o.command_cases fun c member => ((escapes_eq_false c).mp (plain c member)).1]
  rfl

/-- A text comes through whatever the buffers just if nothing in it is escaped. -/
theorem dq_round_trip_iff (x : List UInt8) : RoundTrips x ↔ ∀ c ∈ x, c ≠ BACKSLASH ∧ c ≠ DQUOTE ∧ c ≠ 0 := by
  simp only [← escapes_eq_false]
  constructor
  · intro roundTrips
    by_contra escaped
    -- the first call gets the text up to the first escape
    obtain ⟨c, found⟩ : ∃ c, x.find? escapes = some c := by
      rw [← Option.isSome_iff_exists, List.find?_isSome]
      simpa using escaped
    obtain ⟨here, front, rest, shape, plain⟩ := List.find?_eq_some_iff_append.mp found
    have plain' : ∀ c ∈ front, escapes c = false := fun c member => by simpa using plain c member
    have text : encoded x = front ++ [BACKSLASH, c] ++ encoded rest := by
      rw [shape, encoded_plain plain', encoded_cons, if_pos here, List.append_assoc]
    have read := roundTrips.inside (encoded x) (encoder_yields x) [] ⟨front.length + 2, false, front.length + 2⟩
      (by simp) (by simp)
    have part : (Offer.mk (front.length + 2) false (front.length + 2)).portion (encoded x) =
        front ++ [BACKSLASH, c] := by
      rw [text, Offer.portion, if_neg (by simp), List.take_left' (by simp)]
    have overrun := decoder_overruns (fun d member => ((escapes_eq_false d).mp (plain' d member)).1) c
    rw [show (drive dq_decoder () (encoded x) []).pending = encoded x from rfl, part,
      show (Offer.mk (front.length + 2) false (front.length + 2)).command = .xcode from rfl, overrun] at read
    cases read
  · intro plain
    have same : encoded x = x := by
      have text := encoded_plain plain []
      rwa [List.append_nil, show encoded [] = [] from rfl, List.append_nil] at text
    refine ⟨fun e yields schedule o rooms room => ?_, x, ?_, yields_of_copy decoder_copies (by decide) plain⟩
    · have written := yields.unique (encoder_yields x) ⟨⟨0, true, 2⟩, rfl, Nat.le_refl 2⟩
      rw [same] at written
      subst written
      have pending : ∀ c ∈ (drive dq_decoder () e schedule).pending, escapes c = false :=
        (drive_sound (accounts_of_copy decoder_copies) schedule rooms plain).good
      have part : ∀ c ∈ o.portion (drive dq_decoder () e schedule).pending, c ≠ BACKSLASH := by
        obtain ⟨rest, split, _⟩ := portion_append o (drive dq_decoder () e schedule).pending
        intro c member
        exact ((escapes_eq_false c).mp (pending c (split ▸ List.mem_append_left _ member))).1
      rw [decoder_plain o.command_cases part]
      rfl
    · have yields := encoder_yields x
      rwa [same] at yields

theorem escape_overrun : (drive _dq_encoder () [DQUOTE] [⟨0, true, 2⟩]).output = [BACKSLASH, DQUOTE] ∧
    _dq_decoder .lastbuf [BACKSLASH, DQUOTE] 2 = none := by
  decide

end Mailutils.Dq

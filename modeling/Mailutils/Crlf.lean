import Mailutils.FilterRuns
import Mathlib.Data.List.Induction

/-!
The CRLF filter (`libmailutils/filter/crlfflt.c`). The decoder waits for the byte after a carriage return,
also when there is none to come: a text that ends in one does not come through both directions, and every other
text does. With `-n` the encoder leaves its own output alone (`crlf_filter_iff`).
-/
namespace Mailutils.Crlf
open Mailutils.Transducer Mailutils.Filter

/-- `enum crlf_state` -/
inductive CrlfState
  | init | cr
  deriving DecidableEq, Repr

/-- `struct crlf_encoder_state` -/
structure EncoderState where
  cur : CrlfState
  last : CrlfState
  deriving DecidableEq, Repr

/-- The loop of `_crlf_encoder`: `none` when it asks for a larger output buffer. -/
def crlf_encode_loop (osize : Nat) : EncoderState → List UInt8 → Nat → List UInt8 →
    Option (EncoderState × Nat × List UInt8)
  | state, [], i, output => some (state, i, output)
  | state, c :: rest, i, output =>
    if output.length < osize then
      if c = LF then
        if state.cur = .cr then crlf_encode_loop osize { state with cur := .init } rest (i + 1) (output ++ [c])
        else if output.length + 1 = osize then
          if i = 0 then none else some (state, i, output)
        else crlf_encode_loop osize state rest (i + 1) (output ++ [CR, LF])
      else if c = CR ∧ state.last = .cr then
        crlf_encode_loop osize { state with cur := .cr } rest (i + 1) (output ++ [c])
      else crlf_encode_loop osize { state with cur := .init } rest (i + 1) (output ++ [c])
    else some (state, i, output)

def _crlf_encoder : Xcode EncoderState := fun state cmd input osize =>
  match cmd with
  | .init => ⟨.ok, { state with cur := .init }, input.length, osize, [], false⟩
  | .done => ⟨.ok, state, input.length, osize, [], false⟩
  | _ =>
    match crlf_encode_loop osize state input 0 [] with
    | none => ⟨.moreoutput, state, input.length, 2, [], false⟩
    | some (state, i, output) => ⟨.ok, state, i, output.length, output, false⟩

/-- The loop of `_crlf_decoder`; that `i + 1` is `isize` is said by `rest = []`. -/
def crlf_decode_loop (osize : Nat) : List UInt8 → Nat → List UInt8 → Nat × List UInt8
  | [], i, output => (i, output)
  | c :: rest, i, output =>
    if output.length < osize then
      if c = CR then
        if rest = [] then (i, output)
        else if rest.head? = some LF then crlf_decode_loop osize rest (i + 1) output
        else crlf_decode_loop osize rest (i + 1) (output ++ [c])
      else crlf_decode_loop osize rest (i + 1) (output ++ [c])
    else (i, output)

def _crlf_decoder : Xcode Unit := fun _ cmd input osize =>
  match cmd with
  | .init | .done => ⟨.ok, (), input.length, osize, [], false⟩
  | _ =>
    let (i, output) := crlf_decode_loop osize input 0 []
    ⟨.ok, (), i, output.length, output, false⟩

/-- `alloc_state` for the encoder, with the arguments the filter is created with, its name first. -/
def alloc_state (argv : List (List UInt8)) : EncoderState :=
  ⟨.init, if argv.length = 2 ∧ argv[1]? = some (ascii "-n") then .cr else .init⟩

/-- What the encoder does at a byte when there is room. -/
def encodeStep (state : EncoderState) (c : UInt8) : EncoderState × List UInt8 :=
  if c = LF then
    if state.cur = .cr then ({ state with cur := .init }, [LF]) else (state, [CR, LF])
  else if c = CR ∧ state.last = .cr then ({ state with cur := .cr }, [c])
  else ({ state with cur := .init }, [c])

/-- What the encoder writes for a text. -/
def encoded (state : EncoderState) (x : List UInt8) : List UInt8 := (feed encodeStep state x).2

theorem encode_loop_ran {osize : Nat} (two : 2 ≤ osize) (state : EncoderState) (input : List UInt8) :
    ∃ s' k o, crlf_encode_loop osize state input 0 [] = some (s', 0 + k, o) ∧
      Ran encodeStep (fun _ o => osize ≤ o.length + 1) state input [] s' k o := by
  obtain ⟨s', k, o, loop, _, ran⟩ := ran_of_loop encodeStep (fun _ o => osize ≤ o.length + 1)
    (crlf_encode_loop osize) (fun s i o => some (s, i, o)) (fun i o => i = 0 → o = []) (fun _ _ _ => rfl)
    (fun state c rest i output fresh => by
      by_cases space : output.length < osize
      · by_cases full : c = LF ∧ state.cur ≠ .cr ∧ output.length + 1 = osize
        · obtain ⟨newline, plain, edge⟩ := full
          have begun : i ≠ 0 := by
            intro first
            rw [fresh first, List.length_nil] at edge
            omega
          refine Or.inl ⟨by omega, ?_⟩
          rw [crlf_encode_loop, if_pos space, if_pos newline, if_neg plain, if_pos edge, if_neg begun]
        · refine Or.inr ⟨by simp, ?_⟩
          rw [crlf_encode_loop, if_pos space, encodeStep]
          split_ifs <;> simp_all
      · exact Or.inl ⟨by omega, by rw [crlf_encode_loop, if_neg space]⟩)
    input state 0 [] (fun _ => rfl)
  exact ⟨s', k, o, loop, ran⟩

theorem encoder_yields (state : EncoderState) (x : List UInt8) :
    Yields _crlf_encoder state 2 (·.last) x (encoded state x) := by
  refine yields_of_ran (fun room o => room ≤ o.length + 1) (fun room two full => ?_) (fun state o input room => ?_) _ x
  · simp only [List.length_nil] at full
    omega
  · obtain ⟨s', k, output, loop, ran⟩ := encode_loop_ran room state input
    refine ⟨s', k, output, ?_, ran⟩
    rw [Nat.zero_add] at loop
    rcases o.command_cases with last | more
    · simp only [_crlf_encoder, last, loop]
    · simp only [_crlf_encoder, more, loop]

/-- What the decoder writes for a text. -/
def decoded : List UInt8 → List UInt8
  | [] => []
  | c :: rest => if c = CR ∧ rest.headD LF = LF then decoded rest else c :: decoded rest

private theorem decode_loop_account (osize : Nat) (tail input : List UInt8) (i : Nat) (output : List UInt8) :
    ∃ k o, crlf_decode_loop osize input i output = (i + k, output ++ o) ∧ k ≤ input.length ∧
      decoded (input ++ tail) = o ++ decoded ((input ++ tail).drop k) ∧
      (k = 0 → input = [] ∨ input = [CR] ∨ osize ≤ output.length) := by
  induction input generalizing i output with
  | nil => exact ⟨0, [], by simp [crlf_decode_loop], Nat.le_refl 0, by simp, fun _ => .inl rfl⟩
  | cons c rest ih =>
    by_cases space : output.length < osize
    · by_cases lone : c = CR ∧ rest = []
      · obtain ⟨rfl, rfl⟩ := lone
        refine ⟨0, [], ?_, Nat.zero_le _, by simp, fun _ => .inr (.inl rfl)⟩
        simp [crlf_decode_loop]
      · have head (newline : c = CR) : (rest ++ tail).headD LF = LF ↔ rest.head? = some LF := by
          cases rest with
          | nil => exact absurd ⟨newline, rfl⟩ lone
          | cons d rest => simp
        by_cases skip : c = CR ∧ rest.head? = some LF
        · obtain ⟨k, o, loop, bound, account, _⟩ := ih (i + 1) output
          refine ⟨k + 1, o, ?_, by simpa using bound, ?_, by simp⟩
          · have more : rest ≠ [] := fun none => lone ⟨skip.1, none⟩
            rw [crlf_decode_loop, if_pos space, if_pos skip.1, if_neg more, if_pos skip.2, loop, Nat.add_right_comm,
              Nat.add_assoc]
          · rw [List.cons_append, decoded, if_pos ⟨skip.1, (head skip.1).mpr skip.2⟩, account, List.drop_succ_cons]
        · obtain ⟨k, o, loop, bound, account, _⟩ := ih (i + 1) (output ++ [c])
          refine ⟨k + 1, c :: o, ?_, by simpa using bound, ?_, by simp⟩
          · have goes : crlf_decode_loop osize (c :: rest) i output =
                crlf_decode_loop osize rest (i + 1) (output ++ [c]) := by
              rw [crlf_decode_loop, if_pos space]
              split_ifs <;> simp_all
            rw [goes, loop, List.append_assoc, List.singleton_append, Nat.add_right_comm, Nat.add_assoc]
          · have kept : ¬ (c = CR ∧ (rest ++ tail).headD LF = LF) := fun both =>
              skip ⟨both.1, (head both.1).mp both.2⟩
            rw [List.cons_append, decoded, if_neg kept, account, List.drop_succ_cons, List.cons_append]
    · refine ⟨0, [], ?_, Nat.zero_le _, by simp, fun _ => .inr (.inr (by omega))⟩
      rw [crlf_decode_loop, if_neg space, Nat.add_zero, List.append_nil]

theorem decoder_reply (o : Offer) (pending : List UInt8) :
    ∃ k output, _crlf_decoder () o.command (o.portion pending) o.room = ⟨.ok, (), k, output.length, output, false⟩ ∧
      decoded pending = output ++ decoded (pending.drop k) ∧
      (k = 0 → o.portion pending = [] ∨ o.portion pending = [CR] ∨ o.room = 0) := by
  obtain ⟨tail, split, _⟩ := portion_append o pending
  obtain ⟨k, output, loop, _, account, stuck⟩ := decode_loop_account o.room tail (o.portion pending) 0 []
  rw [← split] at account
  refine ⟨k, output, ?_, account, by simpa using stuck⟩
  rcases o.command_cases with last | more
  · simp [_crlf_decoder, last, loop]
  · simp [_crlf_decoder, more, loop]

theorem decoder_accounts (good : Unit → List UInt8 → Prop) (drops : ∀ p n, good () p → good () (p.drop n))
    (pending : List UInt8) (o : Offer) (fine : good () pending) :
    (_crlf_decoder () o.command (o.portion pending) o.room).Accounts (fun _ => decoded) good () pending := by
  obtain ⟨k, output, reply, account, _⟩ := decoder_reply o pending
  rw [reply]
  exact ⟨drops pending k fine, by simpa using account⟩

/-- Whatever the buffers, the decoder yields the decoded text, unless the text ends in a carriage return. -/
theorem decoder_yields (y : List UInt8) (ends : y.getLast? ≠ some CR) :
    Yields _crlf_decoder () 2 (·.last) y (decoded y) := by
  refine yields_of_accounts (fun _ => decoded) (fun _ p => p.getLast? ≠ some CR) ?_
    (fun _ last => last) ?_ (fun _ _ => rfl) ends
  · intro _ pending o fine _
    refine decoder_accounts _ (fun p n fine => ?_) pending o fine
    rw [List.getLast?_drop]
    split
    · simp
    · exact fine
  · intro _ pending o fine room last
    obtain ⟨k, output, reply, _, stuck⟩ := decoder_reply o pending
    have all : o.portion pending = pending := by simp [Offer.portion, last]
    rw [reply]
    refine ⟨rfl, ?_⟩
    by_cases read : 0 < k
    · exact .inr (.inr read)
    · left
      rw [all] at stuck
      rcases stuck (by omega) with none | lone | full
      · simp [none]
      · simp [lone] at fine
      · omega

theorem encoded_cons (c : UInt8) (x : List UInt8) :
    encoded ⟨.init, .init⟩ (c :: x) = (if c = LF then [CR, LF] else [c]) ++ encoded ⟨.init, .init⟩ x := by
  by_cases newline : c = LF <;> simp [encoded, feed_cons, encodeStep, newline]

theorem encoded_getLast (x : List UInt8) : (encoded ⟨.init, .init⟩ x).getLast? = x.getLast? := by
  induction x with
  | nil => rfl
  | cons c x ih =>
    rw [encoded_cons, List.getLast?_append, ih]
    by_cases newline : c = LF <;> cases x <;> simp [newline, List.getLast?_cons]

/-- Only a carriage return that comes last is lost. -/
theorem decoded_encoded (x : List UInt8) :
    decoded (encoded ⟨.init, .init⟩ x) ++ (if x.getLast? = some CR then [CR] else []) = x := by
  induction x with
  | nil => rfl
  | cons c x ih =>
    rw [encoded_cons]
    by_cases newline : c = LF
    · subst newline
      cases x with
      | nil => rfl
      | cons d x =>
        simp only [if_true, List.cons_append, List.nil_append, decoded, List.headD_cons, and_self]
        rw [if_neg (fun both => absurd both.1 (by decide)), List.cons_append, List.getLast?_cons_cons, ih]
    · rw [if_neg newline, List.singleton_append, decoded]
      cases x with
      | nil =>
        by_cases back : c = CR
        · simp [encoded, decoded, back]
        · simp [encoded, decoded, back]
      | cons d x =>
        have begins : (encoded ⟨.init, .init⟩ (d :: x)).headD LF ≠ LF := by
          rw [encoded_cons]
          by_cases next : d = LF
          · simp [next, show ¬ CR = LF by decide]
          · simp [next]
        rw [if_neg (fun both => begins both.2), List.cons_append, List.getLast?_cons_cons, ih]

/-- Without `-n` a text comes through both directions unless it ends in a carriage return. -/
theorem round_trip_iff (x : List UInt8) :
    (∃ y, Yields _crlf_encoder ⟨.init, .init⟩ 2 (·.last) x y ∧ Yields _crlf_decoder () 2 (·.last) y x) ↔
      x.getLast? ≠ some CR := by
  have back := decoded_encoded x
  constructor
  · rintro ⟨y, encodes, decodes⟩ return'
    have calls (_ : Unit) (pending : List UInt8) (o : Offer) (fine : True) (_ : 2 ≤ o.room) :=
      decoder_accounts (fun _ _ => True) (fun _ _ _ => trivial) pending o fine
    have same := eq_total_of_yields calls ⟨⟨0, true, 2⟩, rfl, Nat.le_refl 2⟩ (fun _ _ => rfl) trivial decodes
    have written := encodes.unique (encoder_yields _ x) ⟨⟨0, true, 2⟩, rfl, Nat.le_refl 2⟩
    rw [if_pos return', ← written, ← same] at back
    have := congrArg List.length back
    simp at this
  · intro ends
    rw [if_neg ends, List.append_nil] at back
    refine ⟨encoded ⟨.init, .init⟩ x, encoder_yields _ x, ?_⟩
    conv_rhs => rw [← back]
    exact decoder_yields _ (by rwa [encoded_getLast])

/-- Every newline of a text comes after a carriage return. -/
def Normal (y : List UInt8) : Prop := ∀ a b, y = a ++ LF :: b → a.getLast? = some CR

theorem normal_concat {y : List UInt8} {c : UInt8} (normal : Normal y) (ends : c = LF → y.getLast? = some CR) :
    Normal (y ++ [c]) := by
  intro a b split
  rcases List.eq_nil_or_concat b with rfl | ⟨b, d, rfl⟩
  · obtain ⟨rfl, rfl⟩ := List.append_inj' split rfl |>.imp_right List.singleton_inj.mp
    exact ends rfl
  · rw [List.concat_eq_append, ← List.cons_append, ← List.append_assoc] at split
    exact normal a b (List.append_inj' split rfl).1

/-- With `-n` the encoder is behind a carriage return just when it has written one. -/
theorem encoded_normal (x : List UInt8) :
    (feed encodeStep ⟨.init, .cr⟩ x).1.last = .cr ∧
      ((feed encodeStep ⟨.init, .cr⟩ x).1.cur = .cr → (encoded ⟨.init, .cr⟩ x).getLast? = some CR) ∧
      Normal (encoded ⟨.init, .cr⟩ x) := by
  induction x using List.reverseRecOn with
  | nil => exact ⟨rfl, fun cur => (by cases cur), fun a b split => by cases a <;> cases split⟩
  | append_singleton x c ih =>
    obtain ⟨last, behind, normal⟩ := ih
    unfold encoded at behind normal ⊢
    rw [feed_concat]
    generalize feed encodeStep ⟨.init, .cr⟩ x = fed at last behind normal
    by_cases newline : c = LF
    · by_cases cur : fed.1.cur = .cr
      · simp only [encodeStep, newline, cur, if_true]
        exact ⟨last, fun cur => (by cases cur), normal_concat normal fun _ => behind cur⟩
      · simp only [encodeStep, newline, cur, if_true, if_false]
        refine ⟨last, fun impossible => impossible.elim, ?_⟩
        have once : Normal (fed.2 ++ [CR]) := normal_concat normal fun here => absurd here (by decide)
        have twice : Normal (fed.2 ++ [CR] ++ [LF]) := normal_concat once (by simp)
        rwa [List.append_assoc] at twice
    · have steady : Normal (fed.2 ++ [c]) := normal_concat normal fun here => absurd here newline
      by_cases back : c = CR
      · simp only [encodeStep, if_neg newline, if_pos (And.intro back last)]
        exact ⟨last, fun _ => by simp [back], steady⟩
      · simp only [encodeStep, if_neg newline, back, false_and, if_false]
        exact ⟨last, fun cur => (by cases cur), steady⟩

/-- With `-n` the encoder takes what it wrote for one byte as it is. -/
theorem encodeStep_again {state : EncoderState} (last : state.last = .cr) (c : UInt8) :
    feed encodeStep state (encodeStep state c).2 = encodeStep state c := by
  obtain ⟨cur, _⟩ := state
  subst last
  by_cases newline : c = LF
  · cases cur <;> simp [encodeStep, newline, feed_cons, show ¬ CR = LF by decide]
  · by_cases back : c = CR
    · simp [encodeStep, back, feed_cons, show ¬ CR = LF by decide]
    · simp [encodeStep, newline, back, feed_cons]

theorem encodeStep_last (state : EncoderState) (c : UInt8) : (encodeStep state c).1.last = state.last := by
  unfold encodeStep
  split_ifs <;> rfl

theorem encoded_again (x : List UInt8) {state : EncoderState} (last : state.last = .cr) :
    feed encodeStep state (feed encodeStep state x).2 = feed encodeStep state x := by
  induction x generalizing state with
  | nil => rfl
  | cons c x ih =>
    rw [feed_cons, feed_append, encodeStep_again last c, ih ((encodeStep_last state c).trans last)]

/-- A filter made without `-n` takes a text through both directions just when the text does not end in a
    carriage return; one made with `-n` writes only newlines behind a carriage return and leaves its own
    output alone. -/
theorem crlf_filter_iff (argv : List (List UInt8)) (x : List UInt8) :
    ((alloc_state argv).last = .init →
      ∃ y, Yields _crlf_encoder (alloc_state argv) 2 (·.last) x y ∧ Yields _crlf_decoder () 2 (·.last) y x) ∧
    ((alloc_state argv).last = .cr →
      ∃ y, Yields _crlf_encoder (alloc_state argv) 2 (·.last) x y ∧ Normal y ∧
        Yields _crlf_encoder (alloc_state argv) 2 (·.last) y y) ↔
      ((alloc_state argv).last = .init → x.getLast? ≠ some CR) := by
  have plain (last : (alloc_state argv).last = .init) : alloc_state argv = ⟨.init, .init⟩ :=
    congrArg (EncoderState.mk .init) last
  have normalizing (last : (alloc_state argv).last = .cr) : alloc_state argv = ⟨.init, .cr⟩ :=
    congrArg (EncoderState.mk .init) last
  constructor
  · intro both last
    have trip := both.1 last
    rw [plain last] at trip
    exact (round_trip_iff x).mp trip
  · intro ends
    refine ⟨fun last => ?_, fun last => ?_⟩
    · rw [plain last]
      exact (round_trip_iff x).mpr (ends last)
    · rw [normalizing last]
      have again := encoder_yields ⟨.init, .cr⟩ (encoded ⟨.init, .cr⟩ x)
      rw [show encoded ⟨.init, .cr⟩ (encoded ⟨.init, .cr⟩ x) = encoded ⟨.init, .cr⟩ x from
        congrArg Prod.snd (encoded_again x rfl)] at again
      exact ⟨_, encoder_yields _ x, (encoded_normal x).2.2, again⟩

/-- A carriage return that comes last is never decoded, however often it is offered. -/
theorem last_return_stays :
    (drive _crlf_encoder (alloc_state [ascii "CRLF"]) [97, CR] (List.replicate 3 ⟨0, true, 8⟩)).output = [97, CR] ∧
      (drive _crlf_encoder (alloc_state [ascii "CRLF"]) [97, CR] (List.replicate 3 ⟨0, true, 8⟩)).finished = true ∧
      (drive _crlf_decoder () [97, CR] (List.replicate 9 ⟨0, true, 8⟩)).output = [97] ∧
      (drive _crlf_decoder () [97, CR] (List.replicate 9 ⟨0, true, 8⟩)).finished = false := by
  decide

end Mailutils.Crlf

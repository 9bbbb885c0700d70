import Mailutils.FilterRuns

/-!
The percent filter (`libmailutils/filter/percent.c`). The decoder wants one byte more than an escape has, and
gives up the percent sign when a buffer ends before that: an escape at the end of a buffer comes back as its two
digits. What comes through for every cutting are the texts with nothing to escape (`percent_round_trip_iff`).
-/
namespace Mailutils.Percent
open Mailutils.Transducer Mailutils.Filter

def xchar : List UInt8 := ascii "0123456789ABCDEF"

def mu_isgraph (c : UInt8) : Bool := 33 ≤ c ∧ c ≤ 126

/-- `percent_alloc` for the encoder, with the arguments behind the filter's name: the characters to escape. -/
def percent_alloc : List (List UInt8) → List UInt8
  | [] => ((List.range 255).map fun n => UInt8.ofNat (n + 1)).filter fun c => c = PERCENT ∨ c = 34 ∨ ¬ mu_isgraph c
  | args => args.flatten

example : PERCENT ∈ percent_alloc [] ∧ 97 ∉ percent_alloc [] := by decide +kernel

/-- The condition of the encoder for a character to be escaped. -/
def escapes (escape_chars : List UInt8) (c : UInt8) : Bool := c = 0 ∨ (strchr escape_chars c).isSome

variable {escape_chars : List UInt8} {c : UInt8}

private theorem escapes_eq_true :
    escapes escape_chars c = true ↔ c = 0 ∨ c ∈ escape_chars := by
  have found : (strchr escape_chars c).isSome = true ↔ c ∈ escape_chars ∨ c = 0 := by
    rw [strchr, List.findIdx?_isSome, List.any_eq_true]
    simp
  rw [escapes, decide_eq_true_iff, found]
  tauto

/-- What is stored for an escaped character. -/
def escape (c : UInt8) : List UInt8 :=
  [PERCENT, xchar.getD (c >>> 4 &&& 0xf).toNat 0, xchar.getD (c &&& 0xf).toNat 0]

/-- The loop of `percent_encoder`: `none` when it asks for a larger output buffer. -/
def percent_encode_loop (escape_chars : List UInt8) (osize : Nat) : List UInt8 → Nat → List UInt8 →
    Option (Nat × List UInt8)
  | [], i, output => some (i, output)
  | c :: rest, i, output =>
    if output.length < osize then
      if escapes escape_chars c then
        if osize ≤ output.length + 3 then
          if i = 0 then none else some (i, output)
        else percent_encode_loop escape_chars osize rest (i + 1) (output ++ escape c)
      else percent_encode_loop escape_chars osize rest (i + 1) (output ++ [c])
    else some (i, output)

/-- The transcoder's data are the characters to escape. -/
def percent_encoder : Xcode (List UInt8) := fun escape_chars cmd input osize =>
  match cmd with
  | .init | .done => ⟨.ok, escape_chars, input.length, osize, [], false⟩
  | _ =>
    match percent_encode_loop escape_chars osize input 0 [] with
    | none => ⟨.moreoutput, escape_chars, input.length, 3, [], false⟩
    | some (i, output) => ⟨.ok, escape_chars, i, output.length, output, false⟩

/-- The value of two hexadecimal digits; the null byte passes for a digit too. -/
def digits (hi lo : UInt8) : Option UInt8 :=
  match strchr xchar (mu_toupper hi), strchr xchar (mu_toupper lo) with
  | some phi, some plo => some (phi * 16 + plo).toUInt8
  | _, _ => none

/-- The loop of `percent_decoder`. Where it breaks off at a percent sign, the sign is counted in `i`; that
    `i + 2` is less than `isize` is said by the three bytes behind the sign. -/
def percent_decode_loop (osize : Nat) : List UInt8 → Nat → List UInt8 → Nat × List UInt8
  | [], i, output => (i, output)
  | c :: rest, i, output =>
    if output.length < osize then
      if c = PERCENT then
        match rest with
        | hi :: lo :: next :: more =>
          match digits hi lo with
          | some value => percent_decode_loop osize (next :: more) (i + 3) (output ++ [value])
          | none => percent_decode_loop osize (hi :: lo :: next :: more) (i + 1) (output ++ [c])
        | _ => (i + 1, output)
      else percent_decode_loop osize rest (i + 1) (output ++ [c])
    else (i, output)

def percent_decoder : Xcode Unit := fun _ cmd input osize =>
  match cmd with
  | .init | .done => ⟨.ok, (), input.length, osize, [], false⟩
  | _ =>
    let (i, output) := percent_decode_loop osize input 0 []
    ⟨.ok, (), i, output.length, output, false⟩

/-- What the encoder does at a byte when there is room. -/
def encodeStep (escape_chars : List UInt8) (c : UInt8) : List UInt8 × List UInt8 :=
  (escape_chars, if escapes escape_chars c then escape c else [c])

/-- What the encoder writes for a text. -/
def encoded (escape_chars x : List UInt8) : List UInt8 := (feed encodeStep escape_chars x).2

@[simp] theorem encoded_nil (escape_chars : List UInt8) : encoded escape_chars [] = [] := rfl

theorem encoded_cons (escape_chars : List UInt8) (c : UInt8) (x : List UInt8) :
    encoded escape_chars (c :: x) = (if escapes escape_chars c then escape c else [c]) ++ encoded escape_chars x := rfl

theorem encoded_append (escape_chars x z : List UInt8) :
    encoded escape_chars (x ++ z) = encoded escape_chars x ++ encoded escape_chars z := by
  induction x with
  | nil => rfl
  | cons c x ih => rw [List.cons_append, encoded_cons, encoded_cons, ih, List.append_assoc]

theorem encoded_plain {escape_chars x : List UInt8} (plain : ∀ c ∈ x, escapes escape_chars c = false) :
    encoded escape_chars x = x := by
  induction x with
  | nil => rfl
  | cons c x ih =>
    rw [List.forall_mem_cons] at plain
    rw [encoded_cons, plain.1, ih plain.2]
    rfl

variable {osize : Nat}

theorem encode_loop_ran (four : 4 ≤ osize) (escape_chars input : List UInt8) :
    ∃ k o, percent_encode_loop escape_chars osize input 0 [] = some (0 + k, o) ∧
      Ran encodeStep (fun _ o => osize ≤ o.length + 3) escape_chars input [] escape_chars k o := by
  obtain ⟨s', k, o, loop, _, ran⟩ := ran_of_loop encodeStep (fun _ o => osize ≤ o.length + 3)
    (fun s input i o => (s, percent_encode_loop s osize input i o)) (fun s i o => (s, some (i, o)))
    (fun i o => i = 0 → o = []) (fun _ _ _ => rfl) (fun escape_chars c rest i output fresh => by
      by_cases space : output.length < osize
      · by_cases escaped : escapes escape_chars c = true
        · by_cases tight : osize ≤ output.length + 3
          · have begun : i ≠ 0 := by
              intro first
              rw [fresh first, List.length_nil] at tight
              omega
            refine Or.inl ⟨tight, ?_⟩
            rw [percent_encode_loop, if_pos space, if_pos escaped, if_pos tight, if_neg begun]
          · refine Or.inr ⟨by simp, ?_⟩
            rw [percent_encode_loop, if_pos space, if_pos escaped, if_neg tight, encodeStep, if_pos escaped]
        · refine Or.inr ⟨by simp, ?_⟩
          rw [percent_encode_loop, if_pos space, if_neg escaped, encodeStep, if_neg escaped]
      · exact Or.inl ⟨by omega, by rw [percent_encode_loop, if_neg space]⟩)
    input escape_chars 0 [] (fun _ => rfl)
  obtain ⟨rfl, ended⟩ := Prod.mk.inj loop
  exact ⟨k, o, ended, ran⟩

theorem encoder_yields (escape_chars x : List UInt8) :
    Yields percent_encoder escape_chars 4 (·.last) x (encoded escape_chars x) := by
  refine yields_of_ran (fun room o => room ≤ o.length + 3) (fun room four full => ?_) (fun state o input room => ?_) _ x
  · simp only [List.length_nil] at full
    omega
  · obtain ⟨k, output, loop, ran⟩ := encode_loop_ran room state input
    refine ⟨state, k, output, ?_, ran⟩
    rw [Nat.zero_add] at loop
    rcases o.command_cases with last | more
    · simp only [percent_encoder, last, loop]
    · simp only [percent_encoder, more, loop]

variable {output : List UInt8} {i : Nat}

theorem decode_full {input : List UInt8} (full : osize ≤ output.length) :
    percent_decode_loop osize input i output = (i, output) := by
  cases input with
  | nil => rfl
  | cons c rest => rw [percent_decode_loop.eq_def]; exact if_neg (by omega)

theorem decode_other {rest : List UInt8}
    (space : output.length < osize) (other : c ≠ PERCENT) :
    percent_decode_loop osize (c :: rest) i output = percent_decode_loop osize rest (i + 1) (output ++ [c]) := by
  rw [percent_decode_loop.eq_def]
  exact (if_pos space).trans (if_neg other)

theorem decode_loop_plain (osize : Nat) (input : List UInt8) (i : Nat) (output : List UInt8)
    (plain : PERCENT ∉ input) : percent_decode_loop osize input i output =
      (i + min input.length (osize - output.length),
        output ++ input.take (min input.length (osize - output.length))) := by
  induction input generalizing i output with
  | nil => simp [percent_decode_loop]
  | cons c rest ih =>
    have other : c ≠ PERCENT := fun here => plain (by simp [here])
    by_cases space : output.length < osize
    · obtain ⟨n, room⟩ : ∃ n, osize - output.length = n + 1 := ⟨osize - output.length - 1, by omega⟩
      have less : osize - (output ++ [c]).length = n := by
        rw [List.length_append, List.length_singleton]
        omega
      rw [decode_other space other, ih _ _ fun mem => plain (List.mem_cons_of_mem c mem), less, room,
        List.length_cons, Nat.add_min_add_right, List.take_succ_cons, List.append_assoc, List.singleton_append,
        Nat.add_right_comm, Nat.add_assoc]
    · have none : osize - output.length = 0 := by omega
      rw [decode_full (by omega), none]
      simp

theorem escape_digits (c : UInt8) :
    ∃ hi lo, escape c = [PERCENT, hi, lo] ∧ digits hi lo = some c ∧ hi ≠ PERCENT ∧ lo ≠ PERCENT := by
  refine ⟨_, _, rfl, ?_⟩
  have all : ∀ c : UInt8, (digits (xchar.getD (c >>> 4 &&& 0xf).toNat 0) (xchar.getD (c &&& 0xf).toNat 0) = some c ∧
      xchar.getD (c >>> 4 &&& 0xf).toNat 0 ≠ PERCENT ∧ xchar.getD (c &&& 0xf).toNat 0 ≠ PERCENT) :=
    byte_forall (by decide +kernel)
  exact all c

/-- An encoded text with at least one byte behind it is decoded. -/
theorem decode_loop_encoded (signs : escapes escape_chars PERCENT = true)
    {tail : List UInt8} (more : tail ≠ []) (x : List UInt8) (i : Nat) (output : List UInt8)
    (room : output.length + x.length ≤ osize) :
    percent_decode_loop osize (encoded escape_chars x ++ tail) i output =
      percent_decode_loop osize tail (i + (encoded escape_chars x).length) (output ++ x) := by
  induction x generalizing i output with
  | nil => simp
  | cons c x ih =>
    rw [List.length_cons] at room
    have later (j : Nat) := ih j (output ++ [c]) (by simp; omega)
    rw [List.append_assoc, List.singleton_append] at later
    obtain ⟨d, behind, next⟩ : ∃ d behind, encoded escape_chars x ++ tail = d :: behind :=
      List.exists_cons_of_ne_nil (by simp [more])
    rw [encoded_cons]
    by_cases escaped : escapes escape_chars c = true
    · obtain ⟨hi, lo, unit, value, _⟩ := escape_digits c
      rw [if_pos escaped, unit]
      simp only [List.cons_append, List.nil_append, List.length_cons]
      rw [next, percent_decode_loop, if_pos (by omega), if_pos rfl]
      simp only [value]
      rw [← next, later]
      congr 1
      omega
    · have other : c ≠ PERCENT := fun here => escaped (here ▸ signs)
      rw [if_neg escaped, List.singleton_append, List.cons_append, decode_other (by omega) other, later,
        List.length_cons]
      congr 1
      omega

theorem decoder_reply {o : Offer} {input : List UInt8}
    (loop : percent_decode_loop o.room input 0 [] = (i, output)) :
    percent_decoder () o.command input o.room = ⟨.ok, (), i, output.length, output, false⟩ := by
  rcases o.command_cases with last | more
  · simp only [percent_decoder, last, loop]
  · simp only [percent_decoder, more, loop]

theorem decoder_yields {x : List UInt8} (plain : PERCENT ∉ x) : Yields percent_decoder () 4 (·.last) x x := by
  refine yields_of_copy (P := (· ≠ PERCENT)) (fun o input plain _ => ?_) (by decide)
    fun c member here => plain (here ▸ member)
  have loop := decode_loop_plain o.room input 0 [] fun member => plain PERCENT member rfl
  rw [decoder_reply loop]
  simp

theorem exists_last {p : UInt8 → Bool} {x : List UInt8} (some : ∃ c ∈ x, p c = true) :
    ∃ a c b, x = a ++ c :: b ∧ p c = true ∧ ∀ d ∈ b, p d = false := by
  induction x with
  | nil => simp at some
  | cons c x ih =>
    by_cases later : ∃ d ∈ x, p d = true
    · obtain ⟨a, d, b, rfl, found⟩ := ih later
      exact ⟨c :: a, d, b, rfl, found⟩
    · have here : p c = true := by
        obtain ⟨d, mem, found⟩ := some
        rcases List.mem_cons.mp mem with rfl | mem
        · exact found
        · exact absurd ⟨d, mem, found⟩ later
      exact ⟨[], c, x, rfl, here, by simpa using later⟩

/-- The escape that comes last, cut off just behind its digits, comes back as its digits. -/
theorem escape_cut (signs : escapes escape_chars PERCENT = true) {a b : List UInt8}
    (escaped : escapes escape_chars c = true) (plain : ∀ d ∈ b, escapes escape_chars d = false) :
    ∃ hi lo, (drive percent_decoder () (encoded escape_chars (a ++ c :: b))
        [⟨(encoded escape_chars a).length + 3, false, a.length + 4⟩, ⟨0, true, b.length + 4⟩]).finished = true ∧
      (drive percent_decoder () (encoded escape_chars (a ++ c :: b))
        [⟨(encoded escape_chars a).length + 3, false, a.length + 4⟩, ⟨0, true, b.length + 4⟩]).output =
          a ++ hi :: lo :: b := by
  obtain ⟨hi, lo, unit, _, notHi, notLo⟩ := escape_digits c
  refine ⟨hi, lo, ?_⟩
  have text : encoded escape_chars (a ++ c :: b) = (encoded escape_chars a ++ [PERCENT, hi, lo]) ++ b := by
    rw [encoded_append, encoded_cons, if_pos escaped, unit, encoded_plain plain, List.append_assoc]
  have first : percent_decode_loop (a.length + 4) (encoded escape_chars a ++ [PERCENT, hi, lo]) 0 [] =
      ((encoded escape_chars a).length + 1, a) := by
    rw [decode_loop_encoded signs (by simp) a 0 [] (by simp), Nat.zero_add, List.nil_append]
    simp [percent_decode_loop]
  have noSign : PERCENT ∉ hi :: lo :: b := by
    intro mem
    rcases List.mem_cons.mp mem with here | mem
    · exact notHi here.symm
    · rcases List.mem_cons.mp mem with here | mem
      · exact notLo here.symm
      · exact absurd signs (by simp [plain _ mem])
  have second : percent_decode_loop (b.length + 4) (hi :: lo :: b) 0 [] = (b.length + 2, hi :: lo :: b) := by
    have short : min (hi :: lo :: b).length (b.length + 4 - ([] : List UInt8).length) = (hi :: lo :: b).length := by
      simp
    rw [decode_loop_plain _ _ 0 [] noSign, short, List.take_length]
    simp
  have one : (Session.start () (encoded escape_chars (a ++ c :: b))).offer percent_decoder
      ⟨(encoded escape_chars a).length + 3, false, a.length + 4⟩ = ⟨(), hi :: lo :: b, a, false, false⟩ := by
    have part : (Offer.mk ((encoded escape_chars a).length + 3) false (a.length + 4)).portion
        (encoded escape_chars (a ++ c :: b)) = encoded escape_chars a ++ [PERCENT, hi, lo] := by
      rw [text, Offer.portion, if_neg (by simp), List.take_left' (by simp)]
    have drops : (encoded escape_chars (a ++ c :: b)).drop ((encoded escape_chars a).length + 1) = hi :: lo :: b := by
      rw [text, List.append_assoc, List.drop_append]
      simp
    rw [← part] at first
    rw [offer_ok rfl (decoder_reply first)]
    simp [Session.start, drops]
  have two : (Session.mk () (hi :: lo :: b) a false false).offer percent_decoder ⟨0, true, b.length + 4⟩ =
      ⟨(), [], a ++ hi :: lo :: b, false, true⟩ := by
    rw [offer_ok rfl (decoder_reply second)]
    simp
  simp only [drive, List.foldl_cons, List.foldl_nil, one, two, and_self]

/-- A text comes through both directions for every cutting just when no byte of it is escaped. -/
theorem percent_round_trip_iff (escape_chars x : List UInt8) (signs : PERCENT ∈ escape_chars) :
    (∃ y, Yields percent_encoder escape_chars 4 (·.last) x y ∧ Yields percent_decoder () 4 (·.last) y x) ↔
      ∀ c ∈ x, c ≠ 0 ∧ c ∉ escape_chars := by
  have escapes_iff (c : UInt8) : escapes escape_chars c = false ↔ c ≠ 0 ∧ c ∉ escape_chars := by
    rw [← Bool.not_eq_true, escapes_eq_true, not_or]
  have signed : escapes escape_chars PERCENT = true := by
    rw [← Bool.not_eq_false, escapes_iff]
    exact fun both => both.2 signs
  simp only [← escapes_iff]
  constructor
  · rintro ⟨y, encodes, decodes⟩
    have written := encodes.unique (encoder_yields _ x) ⟨⟨0, true, 4⟩, rfl, Nat.le_refl 4⟩
    by_contra escaped
    -- the escape that comes last is followed by bytes that stand for themselves
    obtain ⟨a, c, b, rfl, last, plain⟩ : ∃ a c b, x = a ++ c :: b ∧ escapes escape_chars c = true ∧
        ∀ d ∈ b, escapes escape_chars d = false := exists_last (by simpa using escaped)
    obtain ⟨hi, lo, done, output⟩ := escape_cut signed (a := a) last plain
    rw [← written] at done output
    have same := decodes.1 _ (by simp) done
    have := congrArg List.length (output.symm.trans same)
    simp at this
  · intro plain
    refine ⟨x, ?_, decoder_yields fun mem => ?_⟩
    · conv_rhs => rw [← encoded_plain plain]
      exact encoder_yields escape_chars x
    · rw [plain _ mem] at signed
      cases signed

/-- A word without anything to escape, when only the percent sign is to be escaped. -/
theorem percent_round_trip_word : PERCENT ∈ percent_alloc [[PERCENT]] ∧
    ∃ y, Yields percent_encoder (percent_alloc [[PERCENT]]) 4 (·.last) (ascii "word") y ∧
      Yields percent_decoder () 4 (·.last) y (ascii "word") := by
  have signs : PERCENT ∈ percent_alloc [[PERCENT]] := by decide
  refine ⟨signs, (percent_round_trip_iff _ _ signs).mpr ?_⟩
  rw [← List.forall_iff_forall_mem]
  decide

/-- A space at the end of a text comes back as the digits of its escape, also when everything is offered at once. -/
theorem last_escape_lost :
    (drive percent_encoder (percent_alloc []) (ascii "a ") [⟨0, true, 16⟩]).output = ascii "a%20" ∧
      (drive percent_encoder (percent_alloc []) (ascii "a ") [⟨0, true, 16⟩]).finished = true ∧
      (drive percent_decoder () (ascii "a%20") (List.replicate 2 ⟨0, true, 16⟩)).output = ascii "a20" ∧
      (drive percent_decoder () (ascii "a%20") (List.replicate 2 ⟨0, true, 16⟩)).finished = true := by
  decide

end Mailutils.Percent

import Mailutils.Text
import Mailutils.Filter

/-!
The quoted-printable encoder and decoder (`libmailutils/filter/qpflt.c`), which are also those of the Q
encoding of RFC 2047. The encoder writes a space or a tab as it is wherever it stands, the decoder takes
it for padding before a newline and holds it back at the end: what was encoded is decoded again exactly
if there is none in these places (`decode_encode_iff`).
-/
namespace Mailutils.Qp
open Mailutils.Filter

def _hexdigits : List UInt8 := ascii "0123456789ABCDEF"

/-- The character is among the special ones; `strchr` also finds the null byte. -/
def special (specials : Option (List UInt8)) (c : UInt8) : Bool :=
  specials.any fun string => (strchr string c).isSome

def simple_char (specials : Option (List UInt8)) (c : UInt8) : Bool :=
  if special specials c then false
  else 32 ≤ c ∧ c ≤ 60 ∨ 62 ≤ c ∧ c ≤ 126 ∨ c = TAB ∨ c = LF

/-- What is stored for a character that is not quoted. -/
def plain (specials : Option (List UInt8)) (c : UInt8) : UInt8 :=
  if c = SP ∧ special specials UNDERSCORE then UNDERSCORE else c

/-- What is stored for a quoted character. -/
def quoted (c : UInt8) : List UInt8 :=
  [EQUAL, _hexdigits.getD (c >>> 4 &&& 0xf).toNat 0, _hexdigits.getD (c &&& 0xf).toNat 0]

example : quoted EQUAL = ascii "=3D" := by decide +kernel

/-- The loop of `_qp_encoder`, with the number of bytes consumed and what was stored. -/
def qp_encode_loop (specials : Option (List UInt8)) (osize : Nat) : List UInt8 → Nat → List UInt8 → Nat × List UInt8
  | [], consumed, output => (consumed, output)
  | c :: rest, consumed, output =>
    if simple_char specials c then
      if output.length + 1 > osize then (consumed, output)
      else qp_encode_loop specials osize rest (consumed + 1) (output ++ [plain specials c])
    else if output.length + 3 > osize then (consumed, output)
    else qp_encode_loop specials osize rest (consumed + 1) (output ++ quoted c)

/-- The transcoder's data are the special characters of the Q encoding, or nothing. -/
def _qp_encoder : Xcode (Option (List UInt8)) := fun specials cmd input osize =>
  match cmd with
  | .init | .done => ⟨.ok, specials, input.length, osize, [], false⟩
  | _ =>
    let (consumed, output) := qp_encode_loop specials osize input 0 []
    ⟨.ok, specials, consumed, output.length, output, false⟩

def ISWS (c : UInt8) : Bool := c = SP ∨ c = TAB

/-- `strtoul` of two characters, in base 16, as a `char`. -/
def strtoul16 (chr : List UInt8) : UInt8 :=
  let s := chr.dropWhile isspace
  let unsigned := if s.head? = some 43 ∨ s.head? = some 45 then s.tail else s
  let value := (unsigned.takeWhile mu_isxdigit).foldl
    (fun v c => 16 * v + (if isdigit c then c.toNat - 48 else (tolower c).toNat - 87)) 0
  if s.head? = some 45 then 0 - value.toUInt8 else value.toUInt8

/-- The loop of `_qp_decoder`, with the input from `iptr` on, the white space that is held back and what was
    stored; what it returns is where it stops. After a soft line break `consumed` is behind `iptr`, so that the
    input may end first: then there is nothing. -/
def qp_decode_loop (specials : Option (List UInt8)) (lastbuf : Bool) (isize osize : Nat) (input : List UInt8)
    (consumed : Nat) (ws output : List UInt8) : Option (Nat × List UInt8 × List UInt8) :=
  if isize ≤ consumed ∨ osize ≤ output.length then some (consumed, ws, output)
  else
    match input with
    | [] => none
    | c :: rest =>
      if ISWS c then qp_decode_loop specials lastbuf isize osize rest (consumed + 1) (ws ++ [c]) output
      else
        -- white space before the end of a line is dropped
        let kept := if c ≠ CR ∧ c ≠ LF then ws.take (osize - output.length) else ws.take 0
        let output := output ++ kept
        if c ≠ CR ∧ c ≠ LF ∧ kept.length < ws.length then some (consumed, ws.drop kept.length, output)
        else if ws ≠ [] ∧ output.length = osize then some (consumed, [], output)
        else if c = EQUAL then
          if consumed + 1 = isize then some (consumed, [], output)
          else
            match rest with
            | [] => none
            | d :: rest =>
              if d = LF then qp_decode_loop specials lastbuf isize osize rest (consumed + 1) [] output
              else if isize ≤ consumed + 2 then some (consumed, [], output)
              else
                match rest with
                | [] => none
                | e :: rest =>
                  if d = CR ∧ e = LF then qp_decode_loop specials lastbuf isize osize rest (consumed + 2) [] output
                  else
                    qp_decode_loop specials lastbuf isize osize rest (consumed + 3) [] (output ++ [strtoul16 [d, e]])
        else if c = CR then
          if isize ≤ consumed + 1 then some (if lastbuf then consumed + 1 else consumed, [], output)
          -- the character after the CR is skipped, whatever it is
          else qp_decode_loop specials lastbuf isize osize rest.tail (consumed + 2) [] (output ++ [LF])
        else if c = UNDERSCORE ∧ special specials c then
          qp_decode_loop specials lastbuf isize osize rest (consumed + 1) [] (output ++ [SP])
        else qp_decode_loop specials lastbuf isize osize rest (consumed + 1) [] (output ++ [c])
termination_by input.length

/-- `_qp_decoder`; what is held back is not consumed. -/
def _qp_decoder (specials : Option (List UInt8)) (cmd : Command) (input : List UInt8) (osize : Nat) :
    Option (Reply (Option (List UInt8))) :=
  match cmd with
  | .init | .done => some ⟨.ok, specials, input.length, osize, [], false⟩
  | _ =>
    (qp_decode_loop specials (cmd = .lastbuf) input.length osize input 0 [] []).map fun (consumed, ws, output) =>
      ⟨.ok, specials, consumed - ws.length, output.length, output, false⟩

/-- The data of the filter `quoted-printable`, and those that `alloc_Q` makes for the filter `Q`. -/
def filterData (q : Bool) : Option (List UInt8) := if q then some (ascii "_?") else none

/-- The encoding of a byte. -/
def encoded (specials : Option (List UInt8)) (c : UInt8) : List UInt8 :=
  if simple_char specials c then [plain specials c] else quoted c

private theorem qp_encode_loop_whole (specials : Option (List UInt8)) (x : List UInt8) : ∀ {osize consumed : Nat}
    {output : List UInt8}, output.length + 3 * x.length ≤ osize →
    qp_encode_loop specials osize x consumed output =
      (consumed + x.length, output ++ x.flatMap (encoded specials)) := by
  induction x with
  | nil => simp [qp_encode_loop]
  | cons c x ih =>
    intro osize consumed output room
    rw [List.length_cons] at room
    by_cases simple : simple_char specials c = true
    · rw [qp_encode_loop, if_pos simple, if_neg (by omega), ih (by simp; omega)]
      simp [encoded, simple, Nat.add_comm, Nat.add_left_comm]
    · rw [qp_encode_loop, if_neg simple, if_neg (by omega), ih (by simp [quoted]; omega)]
      simp [encoded, simple, Nat.add_comm, Nat.add_left_comm]

/-- A byte that is written as white space. -/
def blank (q : Bool) (c : UInt8) : Bool := c = TAB ∨ c = SP ∧ q = false

private theorem encoded_cases (q : Bool) (c : UInt8) :
    (blank q c = true ∧ encoded (filterData q) c = [c] ∧ ISWS c = true) ∨
    (blank q c = false ∧ ∃ d, encoded (filterData q) c = [d] ∧ ISWS d = false ∧ d ≠ EQUAL ∧ d ≠ CR ∧ (d = LF ↔ c = LF) ∧
      (if d = UNDERSCORE ∧ special (filterData q) d then SP else d) = c) ∨
    (blank q c = false ∧ c ≠ LF ∧ ∃ d e, encoded (filterData q) c = [EQUAL, d, e] ∧ d ≠ LF ∧ d ≠ CR ∧
      strtoul16 [d, e] = c) := by
  have simple : ∀ q c, simple_char (filterData q) c = true →
      (blank q c = true ∧ plain (filterData q) c = c ∧ ISWS c = true) ∨
      (blank q c = false ∧ ISWS (plain (filterData q) c) = false ∧ plain (filterData q) c ≠ EQUAL ∧
        plain (filterData q) c ≠ CR ∧ (plain (filterData q) c = LF ↔ c = LF) ∧
        (if plain (filterData q) c = UNDERSCORE ∧ special (filterData q) (plain (filterData q) c) then SP
          else plain (filterData q) c) = c) := fun q => byte_forall (by cases q <;> decide +kernel)
  have other : ∀ q c, simple_char (filterData q) c = false → blank q c = false ∧ c ≠ LF ∧
      _hexdigits.getD (c >>> 4 &&& 0xf).toNat 0 ≠ LF ∧ _hexdigits.getD (c >>> 4 &&& 0xf).toNat 0 ≠ CR ∧
      strtoul16 [_hexdigits.getD (c >>> 4 &&& 0xf).toNat 0, _hexdigits.getD (c &&& 0xf).toNat 0] = c :=
    fun q => byte_forall (by cases q <;> decide +kernel)
  cases is_simple : simple_char (filterData q) c with
  | true =>
    rcases simple q c is_simple with ⟨held, same, white⟩ | ⟨shown, rest⟩
    · exact .inl ⟨held, by rw [encoded, if_pos is_simple, same], white⟩
    · exact .inr (.inl ⟨shown, _, by rw [encoded, if_pos is_simple], rest⟩)
  | false =>
    obtain ⟨shown, notLF, rest⟩ := other q c is_simple
    exact .inr (.inr ⟨shown, notLF, _, _, by rw [encoded, is_simple]; rfl, rest⟩)

/-- What is stored for the encoding of `x`, behind white space that was held back. -/
def kept (q : Bool) : List UInt8 → List UInt8 → List UInt8
  | _, [] => []
  | ws, c :: x => if blank q c then kept q (ws ++ [c]) x else (if c = LF then [] else ws) ++ c :: kept q [] x

/-- The white space that is held back at the end. -/
def heldBack (q : Bool) : List UInt8 → List UInt8 → List UInt8
  | ws, [] => ws
  | ws, c :: x => if blank q c then heldBack q (ws ++ [c]) x else heldBack q [] x

section
variable {specials : Option (List UInt8)} {lastbuf : Bool} {isize osize consumed : Nat} {ws output : List UInt8}

theorem decode_white {c : UInt8} {rest : List UInt8} (white : ISWS c = true) (more : consumed < isize)
    (room : output.length + ws.length < osize) :
    qp_decode_loop specials lastbuf isize osize (c :: rest) consumed ws output =
      qp_decode_loop specials lastbuf isize osize rest (consumed + 1) (ws ++ [c]) output := by
  rw [qp_decode_loop.eq_def, if_neg (by omega)]
  exact if_pos white

theorem decode_char {d : UInt8} {rest : List UInt8} (visible : ISWS d = false) (notEQ : d ≠ EQUAL) (notCR : d ≠ CR)
    (more : consumed < isize) (room : output.length + ws.length < osize) :
    qp_decode_loop specials lastbuf isize osize (d :: rest) consumed ws output =
      qp_decode_loop specials lastbuf isize osize rest (consumed + 1) [] (output ++ (if d = LF then [] else ws) ++
        [if d = UNDERSCORE ∧ special specials d then SP else d]) := by
  have all : ws.take (osize - output.length) = ws := List.take_of_length_le (by omega)
  rw [qp_decode_loop.eq_def, if_neg (by omega)]
  by_cases newline : d = LF
  · subst newline
    have notUnderscore : LF ≠ UNDERSCORE := by decide
    simp [visible, notEQ, notCR, notUnderscore]
    omega
  · simp [visible, notEQ, notCR, newline, all]
    rw [if_neg (by omega)]
    split <;> rfl

theorem decode_quoted {d e : UInt8} {rest : List UInt8} (notLF : d ≠ LF) (notCR : d ≠ CR)
    (more : consumed + 3 ≤ isize) (room : output.length + ws.length < osize) :
    qp_decode_loop specials lastbuf isize osize (EQUAL :: d :: e :: rest) consumed ws output =
      qp_decode_loop specials lastbuf isize osize rest (consumed + 3) [] (output ++ ws ++ [strtoul16 [d, e]]) := by
  have all : ws.take (osize - output.length) = ws := List.take_of_length_le (by omega)
  rw [qp_decode_loop.eq_def, if_neg (by omega)]
  have visible : ISWS EQUAL = false ∧ EQUAL ≠ CR ∧ EQUAL ≠ LF := by decide
  simp [visible, all, notLF, notCR]
  rw [if_neg (by omega), if_neg (by omega), if_neg (by omega)]

end

theorem decode_encoded (q : Bool) (lastbuf : Bool) (x : List UInt8) : ∀ {isize osize consumed : Nat}
    {ws output : List UInt8}, consumed + (x.flatMap (encoded (filterData q))).length = isize →
    output.length + ws.length + x.length ≤ osize →
    qp_decode_loop (filterData q) lastbuf isize osize (x.flatMap (encoded (filterData q))) consumed ws output =
      some (isize, heldBack q ws x, output ++ kept q ws x) := by
  induction x with
  | nil =>
    intro isize osize consumed ws output whole room
    have done : consumed = isize := by simpa using whole
    rw [qp_decode_loop.eq_def, if_pos (.inl (by omega)), done]
    simp [heldBack, kept]
  | cons c x ih =>
    intro isize osize consumed ws output whole room
    rw [List.flatMap_cons, List.length_append] at whole
    rw [List.length_cons] at room
    rw [List.flatMap_cons]
    rcases encoded_cases q c with ⟨held, eq, white⟩ | ⟨shown, d, eq, visible, notEQ, notCR, newline, back⟩ |
      ⟨shown, notLF, d, e, eq, notLF', notCR', value⟩
    · rw [eq, List.length_singleton] at whole
      rw [eq, List.singleton_append, decode_white white (by omega) (by omega), ih (by omega) (by simp; omega)]
      simp [heldBack, kept, held]
    · rw [eq, List.length_singleton] at whole
      rw [eq, List.singleton_append, decode_char visible notEQ notCR (by omega) (by omega), back,
        ih (by omega) (by split <;> simp <;> omega)]
      simp [heldBack, kept, shown, newline]
    · have three : (encoded (filterData q) c).length = 3 := by rw [eq]; rfl
      rw [eq, List.cons_append, List.cons_append, List.cons_append, List.nil_append,
        decode_quoted notLF' notCR' (by omega) (by omega), value, ih (by omega) (by simp; omega)]
      simp [heldBack, kept, shown, notLF]

/-- A byte of white space that stands before a newline or at the end. -/
def Trailing (q : Bool) (x : List UInt8) : Prop :=
  ∃ b post, b :: post <:+ x ∧ blank q b = true ∧ (post = [] ∨ post.head? = some LF)

theorem kept_length_le (q : Bool) (x : List UInt8) :
    ∀ ws : List UInt8, (kept q ws x).length ≤ ws.length + x.length := by
  induction x with
  | nil => simp [kept]
  | cons c x ih =>
    intro ws
    have dropped := ih []
    have taken := ih (ws ++ [c])
    rw [kept]
    split
    · simpa [Nat.add_assoc, Nat.add_comm 1] using taken
    · split <;> simp at dropped ⊢ <;> omega

theorem trailing_cons_iff {q : Bool} {c : UInt8} {x : List UInt8} :
    Trailing q (c :: x) ↔ blank q c = true ∧ (x = [] ∨ x.head? = some LF) ∨ Trailing q x := by
  constructor
  · rintro ⟨b, post, suffix, held, ends⟩
    rcases List.suffix_cons_iff.1 suffix with eq | suffix
    · obtain ⟨rfl, rfl⟩ := List.cons.inj eq
      exact .inl ⟨held, ends⟩
    · exact .inr ⟨b, post, suffix, held, ends⟩
  · rintro (⟨held, ends⟩ | ⟨b, post, suffix, held, ends⟩)
    · exact ⟨c, x, List.suffix_rfl, held, ends⟩
    · exact ⟨b, post, suffix.trans (List.suffix_cons c x), held, ends⟩

theorem kept_eq_iff (q : Bool) (x : List UInt8) : ∀ ws : List UInt8, kept q ws x = ws ++ x ↔
    ¬ ((ws ≠ [] ∧ (x = [] ∨ x.head? = some LF)) ∨ Trailing q x) := by
  induction x with
  | nil => simp [kept, Trailing]
  | cons c x ih =>
    intro ws
    have next : kept q [] x = x ↔ ¬ Trailing q x := by simpa using ih []
    rw [trailing_cons_iff, kept]
    by_cases held : blank q c = true
    · have notLF : c ≠ LF := by
        rintro rfl
        exact absurd held (by cases q <;> decide)
      have later := ih (ws ++ [c])
      rw [if_pos held]
      simpa [held, notLF] using later
    · rw [if_neg held]
      have shorter := kept_length_le q x []
      by_cases newline : c = LF
      · subst newline
        rw [if_pos rfl, List.nil_append]
        constructor
        · intro same
          have lengths := congrArg List.length same
          obtain rfl : ws = [] := List.eq_nil_of_length_eq_zero (by simp at lengths shorter; omega)
          have same : kept q [] x = x := by simpa using same
          simpa [held] using next.1 same
        · intro none
          obtain rfl : ws = [] := by
            by_contra held
            exact none (.inl ⟨held, .inr rfl⟩)
          have none : ¬ Trailing q x := by simpa [held] using none
          rw [next.2 none, List.nil_append]
      · simpa [held, newline] using next

/-- Decoding what was encoded gives the same text exactly if no white space that is written as such stands before
    a newline or at the end. -/
theorem decode_encode_iff (q : Bool) (x : List UInt8) (osize osize' : Nat) (room : 3 * x.length ≤ osize)
    (room' : x.length ≤ osize') :
    (_qp_decoder (filterData q) .lastbuf (_qp_encoder (filterData q) .lastbuf x osize).output osize').map (·.output) =
      some x ↔ ¬ Trailing q x := by
  have whole := @qp_encode_loop_whole (filterData q) x osize 0 [] (by simpa using room)
  have back := @decode_encoded q true x _ osize' 0 [] [] rfl (by simpa using room')
  have same : kept q [] x = x ↔ ¬ Trailing q x := by simpa using kept_eq_iff q x []
  rw [Nat.zero_add] at back
  simp only [_qp_encoder, whole, _qp_decoder, List.nil_append, decide_true, back, Option.map_some,
    Option.some.injEq, same]

theorem decode_encode_words : (_qp_decoder (filterData true) .lastbuf
    (_qp_encoder (filterData true) .lastbuf (ascii "a b") 9).output 3).map (·.output) = some (ascii "a b") ↔
    ¬ Trailing true (ascii "a b") :=
  decode_encode_iff true (ascii "a b") 9 3 (by decide) (by decide)

/-- A space at the end of a line is lost, and so is a tab at the end of the text, where the decoder waits for what
    follows. -/
theorem trailing_space_lost :
    (_qp_decoder (filterData false) .lastbuf (_qp_encoder (filterData false) .lastbuf (ascii "a \nb") 12).output 4).map
      (·.output) = some (ascii "a\nb") ∧
    (_qp_decoder (filterData true) .lastbuf (_qp_encoder (filterData true) .lastbuf (ascii "a\t") 6).output 2).map
      (fun reply => (reply.output, reply.isize)) = some (ascii "a", 1) := by
  decide +kernel

end Mailutils.Qp

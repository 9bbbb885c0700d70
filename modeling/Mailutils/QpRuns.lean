import Mailutils.Qp
import Mailutils.FilterRuns

/-!
The quoted-printable decoder over any buffers (`libmailutils/filter/qpflt.c`). At a soft line break the count of the
bytes consumed falls one behind the bytes read, so that a buffer which ends there is read past its end. While the
decoder meets no soft line break, the buffers make no difference (`qp_buffers_iff`).
-/
namespace Mailutils.Qp
open Mailutils.Transducer Mailutils.Filter

/-- The decoder meets a soft line break: a `=` and the end of a line, where it begins to read something. The byte
    behind a carriage return and the two behind another `=` are read with it. -/
def softBreak : List UInt8 → Bool
  | [] => false
  | c :: rest =>
    if c = EQUAL then
      match rest with
      | [] => false
      | d :: rest =>
        if d = LF then true
        else
          match rest with
          | [] => false
          | e :: rest => if d = CR ∧ e = LF then true else softBreak rest
    else if c = CR then
      match rest with
      | [] => false
      | _ :: rest => softBreak rest
    else softBreak rest

/-- What is stored for a character that stands for itself. -/
def shown (specials : Option (List UInt8)) (c : UInt8) : UInt8 :=
  if c = UNDERSCORE ∧ special specials c then SP else c

/-- What is stored for a text behind white space, when there is room and no soft line break: white space before the
    end of a line or of the text is dropped, and so is an escape or a carriage return that is cut off. -/
def decoded (specials : Option (List UInt8)) : List UInt8 → List UInt8 → List UInt8
  | _, [] => []
  | ws, c :: rest =>
    if ISWS c then decoded specials (ws ++ [c]) rest
    else
      (if c ≠ CR ∧ c ≠ LF then ws else []) ++
        if c = EQUAL then
          match rest with
          | d :: e :: rest => strtoul16 [d, e] :: decoded specials [] rest
          | _ => []
        else if c = CR then
          match rest with
          | [] => []
          | _ :: rest => LF :: decoded specials [] rest
        else shown specials c :: decoded specials [] rest

example : decoded none [] (ascii "a=3Db \n") = ascii "a=b\n" := by decide +kernel

section
variable {specials : Option (List UInt8)}

variable {c : UInt8}

theorem decoded_white (white : ISWS c = true) (ws rest : List UInt8) :
    decoded specials ws (c :: rest) = decoded specials (ws ++ [c]) rest := by
  rw [decoded.eq_def]
  simp [white]

/-- White space goes out before what is neither white space nor the end of a line. -/
theorem decoded_visible (visible : ISWS c = false) (ws rest : List UInt8) :
    decoded specials ws (c :: rest) =
      (if c ≠ CR ∧ c ≠ LF then ws else []) ++ decoded specials [] (c :: rest) := by
  rw [decoded.eq_def, decoded.eq_def]
  simp [visible]

theorem decoded_char (visible : ISWS c = false) (notEQ : c ≠ EQUAL) (notCR : c ≠ CR) (rest : List UInt8) :
    decoded specials [] (c :: rest) = [shown specials c] ++ decoded specials [] rest := by
  rw [decoded.eq_def]
  simp [visible, notEQ, notCR]

theorem softBreak_char (notEQ : c ≠ EQUAL) (notCR : c ≠ CR) (rest : List UInt8) :
    softBreak (c :: rest) = softBreak rest := by
  rw [softBreak.eq_def]
  simp [notEQ, notCR]

theorem decoded_return (d : UInt8) (rest : List UInt8) :
    decoded specials [] (CR :: d :: rest) = [LF] ++ decoded specials [] rest := by
  rw [decoded.eq_def]
  simp [show ISWS CR = false by decide, show CR ≠ EQUAL by decide]

theorem decoded_escape (d e : UInt8) (rest : List UInt8) :
    decoded specials [] (EQUAL :: d :: e :: rest) = [strtoul16 [d, e]] ++ decoded specials [] rest := by
  rw [decoded.eq_def]
  simp [show ISWS EQUAL = false by decide]

private theorem softBreak_soft (rest : List UInt8) : softBreak (EQUAL :: LF :: rest) = true := by
  rw [softBreak.eq_def]
  simp

theorem softBreak_return (d : UInt8) (rest : List UInt8) : softBreak (CR :: d :: rest) = softBreak rest := by
  rw [softBreak.eq_def]
  simp [show CR ≠ EQUAL by decide]

theorem softBreak_escape (d e : UInt8) (rest : List UInt8) :
    softBreak (EQUAL :: d :: e :: rest) = (decide (d = LF ∨ d = CR ∧ e = LF) || softBreak rest) := by
  rw [softBreak.eq_def]
  by_cases newline : d = LF
  · simp [newline]
  · by_cases crlf : d = CR ∧ e = LF <;> simp [newline, crlf]

theorem decoded_append {left : List UInt8} (white : ∀ c ∈ left, ISWS c = true) (ws rest : List UInt8) :
    decoded specials ws (left ++ rest) = decoded specials (ws ++ left) rest := by
  induction left generalizing ws with
  | nil => simp
  | cons c left ih =>
    have later : ∀ d ∈ left, ISWS d = true := fun d mem => white d (List.mem_cons_of_mem c mem)
    rw [List.cons_append, decoded_white (white c List.mem_cons_self), ih later,
      List.append_assoc, List.singleton_append]

theorem softBreak_append {left : List UInt8} (white : ∀ c ∈ left, ISWS c = true) (rest : List UInt8) :
    softBreak (left ++ rest) = softBreak rest := by
  induction left with
  | nil => rfl
  | cons c left ih =>
    have here := white c List.mem_cons_self
    have notEQ : c ≠ EQUAL := by
      rintro rfl
      exact absurd here (by decide)
    have notCR : c ≠ CR := by
      rintro rfl
      exact absurd here (by decide)
    rw [List.cons_append, softBreak_char notEQ notCR]
    exact ih fun d mem => white d (List.mem_cons_of_mem c mem)

/-- Where the loop stops that has the data before it, with what comes behind the buffer: the data not consumed are a
    last part, what was stored makes up the rest, and the loop has used up the room or waits for more. -/
def Stops (specials : Option (List UInt8)) (isize osize : Nat) (data tail output : List UInt8)
    (result : Option (Nat × List UInt8 × List UInt8)) : Prop :=
  ∃ consumed ws left o, result = some (consumed, ws, output ++ o) ∧ consumed - ws.length = isize - left.length ∧
    left <:+ data ∧ softBreak (left ++ tail) = false ∧
    decoded specials [] (data ++ tail) = o ++ decoded specials [] (left ++ tail) ∧
    (osize ≤ (output ++ o).length ∨ decoded specials [] left = [])

variable {lastbuf : Bool} {isize osize consumed : Nat} {ws output tail : List UInt8}

theorem Stops.before {data data' o : List UInt8} {result : Option (Nat × List UInt8 × List UInt8)}
    (stops : Stops specials isize osize data' tail (output ++ o) result) (suffix : data' <:+ data)
    (stored : decoded specials [] (data ++ tail) = o ++ decoded specials [] (data' ++ tail)) :
    Stops specials isize osize data tail output result := by
  obtain ⟨consumed, ws, left, o', result, count, last, plain, account, ends⟩ := stops
  refine ⟨consumed, ws, left, o ++ o', ?_, count, last.trans suffix, plain, ?_, ?_⟩
  · rw [result, List.append_assoc]
  · rw [stored, account, List.append_assoc]
  · rwa [← List.append_assoc]

/-- The loop at a byte that is not white space, with white space held back: it goes on as if the white space had been
    stored, or dropped before the end of a line, unless the room is used up. -/
theorem loop_flush {rest : List UInt8} (visible : ISWS c = false) (more : consumed < isize)
    (room : output.length < osize) :
    qp_decode_loop specials lastbuf isize osize (c :: rest) consumed ws output =
      if c ≠ CR ∧ c ≠ LF ∧ osize - output.length < ws.length then
        some (consumed, ws.drop (osize - output.length), output ++ ws.take (osize - output.length))
      else if ws ≠ [] ∧ (output ++ if c ≠ CR ∧ c ≠ LF then ws else []).length = osize then
        some (consumed, [], output ++ if c ≠ CR ∧ c ≠ LF then ws else [])
      else qp_decode_loop specials lastbuf isize osize (c :: rest) consumed []
        (output ++ if c ≠ CR ∧ c ≠ LF then ws else []) := by
  have here : ¬ (isize ≤ consumed ∨ osize ≤ output.length) := by omega
  by_cases plain : c ≠ CR ∧ c ≠ LF
  · obtain ⟨notCR, notLF⟩ := plain
    simp only [notCR, notLF, if_true, true_and, ne_eq, not_false_eq_true, and_self, List.length_append]
    by_cases cut : osize - output.length < ws.length
    · rw [if_pos cut, qp_decode_loop.eq_def, if_neg here]
      simp [visible, notCR, notLF, Nat.min_eq_left (Nat.le_of_lt cut), cut]
    · have all : ws.take (osize - output.length) = ws := List.take_of_length_le (by omega)
      rw [if_neg cut]
      by_cases none : ws = []
      · simp [none]
      · by_cases full : output.length + ws.length = osize
        · rw [if_pos ⟨none, full⟩, qp_decode_loop.eq_def, if_neg here]
          simp [visible, notCR, notLF, all, none, full]
        · have going : ¬ (isize ≤ consumed ∨ osize ≤ (output ++ ws).length) := by
            rw [List.length_append]
            omega
          rw [if_neg (fun both => full both.2), qp_decode_loop.eq_def, if_neg here, qp_decode_loop.eq_def, if_neg going]
          simp [visible, notCR, notLF, all, full]
  · have dropped (n : Nat) : ¬ (c ≠ CR ∧ c ≠ LF ∧ n < ws.length) := fun all => plain ⟨all.1, all.2.1⟩
    have full : ¬ (ws ≠ [] ∧ output.length = osize) := fun both => by omega
    rw [if_neg (dropped _)]
    simp only [if_neg plain, List.append_nil, if_neg full]
    rw [qp_decode_loop.eq_def, if_neg here, qp_decode_loop.eq_def, if_neg here]
    simp only [visible, if_neg plain, List.take_zero, List.append_nil, if_neg (dropped _), if_neg full]
    simp

/-! The loop at a byte that is not white space, with nothing held back. -/

section
variable {d e : UInt8} {rest : List UInt8} (room : output.length < osize)
include room

theorem loop_char (visible : ISWS c = false) (notEQ : c ≠ EQUAL) (notCR : c ≠ CR) (more : consumed < isize) :
    qp_decode_loop specials lastbuf isize osize (c :: rest) consumed [] output =
      qp_decode_loop specials lastbuf isize osize rest (consumed + 1) [] (output ++ [shown specials c]) := by
  rw [qp_decode_loop.eq_def, if_neg (by omega)]
  simp only [visible, shown, notEQ, notCR]
  simp
  split_ifs <;> rfl

theorem loop_return (more : consumed + 1 < isize) :
    qp_decode_loop specials lastbuf isize osize (CR :: d :: rest) consumed [] output =
      qp_decode_loop specials lastbuf isize osize rest (consumed + 2) [] (output ++ [LF]) := by
  have visible : ISWS CR = false ∧ CR ≠ EQUAL := by decide
  rw [qp_decode_loop.eq_def, if_neg (by omega)]
  simp [visible]
  omega

private theorem loop_return_end (last : consumed + 1 = isize) :
    qp_decode_loop specials lastbuf isize osize (CR :: rest) consumed [] output =
      some (if lastbuf then consumed + 1 else consumed, [], output) := by
  have visible : ISWS CR = false ∧ CR ≠ EQUAL := by decide
  rw [qp_decode_loop.eq_def, if_neg (by omega)]
  simp [visible, last]

theorem loop_escape (notLF : d ≠ LF) (hard : ¬ (d = CR ∧ e = LF)) (more : consumed + 3 ≤ isize) :
    qp_decode_loop specials lastbuf isize osize (EQUAL :: d :: e :: rest) consumed [] output =
      qp_decode_loop specials lastbuf isize osize rest (consumed + 3) [] (output ++ [strtoul16 [d, e]]) := by
  have visible : ISWS EQUAL = false ∧ EQUAL ≠ CR := by decide
  rw [qp_decode_loop.eq_def, if_neg (by omega)]
  simp [visible, notLF]
  rw [if_neg (by omega), if_neg (by omega), if_neg hard]

theorem loop_escape_end (last : consumed + 1 = isize) :
    qp_decode_loop specials lastbuf isize osize (EQUAL :: rest) consumed [] output = some (consumed, [], output) := by
  have visible : ISWS EQUAL = false := by decide
  rw [qp_decode_loop.eq_def, if_neg (by omega)]
  simp [visible, last]

theorem loop_escape_half (notLF : d ≠ LF) (last : consumed + 2 = isize) :
    qp_decode_loop specials lastbuf isize osize (EQUAL :: d :: rest) consumed [] output = some (consumed, [], output) := by
  have visible : ISWS EQUAL = false := by decide
  rw [qp_decode_loop.eq_def, if_neg (by omega)]
  simp [visible, notLF, last]

theorem loop_soft (more : consumed + 1 < isize) :
    qp_decode_loop specials lastbuf isize osize (EQUAL :: LF :: rest) consumed [] output =
      qp_decode_loop specials lastbuf isize osize rest (consumed + 1) [] output := by
  have visible : ISWS EQUAL = false := by decide
  rw [qp_decode_loop.eq_def, if_neg (by omega)]
  simp [visible]
  omega

theorem loop_soft_crlf (more : consumed + 2 < isize) :
    qp_decode_loop specials lastbuf isize osize (EQUAL :: CR :: LF :: rest) consumed [] output =
      qp_decode_loop specials lastbuf isize osize rest (consumed + 2) [] output := by
  have visible : ISWS EQUAL = false ∧ CR ≠ LF := by decide
  rw [qp_decode_loop.eq_def, if_neg (by omega)]
  simp [visible]
  rw [if_neg (by omega), if_neg (by omega)]

end

theorem Stops.wait {consumed : Nat} {data : List UInt8} (count : consumed = isize - data.length)
    (plain : softBreak (data ++ tail) = false) (nothing : decoded specials [] data = []) :
    Stops specials isize osize data tail output (some (consumed, [], output)) :=
  ⟨consumed, [], data, [], by rw [List.append_nil], count, List.suffix_rfl, plain, rfl, .inr nothing⟩

theorem visible_stops {rest : List UInt8} (ends : lastbuf = true → tail = []) (visible : ISWS c = false)
    (later : ∀ (rest' : List UInt8) (consumed' : Nat) (output' : List UInt8), rest'.length < (c :: rest).length →
      consumed' + rest'.length = isize → softBreak (rest' ++ tail) = false →
      Stops specials isize osize rest' tail output'
        (qp_decode_loop specials lastbuf isize osize rest' consumed' [] output'))
    (whole : consumed + (c :: rest).length = isize) (plain : softBreak (c :: rest ++ tail) = false)
    (room : output.length < osize) :
    Stops specials isize osize (c :: rest) tail output
      (qp_decode_loop specials lastbuf isize osize (c :: rest) consumed [] output) := by
  rw [List.length_cons] at whole
  by_cases escape : c = EQUAL
  · subst escape
    cases rest with
    | nil =>
      rw [loop_escape_end room (by simpa using whole)]
      exact Stops.wait (by simp at whole ⊢; omega) plain rfl
    | cons d rest =>
      have notLF : d ≠ LF := by
        rintro rfl
        rw [List.cons_append, List.cons_append, softBreak_soft] at plain
        cases plain
      cases rest with
      | nil =>
        rw [loop_escape_half room notLF (by simpa using whole)]
        exact Stops.wait (by simp at whole ⊢; omega) plain rfl
      | cons e rest =>
        simp only [List.length_cons] at whole
        rw [List.cons_append, List.cons_append, List.cons_append, softBreak_escape, Bool.or_eq_false_iff,
          decide_eq_false_iff_not] at plain
        rw [loop_escape room notLF (fun crlf => plain.1 (.inr crlf)) (by omega)]
        refine (later rest _ _ (by simp; omega) (by omega) plain.2).before ?_ (decoded_escape d e _)
        exact (List.suffix_append [EQUAL, d, e] rest)
  · by_cases return' : c = CR
    · subst return'
      cases rest with
      | nil =>
        rw [loop_return_end room (by simpa using whole)]
        cases last : lastbuf with
        | false => exact Stops.wait (by simp at whole ⊢; omega) plain rfl
        | true =>
          refine ⟨consumed + 1, [], [], [], by simp, by simpa using whole, List.nil_suffix, ?_, ?_, .inr rfl⟩
          · rw [ends last]
            rfl
          · rw [ends last]
            rfl
      | cons d rest =>
        simp only [List.length_cons] at whole
        rw [List.cons_append, List.cons_append, softBreak_return] at plain
        rw [loop_return room (by omega)]
        exact (later rest _ _ (by simp) (by omega) plain).before (List.suffix_append [CR, d] rest) (decoded_return d _)
    · rw [loop_char room visible escape return' (by omega)]
      rw [List.cons_append, softBreak_char escape return'] at plain
      exact (later rest _ _ (by simp) (by omega) plain).before (List.suffix_cons c rest)
        (decoded_char visible escape return' _)

/-- What the loop stops with, whatever the room, when there is no soft line break. -/
theorem loop_stops (specials : Option (List UInt8)) (osize : Nat) (ends : lastbuf = true → tail = [])
    (input : List UInt8) (consumed : Nat) (ws output : List UInt8)
    (whole : consumed + input.length = isize) (held : ws.length ≤ consumed) (white : ∀ c ∈ ws, ISWS c = true)
    (plain : softBreak (input ++ tail) = false) :
    Stops specials isize osize (ws ++ input) tail output
      (qp_decode_loop specials lastbuf isize osize input consumed ws output) := by
  induction size : input.length using Nat.strong_induction_on generalizing input consumed ws output with
  | _ n ih =>
  by_cases stop : isize ≤ consumed ∨ osize ≤ output.length
  · refine ⟨consumed, ws, ws ++ input, [], ?_, ?_, List.suffix_rfl, ?_, rfl, ?_⟩
    · rw [qp_decode_loop.eq_def, if_pos stop, List.append_nil]
    · rw [List.length_append]
      omega
    · rwa [List.append_assoc, softBreak_append white]
    · rcases stop with done | full
      · obtain rfl : input = [] := List.eq_nil_of_length_eq_zero (by omega)
        right
        rw [decoded_append white]
        rfl
      · left
        simpa using full
  · cases input with
    | nil => simp at whole; omega
    | cons c rest =>
      by_cases space : ISWS c = true
      · have clean : ∀ d ∈ ws ++ [c], ISWS d = true := by
          intro d mem
          rcases List.mem_append.mp mem with mem | mem
          · exact white d mem
          · rwa [List.mem_singleton.mp mem]
        have skipped : softBreak (c :: (rest ++ tail)) = softBreak (rest ++ tail) :=
          softBreak_append (show ∀ d ∈ [c], ISWS d = true by simpa using space) (rest ++ tail)
        have next := ih rest.length (by simp at size; omega) rest (consumed + 1) (ws ++ [c]) output
          (by simp at whole; omega) (by simpa using held) clean (skipped ▸ plain) rfl
        rw [qp_decode_loop.eq_def, if_neg stop]
        simpa only [space, if_true, List.append_assoc, List.singleton_append] using next
      · have visible : ISWS c = false := by simpa using space
        have stored : decoded specials [] (ws ++ c :: rest ++ tail) =
            (if c ≠ CR ∧ c ≠ LF then ws else []) ++ decoded specials [] (c :: rest ++ tail) := by
          rw [List.append_assoc, decoded_append white, List.cons_append, decoded_visible visible, List.nil_append]
        rw [loop_flush visible (by omega) (by omega)]
        by_cases cut : c ≠ CR ∧ c ≠ LF ∧ osize - output.length < ws.length
        · -- a part of the white space fits in
          have rest' : ∀ d ∈ ws.drop (osize - output.length), ISWS d = true :=
            fun d mem => white d (List.mem_of_mem_drop mem)
          rw [if_pos cut]
          refine ⟨consumed, _, ws.drop (osize - output.length) ++ c :: rest, _, rfl, ?_, ?_, ?_, ?_, .inl ?_⟩
          · simp only [List.length_append, List.length_drop]
            omega
          · exact ⟨ws.take (osize - output.length), by rw [← List.append_assoc, List.take_append_drop]⟩
          · rwa [List.append_assoc, softBreak_append rest']
          · rw [stored, if_pos ⟨cut.1, cut.2.1⟩, List.append_assoc, decoded_append rest', List.nil_append,
              List.cons_append, decoded_visible visible (ws.drop _), if_pos ⟨cut.1, cut.2.1⟩, ← List.append_assoc,
              List.take_append_drop]
          · simp only [List.length_append, List.length_take]
            omega
        · rw [if_neg cut]
          by_cases full : ws ≠ [] ∧ (output ++ if c ≠ CR ∧ c ≠ LF then ws else []).length = osize
          · rw [if_pos full]
            refine ⟨consumed, [], c :: rest, _, rfl, ?_, List.suffix_append _ _, plain, stored, .inl full.2.ge⟩
            simp at whole ⊢
            omega
          · rw [if_neg full]
            refine (visible_stops ends visible ?_ whole plain ?_).before (List.suffix_append _ _) stored
            · intro rest' consumed' output' less whole' plain'
              exact ih rest'.length (by omega) rest' consumed' [] output' whole' (by simp) (by simp) plain' rfl
            · by_cases none : ws = []
              · simp [none]
                omega
              · by_cases keep : c ≠ CR ∧ c ≠ LF
                · have fits : ¬ osize - output.length < ws.length := fun short => cut ⟨keep.1, keep.2, short⟩
                  rw [if_pos keep, List.length_append] at full ⊢
                  have notFull : ¬ output.length + ws.length = osize := fun same => full ⟨none, same⟩
                  omega
                · rw [if_neg keep, List.append_nil]
                  omega

/-- A text with a soft line break has a part, ending in the first one, behind which the loop reads on. -/
theorem loop_overruns (specials : Option (List UInt8)) (lastbuf : Bool) (osize : Nat) (input : List UInt8)
    (consumed : Nat) (ws output : List UInt8) (soft : softBreak input = true)
    (room : output.length + ws.length + input.length ≤ osize) :
    ∃ k, k ≤ input.length ∧
      qp_decode_loop specials lastbuf (consumed + k) osize (input.take k) consumed ws output = none := by
  induction size : input.length using Nat.strong_induction_on generalizing input consumed ws output with
  | _ n ih =>
  cases input with
  | nil => cases soft
  | cons c rest =>
    rw [List.length_cons] at room size
    by_cases space : ISWS c = true
    · have skipped : softBreak (c :: rest) = softBreak rest :=
        softBreak_append (show ∀ d ∈ [c], ISWS d = true by simpa using space) rest
      obtain ⟨k, bound, none⟩ := ih rest.length (by omega) rest (consumed + 1) (ws ++ [c]) output (skipped ▸ soft)
        (by simp; omega) rfl
      refine ⟨k + 1, by omega, ?_⟩
      rw [List.take_succ_cons, qp_decode_loop.eq_def, if_neg (by omega)]
      simpa only [space, if_true, Nat.add_assoc, Nat.add_comm 1] using none
    · have visible : ISWS c = false := by simpa using space
      obtain ⟨kept, short, flush⟩ : ∃ kept : List UInt8, kept.length ≤ ws.length ∧ ∀ k rest',
          qp_decode_loop specials lastbuf (consumed + (k + 1)) osize (c :: rest') consumed ws output =
            qp_decode_loop specials lastbuf (consumed + (k + 1)) osize (c :: rest') consumed [] (output ++ kept) := by
        refine ⟨if c ≠ CR ∧ c ≠ LF then ws else [], by split <;> simp, fun k rest' => ?_⟩
        rw [loop_flush visible (by omega) (by omega), if_neg (by omega), if_neg]
        rintro ⟨_, full⟩
        split at full <;> simp at full <;> omega
      have room' : (output ++ kept).length < osize := by
        rw [List.length_append]
        omega
      have onward (rest' : List UInt8) (j : Nat) (b : UInt8) (less : rest'.length < n) (soft : softBreak rest' = true) :
          ∃ k, k ≤ rest'.length ∧ qp_decode_loop specials lastbuf (consumed + (k + j)) osize (rest'.take k)
            (consumed + j) [] (output ++ kept ++ [b]) = none := by
        obtain ⟨k, bound, none⟩ := ih rest'.length less rest' (consumed + j) [] (output ++ kept ++ [b]) soft (by
          simp
          omega) rfl
        exact ⟨k, bound, by rwa [Nat.add_comm k, ← Nat.add_assoc]⟩
      by_cases escape : c = EQUAL
      · subst escape
        cases rest with
        | nil => cases soft
        | cons d rest =>
          by_cases newline : d = LF
          · subst newline
            refine ⟨2, by simp at size; omega, ?_⟩
            rw [List.take_succ_cons, flush, List.take_succ_cons, loop_soft room' (by omega), List.take_zero,
              qp_decode_loop.eq_def, if_neg (by omega)]
          · cases rest with
            | nil =>
              rw [softBreak.eq_def] at soft
              simp [newline] at soft
            | cons e rest =>
              simp only [List.length_cons] at room size
              rw [softBreak_escape, Bool.or_eq_true, decide_eq_true_eq] at soft
              by_cases crlf : d = CR ∧ e = LF
              · obtain ⟨rfl, rfl⟩ := crlf
                refine ⟨3, by omega, ?_⟩
                rw [List.take_succ_cons, flush, List.take_succ_cons, List.take_succ_cons,
                  loop_soft_crlf room' (by omega), List.take_zero, qp_decode_loop.eq_def, if_neg (by omega)]
              · have soft := soft.resolve_left fun either => either.elim newline crlf
                obtain ⟨k, bound, none⟩ := onward rest 3 (strtoul16 [d, e]) (by omega) soft
                refine ⟨k + 3, by omega, ?_⟩
                rw [List.take_succ_cons, flush, List.take_succ_cons, List.take_succ_cons,
                  loop_escape room' newline crlf (by omega)]
                exact none
      · by_cases return' : c = CR
        · subst return'
          cases rest with
          | nil => cases soft
          | cons d rest =>
            rw [softBreak_return] at soft
            rw [List.length_cons] at size
            obtain ⟨k, bound, none⟩ := onward rest 2 LF (by omega) soft
            refine ⟨k + 2, by omega, ?_⟩
            rw [List.take_succ_cons, flush, List.take_succ_cons, loop_return room' (by omega)]
            exact none
        · rw [softBreak_char escape return'] at soft
          obtain ⟨k, bound, none⟩ := onward rest 1 (shown specials c) (by omega) soft
          refine ⟨k + 1, by omega, ?_⟩
          rw [List.take_succ_cons, flush, loop_char room' visible escape return' (by omega)]
          exact none

/-- The decoder as the driver sees it: a call that reads behind its buffer counts as failed. -/
def qp_decoder : Xcode (Option (List UInt8)) := fun specials cmd input osize =>
  (_qp_decoder specials cmd input osize).getD ⟨.failure, specials, 0, 0, [], false⟩

/-- What a single call on a text writes. -/
def alone (specials : Option (List UInt8)) (x : List UInt8) (room : Nat) : List UInt8 :=
  (qp_decoder specials .lastbuf x room).written

/-- A call reads no byte behind its buffer, and the bytes it gives back are those for which it has written nothing. -/
def Inside (specials : Option (List UInt8)) (pending : List UInt8) (o : Offer) : Prop :=
  ∃ reply, _qp_decoder specials o.command (o.portion pending) o.room = some reply ∧
    reply.isize ≤ (o.portion pending).length ∧
    alone specials pending pending.length =
      reply.written ++ alone specials (pending.drop reply.isize) (pending.drop reply.isize).length

/-- The decoder does not depend on the buffers: every call stays inside, and the calls write together what a single
    call on the whole text writes. -/
structure BufferIndependent (specials : Option (List UInt8)) (x : List UInt8) : Prop where
  inside : ∀ (schedule : List Offer) (o : Offer), (∀ o' ∈ schedule, 1 ≤ o'.room) → 1 ≤ o.room →
    Inside specials (drive qp_decoder specials x schedule).pending o
  output : ∃ calls, ∀ (schedule : List Offer) (room : Nat), (∀ o ∈ schedule, 1 ≤ o.room) → x.length ≤ room →
    (drive qp_decoder specials x schedule).output <+: alone specials x room ∧
      (calls < schedule.countP (·.last) → (drive qp_decoder specials x schedule).output = alone specials x room)

theorem decoded_length (specials : Option (List UInt8)) (ws x : List UInt8) :
    (decoded specials ws x).length ≤ ws.length + x.length := by
  induction size : x.length using Nat.strong_induction_on generalizing x ws with
  | _ n ih =>
  cases x with
  | nil => exact Nat.zero_le _
  | cons c rest =>
    rw [List.length_cons] at size
    have later (rest' : List UInt8) (less : rest'.length < n) : (decoded specials [] rest').length ≤ rest'.length := by
      simpa using ih rest'.length less [] rest' rfl
    by_cases space : ISWS c = true
    · rw [decoded_white space]
      have next := ih rest.length (by omega) (ws ++ [c]) rest rfl
      rw [List.length_append, List.length_singleton] at next
      omega
    · have visible : ISWS c = false := by simpa using space
      have here : (decoded specials [] (c :: rest)).length ≤ n := by
        by_cases escape : c = EQUAL
        · subst escape
          cases rest with
          | nil => exact Nat.zero_le _
          | cons d rest =>
            cases rest with
            | nil => exact Nat.zero_le _
            | cons e rest =>
              simp only [List.length_cons] at size
              have := later rest (by omega)
              rw [decoded_escape, List.length_append, List.length_singleton]
              omega
        · by_cases return' : c = CR
          · subst return'
            cases rest with
            | nil => exact Nat.zero_le _
            | cons d rest =>
              rw [List.length_cons] at size
              have := later rest (by omega)
              rw [decoded_return, List.length_append, List.length_singleton]
              omega
          · have := later rest (by omega)
            rw [decoded_char visible escape return', List.length_append, List.length_singleton]
            omega
      rw [decoded_visible visible, List.length_append]
      split
      · omega
      · rw [List.length_nil]
        omega

theorem decoder_stops (specials : Option (List UInt8)) {cmd : Command} (runs : cmd = .lastbuf ∨ cmd = .xcode)
    (input : List UInt8) (ends : cmd = .lastbuf → tail = []) (plain : softBreak (input ++ tail) = false) (osize : Nat) :
    ∃ left o, _qp_decoder specials cmd input osize =
        some ⟨.ok, specials, input.length - left.length, o.length, o, false⟩ ∧ left <:+ input ∧
      softBreak (left ++ tail) = false ∧
      decoded specials [] (input ++ tail) = o ++ decoded specials [] (left ++ tail) ∧
      (osize ≤ o.length ∨ decoded specials [] left = []) := by
  have ends' : decide (cmd = .lastbuf) = true → tail = [] := fun last => ends (by simpa using last)
  obtain ⟨consumed, ws, left, o, loop, count, suffix, plain', account, stops⟩ :=
    loop_stops specials osize ends' input 0 [] [] (Nat.zero_add _) (Nat.le_refl 0) (by simp) plain
  rw [List.nil_append] at loop suffix account stops
  refine ⟨left, o, ?_, suffix, plain', account, stops⟩
  have reply : _qp_decoder specials cmd input osize =
      (qp_decode_loop specials (decide (cmd = .lastbuf)) input.length osize input 0 [] []).map fun stop =>
        ⟨.ok, specials, stop.1 - stop.2.1.length, stop.2.2.length, stop.2.2, false⟩ := by
    rcases runs with rfl | rfl <;> rfl
  rw [reply, loop, ← count]
  rfl

theorem alone_eq {x : List UInt8} (plain : softBreak x = false) {room : Nat} (enough : x.length ≤ room) :
    alone specials x room = decoded specials [] x := by
  obtain ⟨left, o, reply, suffix, _, account, stops⟩ :=
    decoder_stops specials (.inl rfl) x (fun _ => rfl) (show softBreak (x ++ []) = false by rwa [List.append_nil]) room
  rw [List.append_nil, List.append_nil] at account
  have nothing : decoded specials [] left = [] := by
    rcases stops with full | nothing
    · have size := congrArg List.length account
      have short := decoded_length specials [] x
      rw [List.length_append] at size
      rw [List.length_nil, Nat.zero_add] at short
      exact List.eq_nil_of_length_eq_zero (by omega)
    · exact nothing
  rw [account, nothing, List.append_nil]
  simp [alone, qp_decoder, reply]

theorem calls_account (specials : Option (List UInt8)) (state : Option (List UInt8)) (pending : List UInt8) (o : Offer)
    (good : state = specials ∧ softBreak pending = false) (_ : 1 ≤ o.room) :
    (qp_decoder state o.command (o.portion pending) o.room).Accounts (fun _ p => decoded specials [] p)
      (fun state p => state = specials ∧ softBreak p = false) state pending := by
  obtain ⟨rfl, plain⟩ := good
  obtain ⟨tail, split, last⟩ := portion_append o pending
  obtain ⟨left, out, reply, suffix, plain', account, _⟩ := decoder_stops state o.command_cases (o.portion pending)
    (fun ends => last (by simpa using ends)) (split ▸ plain) o.room
  rw [qp_decoder, reply, Option.getD_some]
  refine ⟨⟨rfl, ?_⟩, ?_⟩
  · rwa [drop_unread split suffix]
  · rw [written_all, drop_unread split suffix, ← account, ← split]

theorem calls_settle (specials : Option (List UInt8)) (state : Option (List UInt8)) (pending : List UInt8) (o : Offer)
    (good : state = specials ∧ softBreak pending = false) (room : 1 ≤ o.room) (last : o.last = true)
    (more : decoded specials [] pending ≠ []) :
    (qp_decoder state o.command (o.portion pending) o.room).result = .ok ∧
      ((qp_decoder state o.command (o.portion pending) o.room).written ≠ [] ∨
        0 < (qp_decoder state o.command (o.portion pending) o.room).isize) := by
  obtain ⟨rfl, plain⟩ := good
  have all : o.portion pending = pending := by simp [Offer.portion, last]
  obtain ⟨left, out, reply, _, _, account, stops⟩ := decoder_stops state o.command_cases pending
    (fun _ => rfl) (show softBreak (pending ++ []) = false by rwa [List.append_nil]) o.room
  rw [all, qp_decoder, reply, Option.getD_some]
  refine ⟨rfl, .inl ?_⟩
  rw [written_all]
  rintro rfl
  rw [List.append_nil, List.append_nil, List.nil_append] at account
  rcases stops with full | nothing
  · simp at full
    omega
  · exact more (account.trans nothing)

/-- The decoder does not depend on the buffers exactly when it meets no soft line break. -/
theorem qp_buffers_iff (specials : Option (List UInt8)) (x : List UInt8) :
    BufferIndependent specials x ↔ softBreak x = false := by
  constructor
  · intro independent
    by_contra soft
    rw [Bool.not_eq_false] at soft
    obtain ⟨k, bound, overrun⟩ := loop_overruns specials false x.length x 0 [] [] soft (by simp)
    have some : 1 ≤ x.length := by
      rw [Nat.one_le_iff_ne_zero, ne_eq, List.length_eq_zero_iff]
      rintro rfl
      cases soft
    -- the first call gets the text up to that line break
    obtain ⟨reply, called, _⟩ := independent.inside [] ⟨k, false, x.length⟩ (by simp) some
    have none : _qp_decoder specials .xcode (x.take k) x.length = none := by
      rw [Nat.zero_add] at overrun
      simp [_qp_decoder, Nat.min_eq_left bound, overrun]
    exact absurd (none.symm.trans called) (by simp)
  · intro plain
    have start : specials = specials ∧ softBreak x = false := ⟨rfl, plain⟩
    refine ⟨?_, (Session.start specials x).work fun _ p => decoded specials [] p, ?_⟩
    · intro schedule o rooms room
      obtain ⟨-, clean⟩ := (drive_sound (calls_account specials) schedule rooms start).good
      generalize (drive qp_decoder specials x schedule).pending = pending at clean ⊢
      obtain ⟨tail, split, last⟩ := portion_append o pending
      obtain ⟨left, out, reply, suffix, plain', account, _⟩ := decoder_stops specials o.command_cases
        (o.portion pending) (fun ends => last (by simpa using ends)) (split ▸ clean) o.room
      refine ⟨_, reply, Nat.sub_le _ _, ?_⟩
      rw [drop_unread split suffix, alone_eq clean (Nat.le_refl _), alone_eq plain' (Nat.le_refl _), written_all,
        ← account, ← split]
    · intro schedule room rooms enough
      have sound := drive_sound (calls_account specials) schedule rooms start
      rw [alone_eq plain enough]
      refine ⟨⟨_, sound.account.symm⟩, fun calls => ?_⟩
      exact drive_settles (calls_account specials) (fun _ _ => rfl) (calls_settle specials) schedule rooms start calls

end

/-- A buffer that ends in a soft line break is read past its end; and when the room is used up behind a soft line
    break, the byte just written is given back. -/
theorem soft_break_overrun :
    _qp_decoder none .xcode ((Offer.mk 3 false 9).portion (ascii "a=\nb")) 9 = none ∧
      _qp_decoder none .lastbuf (ascii "a=\nb") 9 = none ∧
      _qp_decoder none .xcode (ascii "=\nab") 1 = some ⟨.ok, none, 2, 1, ascii "a", false⟩ := by
  decide +kernel

end Mailutils.Qp

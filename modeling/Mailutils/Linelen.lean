import Mailutils.FilterRuns
import Mailutils.Lines
import Mailutils.Text

/-!
The filter that limits the length of lines (`libmailutils/filter/linelenflt.c`). A newline is put behind a line as soon
as the line has reached the limit, whatever follows, and it is left out when it does not fit into the output buffer.
So lines that are just as long as the limit are changed, longer ones may stay as they are, and what holds for every
cutting holds for the texts all of whose lines are shorter than the limit (`linelen_iff`).
-/
namespace Mailutils.Linelen
open Mailutils.Transducer Mailutils.Filter Mailutils.Lines

/-- `struct _mu_linelen_filter` -/
structure Flt where
  max_len : Nat
  cur_len : Nat := 0
  deriving DecidableEq, Repr

/-- `alloc_state`, with the arguments behind the filter's name. -/
def alloc_state : List (List UInt8) → Option Flt
  | [] => some { max_len := 76 }
  | arg :: _ => if (Text.strtoul arg).2 = [] then some { max_len := (Text.strtoul arg).1 } else none

/-- How much of the input belongs to the line, and whether a newline ends it there. -/
def ll_len (flt : Flt) (input : List UInt8) : Nat × Bool :=
  let len := min input.length (flt.max_len - flt.cur_len)
  if LF ∈ input.take len then ((input.take len).idxOf LF + 1, true) else (len, false)

/-- The loop of `_ll_encoder`, with the input that is left. Every round writes something, so that there are at most as
    many as there is room for bytes. -/
def ll_loop (osize : Nat) : Nat → Flt → List UInt8 → List UInt8 → Flt × List UInt8 × List UInt8
  | 0, flt, input, output => (flt, input, output)
  | rounds + 1, flt, input, output =>
    if input = [] ∨ osize ≤ output.length then (flt, input, output)
    else
      let rest := osize - output.length
      let len := min (ll_len flt input).1 rest
      let p := (ll_len flt input).2 && decide ((ll_len flt input).1 ≤ rest)
      let output := output ++ input.take len
      if p then ll_loop osize rounds { flt with cur_len := 0 } (input.drop len) output
      else if flt.cur_len + len = flt.max_len then
        ll_loop osize rounds { flt with cur_len := 0 } (input.drop len)
          (if output.length < osize then output ++ [LF] else output)
      else ll_loop osize rounds { flt with cur_len := flt.cur_len + len } (input.drop len) output

def _ll_encoder : Xcode Flt := fun flt cmd input osize =>
  match cmd with
  | .init => ⟨.ok, { flt with cur_len := 0 }, input.length, osize, [], false⟩
  | .done => ⟨.ok, flt, input.length, osize, [], false⟩
  | _ =>
    let (flt, left, output) := ll_loop osize osize flt input []
    ⟨.ok, flt, input.length - left.length, output.length, output, false⟩

section
variable {osize rounds max_len cur_len : Nat} {output : List UInt8}

theorem round_line {line : List UInt8} (clean : LF ∉ line) (more : List UInt8) (short : cur_len + line.length < max_len)
    (room : output.length + line.length < osize) :
    ll_loop osize (rounds + 1) ⟨max_len, cur_len⟩ (line ++ LF :: more) output =
      ll_loop osize rounds ⟨max_len, 0⟩ more (output ++ (line ++ [LF])) := by
  have within : line.length + 1 ≤ min (line ++ LF :: more).length (max_len - cur_len) := by
    simp only [List.length_append, List.length_cons]
    omega
  obtain ⟨k, len⟩ := Nat.exists_eq_add_of_le within
  have taken : (line ++ LF :: more).take (min (line ++ LF :: more).length (max_len - cur_len)) =
      line ++ LF :: more.take k := by
    rw [len, Nat.add_assoc, List.take_length_add_append, Nat.add_comm 1 k, List.take_succ_cons]
  have found : ll_len ⟨max_len, cur_len⟩ (line ++ LF :: more) = (line.length + 1, true) := by
    simp only [ll_len, taken]
    rw [if_pos (by simp), List.idxOf_append_of_notMem clean, List.idxOf_cons_self]
  have fits : min (line.length + 1) (osize - output.length) = line.length + 1 := by omega
  have copied : (line ++ LF :: more).take (line.length + 1) = line ++ [LF] := by
    rw [List.take_length_add_append]
    rfl
  have left : (line ++ LF :: more).drop (line.length + 1) = more := by
    rw [List.drop_length_add_append]
    rfl
  rw [ll_loop, if_neg (by simp; omega), found]
  simp only [fits, copied, left]
  exact if_pos (by simp; omega)

theorem round_part {part : List UInt8} (clean : LF ∉ part) (some : part ≠ []) (more : List UInt8)
    (short : cur_len + part.length ≤ max_len) (room : output.length + part.length ≤ osize)
    (ends : cur_len + part.length = max_len ∨ output.length + part.length = osize ∨ more = []) :
    ll_loop osize (rounds + 1) ⟨max_len, cur_len⟩ (part ++ more) output =
      if cur_len + part.length = max_len then
        ll_loop osize rounds ⟨max_len, 0⟩ more
          (if (output ++ part).length < osize then output ++ part ++ [LF] else output ++ part)
      else ll_loop osize rounds ⟨max_len, cur_len + part.length⟩ more (output ++ part) := by
  have positive := List.length_pos_iff.mpr some
  have copied : (part ++ more).take part.length = part := List.take_left
  have left : (part ++ more).drop part.length = more := List.drop_left
  -- the length before the room is looked at, and that a newline does not fit
  obtain ⟨len, p, found, fits, stays⟩ : ∃ len p, ll_len ⟨max_len, cur_len⟩ (part ++ more) = (len, p) ∧
      min len (osize - output.length) = part.length ∧ (p && decide (len ≤ osize - output.length)) = false := by
    obtain ⟨k, len⟩ : ∃ k, min (part ++ more).length (max_len - cur_len) = part.length + k := by
      refine Nat.exists_eq_add_of_le ?_
      rw [List.length_append]
      omega
    have bound : part.length + k ≤ max_len - cur_len ∧ part.length + k ≤ part.length + more.length := by
      rw [← len, List.length_append]
      omega
    have taken : (part ++ more).take (part.length + k) = part ++ more.take k := List.take_length_add_append k
    simp only [ll_len, len, taken]
    by_cases newline : LF ∈ part ++ more.take k
    · have behind : LF ∈ more.take k := (List.mem_append.mp newline).resolve_left clean
      have further : k ≠ 0 ∧ more ≠ [] := by
        constructor
        · rintro rfl
          simp at behind
        · rintro rfl
          simp at behind
      have full : output.length + part.length = osize := by
        rcases ends with limit | full | none
        · omega
        · exact full
        · exact absurd none further.2
      refine ⟨_, _, if_pos newline, ?_, ?_⟩
      · rw [List.idxOf_append_of_notMem clean]
        omega
      · rw [List.idxOf_append_of_notMem clean]
        simp
        omega
    · refine ⟨_, _, if_neg newline, ?_, rfl⟩
      rcases ends with limit | full | rfl
      · omega
      · omega
      · rw [List.length_nil] at bound
        omega
  rw [ll_loop, if_neg (by simp [some]; omega), found]
  simp only [fits, stays, copied, left]
  rfl

/-- The lines are shorter than the limit; the first one has some characters already. -/
def Short (max_len cur_len : Nat) (x : List UInt8) : Prop :=
  ∀ first others, x.splitOn LF = first :: others → cur_len + first.length < max_len ∧ ∀ l ∈ others, l.length < max_len

theorem short_last {line : List UInt8} (clean : LF ∉ line) :
    Short max_len cur_len line ↔ cur_len + line.length < max_len := by
  rw [Short, splitOn_last clean]
  simp

theorem short_zero {x : List UInt8} : Short max_len 0 x ↔ ∀ line ∈ x.splitOn LF, line.length < max_len := by
  obtain ⟨first, others, split⟩ := List.exists_cons_of_ne_nil (@splitOn_ne_nil _ _ LF x)
  rw [Short, split]
  simp

theorem short_next {line : List UInt8} (clean : LF ∉ line) (rest : List UInt8) :
    Short max_len cur_len (line ++ LF :: rest) ↔ cur_len + line.length < max_len ∧ Short max_len 0 rest := by
  rw [short_zero, Short, splitOn_next clean]
  simp

private theorem short_part {part : List UInt8} (clean : LF ∉ part) (more : List UInt8) :
    Short max_len cur_len (part ++ more) ↔ Short max_len (cur_len + part.length) more := by
  rcases line_cases LF more with whole | ⟨line, rest, cleanLine, rfl⟩
  · rw [short_last whole, short_last (by simp [clean, whole]), List.length_append, Nat.add_assoc]
  · have clean' : LF ∉ part ++ line := by simp [clean, cleanLine]
    rw [← List.append_assoc, short_next clean', short_next cleanLine, List.length_append, Nat.add_assoc]

private theorem short_lt {x : List UInt8} (short : Short max_len cur_len x) : cur_len < max_len := by
  obtain ⟨first, others, split⟩ := List.exists_cons_of_ne_nil (@splitOn_ne_nil _ _ LF x)
  have := (short first others split).1
  omega

theorem loop_stops {flt : Flt} {input : List UInt8} (stops : input = [] ∨ osize ≤ output.length) :
    ll_loop osize rounds flt input output = (flt, input, output) := by
  cases rounds with
  | zero => rfl
  | succ rounds => rw [ll_loop, if_pos stops]

theorem part_cases (input : List UInt8) (nonempty : input ≠ []) {room : Nat} (positive : 0 < room) :
    (∃ line more, LF ∉ line ∧ line.length < room ∧ input = line ++ LF :: more) ∨
      ∃ part more, LF ∉ part ∧ part ≠ [] ∧ part.length ≤ room ∧ input = part ++ more ∧
        (part.length = room ∨ more = []) := by
  have cut (line : List UInt8) (clean : LF ∉ line) (long : room ≤ line.length) (rest : List UInt8) :
      ∃ part more, LF ∉ part ∧ part ≠ [] ∧ part.length ≤ room ∧ line ++ rest = part ++ more ∧
        (part.length = room ∨ more = []) := by
    have taken : (line.take room).length = room := by
      rw [List.length_take]
      omega
    refine ⟨line.take room, line.drop room ++ rest, fun here => clean (List.mem_of_mem_take here), ?_,
      Nat.le_of_eq taken, ?_, .inl taken⟩
    · rw [← List.length_pos_iff, taken]
      exact positive
    · rw [← List.append_assoc, List.take_append_drop]
  rcases line_cases LF input with whole | ⟨line, rest, clean, rfl⟩
  · right
    by_cases fits : input.length ≤ room
    · exact ⟨input, [], whole, nonempty, fits, (List.append_nil _).symm, .inr rfl⟩
    · have parts := cut input whole (by omega) []
      rwa [List.append_nil] at parts
  · by_cases fits : line.length < room
    · exact .inl ⟨line, rest, clean, fits, rfl⟩
    · exact .inr (cut line clean (by omega) (LF :: rest))

theorem loop_short (tail input : List UInt8) (enough : osize ≤ output.length + rounds)
    (short : Short max_len cur_len (input ++ tail)) :
    ∃ cur left copied, ll_loop osize rounds ⟨max_len, cur_len⟩ input output = (⟨max_len, cur⟩, left, output ++ copied) ∧
      input = copied ++ left ∧ Short max_len cur (left ++ tail) ∧
      (left = [] ∨ osize ≤ (output ++ copied).length) := by
  induction rounds generalizing cur_len input output with
  | zero => exact ⟨cur_len, input, [], by simp [ll_loop], rfl, short, .inr (by simpa using enough)⟩
  | succ rounds ih =>
    by_cases stops : input = [] ∨ osize ≤ output.length
    · exact ⟨cur_len, input, [], by simp [loop_stops stops], rfl, short, by simpa using stops⟩
    · obtain ⟨nonempty, room⟩ := not_or.mp stops
      rcases part_cases input nonempty (Nat.sub_pos_of_lt (Nat.not_le.mp room)) with
        ⟨line, more, clean, fits, rfl⟩ | ⟨part, more, clean, some, fits, rfl, ends⟩
      · rw [List.append_assoc, List.cons_append, short_next clean] at short
        rw [round_line clean more short.1 (by omega)]
        have enough' : osize ≤ (output ++ (line ++ [LF])).length + rounds := by
          simp only [List.length_append, List.length_singleton]
          omega
        obtain ⟨cur, left, copied, loop, split, short', ends⟩ := ih more enough' short.2
        refine ⟨cur, left, line ++ [LF] ++ copied, by rw [loop, List.append_assoc], by simp [split], short', ?_⟩
        simpa only [List.append_assoc] using ends
      · rw [List.append_assoc, short_part clean] at short
        have less := short_lt short
        have positive := List.length_pos_iff.mpr some
        rw [round_part clean some more (by omega) (by omega) (.inr (ends.imp_left fun full => by omega)),
          if_neg (by omega)]
        have enough' : osize ≤ (output ++ part).length + rounds := by
          rw [List.length_append]
          omega
        obtain ⟨cur, left, copied, loop, split, short', ends⟩ := ih more enough' short
        refine ⟨cur, left, part ++ copied, by rw [loop, List.append_assoc], by simp [split], short', ?_⟩
        simpa only [List.append_assoc] using ends
end

theorem encoder_calls (flt : Flt) {cmd : Command} (runs : cmd = .lastbuf ∨ cmd = .xcode) (input : List UInt8)
    (osize : Nat) : _ll_encoder flt cmd input osize = ⟨.ok, (ll_loop osize osize flt input []).1,
      input.length - (ll_loop osize osize flt input []).2.1.length, (ll_loop osize osize flt input []).2.2.length,
      (ll_loop osize osize flt input []).2.2, false⟩ := by
  rcases runs with rfl | rfl <;> rfl

theorem encoder_short {max_len : Nat} {x : List UInt8} (short : Short max_len 0 x) :
    Yields _ll_encoder ⟨max_len, 0⟩ 1 (·.last) x x := by
  refine yields_of_kept (fun _ p => p) (fun flt p => flt.max_len = max_len ∧ Short max_len flt.cur_len p)
    (fun flt input room => ll_loop room room flt input [])
    (fun flt o input => encoder_calls flt o.command_cases input o.room) ?_ (fun _ _ => rfl) ⟨rfl, short⟩
  rintro tail ⟨_, cur_len⟩ input room ⟨rfl, short⟩
  obtain ⟨cur, left, copied, loop, parts, short', ends⟩ :=
    @loop_short room room _ cur_len [] tail input (by simp) short
  rw [loop]
  exact ⟨copied, ⟨copied, parts.symm⟩, ⟨rfl, short'⟩, rfl, by rw [← List.append_assoc, ← parts], ends⟩

theorem encoder_one {max_len cur_len : Nat} (less : cur_len < max_len) (c : UInt8) (rest : List UInt8) :
    ∃ cur, cur < max_len ∧
      _ll_encoder ⟨max_len, cur_len⟩ .lastbuf (c :: rest) 1 = ⟨.ok, ⟨max_len, cur⟩, 1, [c].length, [c], false⟩ := by
  rw [encoder_calls _ (.inl rfl)]
  have one (cur : Nat) (left : ll_loop 1 1 ⟨max_len, cur_len⟩ (c :: rest) [] = (⟨max_len, cur⟩, rest, [c])) :
      Reply.mk .ok (ll_loop 1 1 ⟨max_len, cur_len⟩ (c :: rest) []).1
        ((c :: rest).length - (ll_loop 1 1 ⟨max_len, cur_len⟩ (c :: rest) []).2.1.length)
        (ll_loop 1 1 ⟨max_len, cur_len⟩ (c :: rest) []).2.2.length
        (ll_loop 1 1 ⟨max_len, cur_len⟩ (c :: rest) []).2.2 false =
          ⟨.ok, ⟨max_len, cur⟩, 1, [c].length, [c], false⟩ := by
    rw [left]
    simp
  by_cases newline : c = LF
  · subst newline
    refine ⟨0, by omega, one 0 ?_⟩
    exact @round_line 1 0 max_len cur_len [] [] (by simp) rest (by simpa using less) (by simp)
  · have round := @round_part 1 0 max_len cur_len [] [c] (by simpa using Ne.symm newline) (by simp) rest
      (by simp; omega) (by simp) (.inr (.inl (by simp)))
    by_cases full : cur_len + 1 = max_len
    · exact ⟨0, by omega, one 0 (round.trans (if_pos full))⟩
    · exact ⟨cur_len + 1, by omega, one _ (round.trans (if_neg full))⟩

theorem drive_one {max_len : Nat} (x : List UInt8) : ∀ {cur_len : Nat}, cur_len < max_len → ∀ output eof,
    ∃ cur, (List.replicate (x.length + 1) (Offer.mk 0 true 1)).foldl (Session.offer _ll_encoder)
        ⟨⟨max_len, cur_len⟩, x, output, eof, false⟩ = ⟨⟨max_len, cur⟩, [], output ++ x, eof, true⟩ := by
  induction x with
  | nil =>
    intro cur_len less output eof
    refine ⟨cur_len, ?_⟩
    rw [List.length_nil, List.replicate_one, List.foldl_cons, List.foldl_nil]
    have reply : _ll_encoder ⟨max_len, cur_len⟩ .lastbuf [] 1 =
        ⟨.ok, ⟨max_len, cur_len⟩, 0, ([] : List UInt8).length, [], false⟩ := rfl
    exact (offer_ok (o := ⟨0, true, 1⟩) rfl reply).trans (by simp)
  | cons c rest ih =>
    intro cur_len less output eof
    obtain ⟨cur, less', reply⟩ := encoder_one less c rest
    have step : (Session.mk ⟨max_len, cur_len⟩ (c :: rest) output eof false).offer _ll_encoder ⟨0, true, 1⟩ =
        ⟨⟨max_len, cur⟩, rest, output ++ [c], eof, rest.isEmpty⟩ := by
      refine (offer_ok (o := ⟨0, true, 1⟩) rfl reply).trans ?_
      simp
    rw [List.length_cons, List.replicate_succ, List.foldl_cons, step]
    cases rest with
    | nil => exact ⟨cur, rfl⟩
    | cons d rest =>
      obtain ⟨cur', run⟩ := ih less' (output ++ [c]) eof
      exact ⟨cur', by rw [List.isEmpty_cons, run, List.append_assoc, List.singleton_append]⟩

/-- Short lines, and a part of a line. -/
def upTo (lines : List (List UInt8)) (part : List UInt8) : List UInt8 := (lines.map (· ++ [LF])).flatten ++ part

theorem upTo_cons (line : List UInt8) (lines : List (List UInt8)) (part : List UInt8) :
    upTo (line :: lines) part = line ++ LF :: upTo lines part := by simp [upTo]

theorem loop_full {osize max_len : Nat} (lines : List (List UInt8))
    (short : ∀ line ∈ lines, LF ∉ line ∧ line.length < max_len) {part : List UInt8} (clean : LF ∉ part)
    (full : part.length = max_len) (positive : 1 ≤ max_len) : ∀ (rounds : Nat) (output : List UInt8),
    (upTo lines part).length < rounds → osize = (output ++ upTo lines part).length + 1 →
      ll_loop osize rounds ⟨max_len, 0⟩ (upTo lines part) output =
        (⟨max_len, 0⟩, [], output ++ (upTo lines part ++ [LF])) := by
  induction lines with
  | nil =>
    intro rounds output more size
    obtain ⟨k, rfl⟩ := Nat.exists_eq_add_one_of_ne_zero (Nat.ne_zero_of_lt more)
    have some : part ≠ [] := List.length_pos_iff.mp (by omega)
    rw [show upTo [] part = part from rfl] at size ⊢
    have round := @round_part osize k max_len 0 output part clean some [] (by omega)
      (by rw [size, List.length_append]; omega) (.inr (.inr rfl))
    rw [List.append_nil, if_pos (by omega), if_pos (by omega), loop_stops (.inl rfl)] at round
    rw [round, List.append_assoc]
  | cons line lines ih =>
    intro rounds output more size
    obtain ⟨⟨cleanLine, less⟩, short⟩ := List.forall_mem_cons.mp short
    obtain ⟨k, rfl⟩ := Nat.exists_eq_add_one_of_ne_zero (Nat.ne_zero_of_lt more)
    rw [upTo_cons] at more size ⊢
    simp only [List.length_append, List.length_cons] at more size
    rw [round_line cleanLine _ (by omega) (by omega), ih short k (output ++ (line ++ [LF])) (by omega) ?_]
    · simp
    · simp only [List.length_append, List.length_singleton]
      omega

/-- The bytes of the output that are not inserted newlines are the input. -/
def Inserts (x y : List UInt8) : Prop :=
  ∃ marked : List (UInt8 × Bool), y = marked.map Prod.fst ∧ x = (marked.filter fun m => !m.2).map Prod.fst ∧
    ∀ m ∈ marked, m.2 = true → m.1 = LF

/-- Whatever the buffers: lines are not longer than the limit, nothing is lost, lines that are not too long are not
    changed, and enough calls come to the end. -/
structure Limits (max_len : Nat) (x : List UInt8) : Prop where
  outputs : ∀ schedule : List Offer, (∀ o ∈ schedule, 1 ≤ o.room) →
    (drive _ll_encoder ⟨max_len, 0⟩ x schedule).finished = true →
      (∀ line ∈ (drive _ll_encoder ⟨max_len, 0⟩ x schedule).output.splitOn LF, line.length ≤ max_len) ∧
      Inserts x (drive _ll_encoder ⟨max_len, 0⟩ x schedule).output ∧
      ((∀ line ∈ x.splitOn LF, line.length ≤ max_len) → (drive _ll_encoder ⟨max_len, 0⟩ x schedule).output = x)
  finishes : ∃ calls, ∀ schedule : List Offer, (∀ o ∈ schedule, 1 ≤ o.room) → calls < schedule.countP (·.last) →
    (drive _ll_encoder ⟨max_len, 0⟩ x schedule).finished = true

theorem long_cases {max_len : Nat} {x : List UInt8} (long : ¬ Short max_len 0 x) :
    ∃ (lines : List (List UInt8)) (part rest : List UInt8), (∀ line ∈ lines, LF ∉ line ∧ line.length < max_len) ∧
      LF ∉ part ∧ part.length = max_len ∧ x = upTo lines part ++ rest := by
  have cut (line rest : List UInt8) (clean : LF ∉ line) (long : max_len ≤ line.length) :
      ∃ (lines : List (List UInt8)) (part rest' : List UInt8), (∀ line ∈ lines, LF ∉ line ∧ line.length < max_len) ∧
        LF ∉ part ∧ part.length = max_len ∧ line ++ rest = upTo lines part ++ rest' := by
    refine ⟨[], line.take max_len, line.drop max_len ++ rest, by simp, fun here => clean (List.mem_of_mem_take here),
      by rw [List.length_take]; omega, ?_⟩
    rw [show upTo [] (line.take max_len) = line.take max_len from rfl, ← List.append_assoc, List.take_append_drop]
  induction x using line_induction LF with
  | last line clean =>
    rw [short_last clean] at long
    have parts := cut line [] clean (by omega)
    rwa [List.append_nil] at parts
  | next line rest clean ih =>
    by_cases less : line.length < max_len
    · rw [short_next clean] at long
      obtain ⟨lines, part, rest', short, cleanPart, full, shape⟩ := ih fun short => long ⟨by omega, short⟩
      refine ⟨line :: lines, part, rest', List.forall_mem_cons.mpr ⟨⟨clean, less⟩, short⟩, cleanPart, full, ?_⟩
      rw [upTo_cons, List.append_assoc, List.cons_append, ← shape]
    · exact cut line (LF :: rest) clean (by omega)

theorem drive_full {max_len : Nat} (positive : 1 ≤ max_len) {lines : List (List UInt8)}
    (short : ∀ line ∈ lines, LF ∉ line ∧ line.length < max_len) {part : List UInt8} (clean : LF ∉ part)
    (full : part.length = max_len) (rest : List UInt8) :
    ∃ schedule : List Offer, (∀ o ∈ schedule, 1 ≤ o.room) ∧
      (drive _ll_encoder ⟨max_len, 0⟩ (upTo lines part ++ rest) schedule).finished = true ∧
      (drive _ll_encoder ⟨max_len, 0⟩ (upTo lines part ++ rest) schedule).output = upTo lines part ++ [LF] ++ rest := by
  have loop := @loop_full ((upTo lines part).length + 1) max_len lines short part clean full positive
    ((upTo lines part).length + 1) [] (Nat.lt_succ_self _) rfl
  have part' : (Offer.mk (upTo lines part).length false ((upTo lines part).length + 1)).portion
      (upTo lines part ++ rest) = upTo lines part := by
    rw [Offer.portion, if_neg (by simp), List.take_left]
  -- the line comes to the limit in the first call; the rest is written byte by byte
  have first : (Session.start ⟨max_len, 0⟩ (upTo lines part ++ rest)).offer _ll_encoder
      ⟨(upTo lines part).length, false, (upTo lines part).length + 1⟩ =
        ⟨⟨max_len, 0⟩, rest, upTo lines part ++ [LF], false, false⟩ := by
    have reply : _ll_encoder ⟨max_len, 0⟩ .xcode ((Offer.mk (upTo lines part).length false
        ((upTo lines part).length + 1)).portion (upTo lines part ++ rest)) ((upTo lines part).length + 1) =
          ⟨.ok, ⟨max_len, 0⟩, (upTo lines part).length, (upTo lines part ++ [LF]).length, upTo lines part ++ [LF],
            false⟩ := by
      rw [part', encoder_calls _ (.inr rfl), loop]
      rfl
    refine (offer_ok rfl reply).trans ?_
    simp [Session.start]
  obtain ⟨cur, run⟩ := drive_one rest (show 0 < max_len by omega) (upTo lines part ++ [LF]) false
  refine ⟨⟨(upTo lines part).length, false, (upTo lines part).length + 1⟩ ::
    List.replicate (rest.length + 1) ⟨0, true, 1⟩, ?_, ?_⟩
  · refine List.forall_mem_cons.mpr ⟨Nat.le_add_left 1 _, fun o member => ?_⟩
    rw [List.eq_of_mem_replicate member]
  · rw [drive, List.foldl_cons, first, run]
    exact ⟨rfl, rfl⟩

theorem inserts_refl (x : List UInt8) : Inserts x x := by
  refine ⟨x.map fun c => (c, false), ?_, ?_, ?_⟩
  · simp [Function.comp_def]
  · simp [List.filter_map, Function.comp_def]
  · intro m member inserted
    obtain ⟨c, -, rfl⟩ := List.mem_map.mp member
    cases inserted

/-- The filter limits the lines of a text just if they are short enough already. -/
theorem linelen_iff (max_len : Nat) (positive : 1 ≤ max_len) (x : List UInt8) :
    Limits max_len x ↔ ∀ line ∈ x.splitOn LF, line.length < max_len := by
  rw [← short_zero]
  constructor
  · intro limits
    by_contra long
    -- bytes that are written one by one give the text itself
    obtain ⟨cur, run⟩ := drive_one x (show 0 < max_len by omega) [] false
    obtain ⟨bound, -, -⟩ := limits.outputs (List.replicate (x.length + 1) ⟨0, true, 1⟩) (by simp)
      (by rw [drive, Session.start, run])
    rw [drive, Session.start, run, List.nil_append] at bound
    obtain ⟨lines, part, rest, short, clean, full, shape⟩ := long_cases long
    obtain ⟨schedule, rooms, done, output⟩ := drive_full positive short clean full rest
    rw [← shape] at done output
    have same := (limits.outputs schedule rooms done).2.2 bound
    have longer := congrArg List.length (output.symm.trans same)
    rw [shape] at longer
    simp at longer
  · intro short
    obtain ⟨outputs, finishes⟩ := encoder_short short
    refine ⟨fun schedule rooms done => ?_, finishes⟩
    rw [outputs schedule rooms done]
    exact ⟨fun line member => Nat.le_of_lt (short_zero.mp short line member), inserts_refl x, fun _ => rfl⟩

theorem linelen_short : 1 ≤ 76 ∧ Limits 76 (ascii "a line\n") :=
  ⟨by decide, (linelen_iff 76 (by decide) (ascii "a line\n")).mpr (by decide)⟩

/-- With room for two bytes the newline behind the second one is left out; with more room it is put in also where the
    line ends anyway. -/
theorem newline_misplaced :
    (drive _ll_encoder ⟨2, 0⟩ (ascii "abc") [⟨0, true, 2⟩, ⟨0, true, 2⟩]).output = ascii "abc" ∧
      (drive _ll_encoder ⟨2, 0⟩ (ascii "abc") [⟨0, true, 2⟩, ⟨0, true, 2⟩]).finished = true ∧
      (drive _ll_encoder ⟨2, 0⟩ (ascii "ab\n") [⟨0, true, 9⟩]).output = ascii "ab\n\n" ∧
      (drive _ll_encoder ⟨2, 0⟩ (ascii "ab\n") [⟨0, true, 9⟩]).finished = true := by
  decide

end Mailutils.Linelen

import Mailutils.MimeBody
import Mailutils.HeaderLines
import Mailutils.HeaderWrite
import Mathlib.Data.List.Forall2

/-!
Parsing a multipart message (`_mime_parse_mpart_message` of `libmailutils/mime/mime.c`). The parser
goes through the lines of the body: a delimiter, the header lines up to an empty one, and the lines
of a part up to the next delimiter, whose preceding newline belongs to it. On the text of a composed
message it finds the parts that were composed (`mpart_found_iff`), if the boundary has no newline.
-/
namespace Mailutils.MimeParse
open Mailutils.Lines (getlines)
open Mailutils.MimeBody (Mime multipart canonical)
open Mailutils.Header (Hdr CString mu_header_create mu_header_set_value mu_hdrent_find fields)
open Mailutils.HeaderCopy (Field textOf)

inductive Boundary where
  | BOUNDARY_NO_MATCH
  | BOUNDARY_MATCH
  | BOUNDARY_CLOSE
  deriving DecidableEq, Repr

def match_boundary (line boundary : List UInt8) : Boundary :=
  let line := if line.getLast? = some LF then line.dropLast else line
  if boundary.length + 2 ≤ line.length ∧ line.take 2 = [MINUS, MINUS] ∧ (line.drop 2).take boundary.length = boundary then
    if line.length = boundary.length + 2 then .BOUNDARY_MATCH
    else if line.length = boundary.length + 4 ∧ (line.drop (boundary.length + 2)).take 2 = [MINUS, MINUS] then
      .BOUNDARY_CLOSE
    else .BOUNDARY_NO_MATCH
  else .BOUNDARY_NO_MATCH

/-- `struct _mime_part`, with the header of its message. -/
structure MimePart where
  hdr : Hdr
  offset : Nat
  len : Nat
  lines : Nat

/-- `MU_HEADER_CONTENT_TYPE` -/
def CONTENT_TYPE : CString := ⟨ascii "Content-Type", by decide⟩
def MESSAGE_RFC822 : CString := ⟨ascii "message/rfc822", by decide⟩
def TEXT_PLAIN : CString := ⟨ascii "text/plain", by decide⟩

/-- The content type that a part gets if it has none. -/
def defaultType (subtype : List UInt8) : CString :=
  if mu_c_strcasecmp subtype (ascii "digest") = 0 then MESSAGE_RFC822 else TEXT_PLAIN

/-- The size that `mu_header_get_value` gives for the content type, if there is one. -/
def content_type_size (hdr : Hdr) : Option Nat :=
  (mu_hdrent_find hdr (some CONTENT_TYPE) 1).bind fun i =>
    (hdr.list[i]?).map fun ent => ((hdr.spool.drop ent.fv).takeWhile (· ≠ 0)).length

/-- The header of a new part. -/
def part_header (subtype header_buf : List UInt8) : Hdr :=
  let hdr := mu_header_create (some header_buf)
  if content_type_size hdr = none ∨ content_type_size hdr = some 0 then
    (mu_header_set_value hdr (some CONTENT_TYPE) (some (defaultType subtype)) false).2
  else hdr

/-- `_mime_append_part` without a message. -/
def _mime_append_part (subtype header_buf : List UInt8) (mtp_parts : List MimePart) (offset len lines : Nat) :
    List MimePart :=
  mtp_parts ++ [{ hdr := part_header subtype header_buf, offset, len, lines }]

inductive ParserState where
  | MIME_STATE_SCAN_BOUNDARY
  | MIME_STATE_HEADERS
  | MIME_STATE_END
  deriving DecidableEq, Repr

/-- The variables of the parser; `header_length` is the length of `header_buf`. -/
structure Parser where
  parser_state : ParserState := .MIME_STATE_SCAN_BOUNDARY
  cur_offset : Nat := 0
  header_buf : List UInt8 := []
  mb_length : Nat := 0
  mb_offset : Nat := 0
  mb_lines : Nat := 0
  mtp_parts : List MimePart := []

/-- A delimiter was found. -/
def found_boundary (subtype : List UInt8) (p : Parser) (match_ : Boundary) : Parser :=
  let mb_length := if p.cur_offset = p.mb_offset then 0 else p.cur_offset - p.mb_offset - 1
  let p := { p with parser_state := .MIME_STATE_HEADERS, mb_length }
  let p :=
    -- the preamble is not a part
    if p.header_buf ≠ [] then
      let mb_lines := if p.mb_lines ≠ 0 then p.mb_lines - 1 else p.mb_lines
      { p with
        mb_lines
        mtp_parts := _mime_append_part subtype p.header_buf p.mtp_parts p.mb_offset mb_length mb_lines
        header_buf := [] }
    else p
  if match_ = .BOUNDARY_CLOSE then { p with parser_state := .MIME_STATE_END, header_buf := [] } else p

/-- One line in the `switch`. -/
def parse_line (boundary subtype : List UInt8) (p : Parser) (line : List UInt8) : Parser :=
  match p.parser_state with
  | .MIME_STATE_SCAN_BOUNDARY =>
    if match_boundary line boundary ≠ .BOUNDARY_NO_MATCH then found_boundary subtype p (match_boundary line boundary)
    else { p with mb_lines := p.mb_lines + 1 }
  | .MIME_STATE_HEADERS =>
    let p := { p with header_buf := p.header_buf ++ line }
    if line.length = 1 then
      { p with parser_state := .MIME_STATE_SCAN_BOUNDARY, mb_offset := p.cur_offset + 1, mb_lines := 0 }
    else p
  | .MIME_STATE_END => p

/-- One round of the loop. -/
def parse_step (boundary subtype : List UInt8) (p : Parser) (line : List UInt8) : Parser :=
  if p.parser_state = .MIME_STATE_END then p
  else
    let p := parse_line boundary subtype p line
    { p with cur_offset := p.cur_offset + line.length }

/-- `_mime_parse_mpart_message` on a stream that has this text: the parts it finds. -/
def _mime_parse_mpart_message (boundary subtype text : List UInt8) : List MimePart :=
  let p := (getlines LF text).foldl (parse_step boundary subtype) {}
  if p.header_buf ≠ [] then _mime_append_part subtype p.header_buf p.mtp_parts p.mb_offset p.mb_length p.mb_lines
  else p.mtp_parts

/-- The line of a delimiter, without its newline. -/
def Delimiter (boundary line : List UInt8) : Prop :=
  line = [MINUS, MINUS] ++ boundary ∨ line = [MINUS, MINUS] ++ boundary ++ [MINUS, MINUS]

theorem match_boundary_line (boundary line : List UInt8) :
    match_boundary (line ++ [LF]) boundary =
      if line = [MINUS, MINUS] ++ boundary then .BOUNDARY_MATCH
      else if line = [MINUS, MINUS] ++ boundary ++ [MINUS, MINUS] then .BOUNDARY_CLOSE
      else .BOUNDARY_NO_MATCH := by
  rw [match_boundary, List.getLast?_concat, if_pos rfl, List.dropLast_concat]
  by_cases begins : [MINUS, MINUS] ++ boundary <+: line
  · obtain ⟨tail, rfl⟩ := begins
    have prefix_ : boundary.length + 2 ≤ ([MINUS, MINUS] ++ boundary ++ tail).length ∧
        ([MINUS, MINUS] ++ boundary ++ tail).take 2 = [MINUS, MINUS] ∧
        (([MINUS, MINUS] ++ boundary ++ tail).drop 2).take boundary.length = boundary := by
      refine ⟨by simp, rfl, ?_⟩
      show List.take boundary.length (boundary ++ tail) = boundary
      exact List.take_left
    have rest : ([MINUS, MINUS] ++ boundary ++ tail).drop (boundary.length + 2) = tail :=
      List.drop_left' (by simp)
    have length : ([MINUS, MINUS] ++ boundary ++ tail).length = boundary.length + 2 + tail.length := by
      simp
      omega
    rw [if_pos prefix_, rest, length]
    by_cases empty : tail = []
    · simp [empty]
    · have positive : 0 < tail.length := List.length_pos_iff.mpr empty
      have more : ¬ [MINUS, MINUS] ++ boundary ++ tail = [MINUS, MINUS] ++ boundary := by simpa using empty
      have close : (boundary.length + 2 + tail.length = boundary.length + 4 ∧ tail.take 2 = [MINUS, MINUS]) ↔
          [MINUS, MINUS] ++ boundary ++ tail = [MINUS, MINUS] ++ boundary ++ [MINUS, MINUS] := by
        rw [List.append_cancel_left_eq]
        constructor
        · rintro ⟨two, taken⟩
          rw [← taken, List.take_of_length_le (by omega)]
        · rintro rfl
          exact ⟨rfl, rfl⟩
      rw [if_neg (by omega), if_neg more, if_congr close rfl rfl]
  · have no_match : ¬ (boundary.length + 2 ≤ line.length ∧ line.take 2 = [MINUS, MINUS] ∧
        (line.drop 2).take boundary.length = boundary) := by
      rintro ⟨-, dashes, named⟩
      refine begins ?_
      rw [← dashes]
      nth_rewrite 1 [← named]
      rw [← List.take_add]
      exact List.take_prefix _ _
    rw [if_neg no_match, if_neg, if_neg]
    · rintro rfl
      exact begins ⟨_, rfl⟩
    · rintro rfl
      exact begins ⟨[], by simp⟩

private theorem match_boundary_none {boundary line : List UInt8} (other : ¬ Delimiter boundary line) :
    match_boundary (line ++ [LF]) boundary = .BOUNDARY_NO_MATCH := by
  rw [Delimiter, not_or] at other
  rw [match_boundary_line, if_neg other.1, if_neg other.2]

/-- A part of a composed message: header lines, an empty line and a body. -/
structure PartText where
  header : List (List UInt8)
  body : List UInt8

/-- The header lines with the empty one. -/
def PartText.block (part : PartText) : List UInt8 := textOf part.header ++ [LF]

def PartText.text (part : PartText) : List UInt8 := part.block ++ part.body

/-- Header lines that are lines and not empty, and a body without delimiters. -/
structure PartText.Proper (boundary : List UInt8) (part : PartText) : Prop where
  header : ∀ line ∈ part.header, line ≠ [] ∧ LF ∉ line
  body : ∀ line ∈ part.body.splitOn LF, ¬ Delimiter boundary line

/-- The message composed of these parts. -/
def compose (boundary : List UInt8) (parts : List PartText) (chunk : Nat → Nat → Nat → Nat) : Mime where
  boundary := boundary
  mtp_parts := parts.map fun part => ⟨part.text, part.body⟩
  chunk := chunk

section
variable {boundary subtype : List UInt8}

variable (boundary subtype) in
/-- The loop over the lines of a text. -/
def run (p : Parser) (text : List UInt8) : Parser := (getlines LF text).foldl (parse_step boundary subtype) p

theorem run_line {line : List UInt8} (clean : LF ∉ line) (p : Parser) (rest : List UInt8) :
    run boundary subtype p (line ++ LF :: rest) =
      run boundary subtype (parse_step boundary subtype p (line ++ [LF])) rest := by
  rw [run, Lines.getlines_next clean]
  rfl

private theorem run_headers {lines : List (List UInt8)} (single : ∀ line ∈ lines, line ≠ [] ∧ LF ∉ line) :
    ∀ p : Parser, p.parser_state = .MIME_STATE_HEADERS → ∀ rest,
    run boundary subtype p (textOf lines ++ rest) = run boundary subtype
      { p with header_buf := p.header_buf ++ textOf lines, cur_offset := p.cur_offset + (textOf lines).length } rest := by
  induction lines with
  | nil =>
    intro p _ rest
    simp
  | cons line lines ih =>
    intro p state rest
    obtain ⟨filled, clean⟩ := single line List.mem_cons_self
    have long : ¬ (line ++ [LF]).length = 1 := by simpa using filled
    have step : parse_step boundary subtype p (line ++ [LF]) =
        { p with header_buf := p.header_buf ++ (line ++ [LF]), cur_offset := p.cur_offset + (line ++ [LF]).length } := by
      simp only [parse_step, parse_line, state, reduceCtorEq, if_false, long]
    have shape : textOf (line :: lines) ++ rest = line ++ LF :: (textOf lines ++ rest) := by
      simp [HeaderCopy.textOf_cons]
    have later := ih (fun l member => single l (List.mem_cons_of_mem _ member))
      { p with header_buf := p.header_buf ++ (line ++ [LF]), cur_offset := p.cur_offset + (line ++ [LF]).length } state rest
    rw [shape, run_line clean, step, later, HeaderCopy.textOf_cons]
    simp only [List.append_assoc, List.length_append, Nat.add_assoc]

theorem run_empty_line {p : Parser} (state : p.parser_state = .MIME_STATE_HEADERS) (rest : List UInt8) :
    run boundary subtype p (LF :: rest) = run boundary subtype
      { p with
        parser_state := .MIME_STATE_SCAN_BOUNDARY
        header_buf := p.header_buf ++ [LF]
        cur_offset := p.cur_offset + 1
        mb_offset := p.cur_offset + 1
        mb_lines := 0 } rest := by
  have step : parse_step boundary subtype p [LF] =
      { p with
        parser_state := .MIME_STATE_SCAN_BOUNDARY
        header_buf := p.header_buf ++ [LF]
        cur_offset := p.cur_offset + 1
        mb_offset := p.cur_offset + 1
        mb_lines := 0 } := by
    simp [parse_step, parse_line, state]
  rw [← step]
  exact @run_line boundary subtype [] (by simp) p rest

theorem run_body (body : List UInt8) (free : ∀ line ∈ body.splitOn LF, ¬ Delimiter boundary line) :
    ∀ p : Parser, p.parser_state = .MIME_STATE_SCAN_BOUNDARY → ∀ rest,
    run boundary subtype p (body ++ LF :: rest) = run boundary subtype
      { p with mb_lines := p.mb_lines + (body.count LF + 1), cur_offset := p.cur_offset + (body.length + 1) } rest := by
  have step {line : List UInt8} (other : ¬ Delimiter boundary line) (p : Parser)
      (state : p.parser_state = .MIME_STATE_SCAN_BOUNDARY) : parse_step boundary subtype p (line ++ [LF]) =
        { p with mb_lines := p.mb_lines + 1, cur_offset := p.cur_offset + (line.length + 1) } := by
    simp [parse_step, parse_line, state, match_boundary_none other]
  induction body using Lines.line_induction LF with
  | last line clean =>
    intro p state rest
    have other := free line (by rw [Lines.splitOn_last clean]; exact List.mem_singleton_self _)
    rw [run_line clean, step other p state, List.count_eq_zero_of_not_mem clean]
  | next line more clean ih =>
    intro p state rest
    rw [Lines.splitOn_next clean] at free
    have other := free line List.mem_cons_self
    have later := ih (fun l member => free l (List.mem_cons_of_mem _ member))
      { p with mb_lines := p.mb_lines + 1, cur_offset := p.cur_offset + (line.length + 1) } state rest
    rw [List.append_assoc, List.cons_append, run_line clean, step other p state, later]
    simp only [List.count_append, List.count_eq_zero_of_not_mem clean, List.count_cons_self, List.length_append,
      List.length_cons]
    congr 2 <;> omega

variable (boundary subtype) in
/-- What the parser makes of the parts behind an offset. -/
def foundParts : Nat → List PartText → List MimePart
  | _, [] => []
  | offset, part :: parts =>
    { hdr := part_header subtype part.block
      offset := offset + (boundary.length + 3) + part.block.length
      len := part.body.length
      lines := part.body.count LF } ::
      foundParts (offset + (boundary.length + 3) + part.block.length + part.body.length + 1) parts

/-- The parts so far do not depend on which delimiter is found. -/
theorem found_parts (p : Parser) (match_ : Boundary) :
    (found_boundary subtype p match_).mtp_parts = (found_boundary subtype p .BOUNDARY_MATCH).mtp_parts := by
  rw [found_boundary]
  split
  next closing => simp [found_boundary]
  next other => simp [found_boundary]

theorem found_headers (p : Parser) :
    (found_boundary subtype p .BOUNDARY_MATCH).parser_state = .MIME_STATE_HEADERS ∧
    (found_boundary subtype p .BOUNDARY_MATCH).header_buf = [] ∧
    (found_boundary subtype p .BOUNDARY_MATCH).cur_offset = p.cur_offset := by
  rw [found_boundary]
  by_cases part : p.header_buf ≠ []
  · simp [part]
  · simp [not_not.mp part]

theorem run_delimiter (clean : LF ∉ boundary) {p : Parser} (state : p.parser_state = .MIME_STATE_SCAN_BOUNDARY)
    (rest : List UInt8) :
    run boundary subtype p ([MINUS, MINUS] ++ boundary ++ LF :: rest) = run boundary subtype
      { found_boundary subtype p .BOUNDARY_MATCH with cur_offset := p.cur_offset + (boundary.length + 3) } rest := by
  have matched : match_boundary ([MINUS, MINUS] ++ boundary ++ [LF]) boundary = .BOUNDARY_MATCH := by
    rw [match_boundary_line, if_pos rfl]
  have no_newline : LF ∉ [MINUS, MINUS] ++ boundary := by
    rw [List.mem_append, not_or]
    exact ⟨by decide, clean⟩
  rw [run_line no_newline]
  congr 1
  simp only [parse_step, parse_line, state, matched, reduceCtorEq, if_false, ne_eq, not_false_eq_true, if_true,
    (found_headers p).2.2]
  congr 1
  simp

theorem run_close (clean : LF ∉ boundary) {p : Parser} (state : p.parser_state = .MIME_STATE_SCAN_BOUNDARY) :
    (run boundary subtype p ([MINUS, MINUS] ++ boundary ++ [MINUS, MINUS, LF])).header_buf = [] ∧
    (run boundary subtype p ([MINUS, MINUS] ++ boundary ++ [MINUS, MINUS, LF])).mtp_parts =
      (found_boundary subtype p .BOUNDARY_MATCH).mtp_parts := by
  have matched : match_boundary ([MINUS, MINUS] ++ boundary ++ [MINUS, MINUS] ++ [LF]) boundary = .BOUNDARY_CLOSE := by
    rw [match_boundary_line, if_neg (by simp), if_pos rfl]
  have no_newline : LF ∉ [MINUS, MINUS] ++ boundary ++ [MINUS, MINUS] := by
    rw [List.mem_append, List.mem_append, not_or, not_or]
    exact ⟨⟨by decide, clean⟩, by decide⟩
  have shape : [MINUS, MINUS] ++ boundary ++ [MINUS, MINUS, LF] = [MINUS, MINUS] ++ boundary ++ [MINUS, MINUS] ++ LF :: [] := by
    simp
  have run_nil (p : Parser) : run boundary subtype p [] = p := rfl
  rw [shape, run_line no_newline, run_nil]
  simp only [parse_step, parse_line, state, matched, reduceCtorEq, if_false, ne_eq, not_false_eq_true, if_true,
    found_parts, and_true]
  rw [found_boundary]
  simp only [if_true]

theorem run_part (clean : LF ∉ boundary) {part : PartText} (proper : part.Proper boundary) {p : Parser}
    (state : p.parser_state = .MIME_STATE_SCAN_BOUNDARY) (rest : List UInt8) :
    ∃ q, run boundary subtype p ([MINUS, MINUS] ++ boundary ++ [LF] ++ part.text ++ [LF] ++ rest) =
        run boundary subtype q rest ∧
      q.parser_state = .MIME_STATE_SCAN_BOUNDARY ∧
      q.cur_offset = p.cur_offset + (boundary.length + 3) + part.block.length + part.body.length + 1 ∧
      (found_boundary subtype q .BOUNDARY_MATCH).mtp_parts = (found_boundary subtype p .BOUNDARY_MATCH).mtp_parts ++
        [⟨part_header subtype part.block, p.cur_offset + (boundary.length + 3) + part.block.length, part.body.length,
          part.body.count LF⟩] := by
  have shape : [MINUS, MINUS] ++ boundary ++ [LF] ++ part.text ++ [LF] ++ rest =
      [MINUS, MINUS] ++ boundary ++ LF :: (textOf part.header ++ LF :: (part.body ++ LF :: rest)) := by
    simp [PartText.text, PartText.block]
  obtain ⟨headers, no_buf, -⟩ := @found_headers subtype p
  rw [shape, run_delimiter clean state]
  generalize found_boundary subtype p .BOUNDARY_MATCH = f at headers no_buf ⊢
  obtain ⟨f_state, _, f_buf, mb_length, mb_offset, mb_lines, mtp_parts⟩ := f
  dsimp only at headers no_buf ⊢
  subst headers no_buf
  rw [run_headers proper.header ⟨_, _, _, _, _, _, _⟩ rfl, run_empty_line rfl,
    run_body part.body proper.body ⟨_, _, _, _, _, _, _⟩ rfl]
  refine ⟨_, rfl, rfl, ?_, ?_⟩
  · simp [PartText.block]
    omega
  · have length : p.cur_offset + (boundary.length + 3) + (textOf part.header).length + 1 =
        p.cur_offset + (boundary.length + 3) + part.block.length := by
      simp [PartText.block, Nat.add_assoc]
    have block : [] ++ textOf part.header ++ [LF] = part.block := rfl
    have filled : part.block ≠ [] := by simp [PartText.block]
    dsimp only
    rw [length, block]
    simp [found_boundary, _mime_append_part, filled]

theorem run_multipart (clean : LF ∉ boundary) (parts : List PartText) :
    (∀ part ∈ parts, part.Proper boundary) → ∀ p : Parser, p.parser_state = .MIME_STATE_SCAN_BOUNDARY →
    (run boundary subtype p (multipart boundary (parts.map fun part => ⟨part.text, part.body⟩))).header_buf = [] ∧
    (run boundary subtype p (multipart boundary (parts.map fun part => ⟨part.text, part.body⟩))).mtp_parts =
      (found_boundary subtype p .BOUNDARY_MATCH).mtp_parts ++ foundParts boundary subtype p.cur_offset parts := by
  induction parts with
  | nil =>
    intro _ p state
    rw [List.map_nil, multipart, foundParts, List.append_nil]
    exact run_close clean state
  | cons part parts ih =>
    intro proper p state
    obtain ⟨q, same, state', offset, found⟩ := @run_part boundary subtype clean part (proper part List.mem_cons_self) p
      state (multipart boundary (parts.map fun part => ⟨part.text, part.body⟩))
    obtain ⟨no_buf, later⟩ := ih (fun part member => proper part (List.mem_cons_of_mem _ member)) q state'
    rw [List.map_cons, multipart, same, later, found, offset, foundParts, List.append_assoc]
    exact ⟨no_buf, rfl⟩

theorem parse_multipart (clean : LF ∉ boundary) {parts : List PartText} (proper : ∀ part ∈ parts, part.Proper boundary) :
    _mime_parse_mpart_message boundary subtype (multipart boundary (parts.map fun part => ⟨part.text, part.body⟩)) =
      foundParts boundary subtype 0 parts := by
  obtain ⟨no_buf, found⟩ := @run_multipart boundary subtype clean parts proper {} rfl
  rw [_mime_parse_mpart_message]
  rw [run] at no_buf found
  simp only [no_buf, found]
  simp [found_boundary]

theorem getlines_clean {text line : List UInt8} (member : line ∈ getlines LF text) :
    LF ∉ if line.getLast? = some LF then line.dropLast else line := by
  induction text using Lines.line_induction LF with
  | last front clean =>
    by_cases empty : front = []
    · rw [empty] at member
      cases member
    · rw [Lines.getlines_last clean empty] at member
      obtain rfl := List.mem_singleton.mp member
      rw [if_neg fun last => clean (List.mem_of_getLast? last)]
      exact clean
  | next front rest clean ih =>
    rw [Lines.getlines_next clean] at member
    rcases List.mem_cons.mp member with rfl | later
    · rw [List.getLast?_concat, if_pos rfl, List.dropLast_concat]
      exact clean
    · exact ih later

theorem match_boundary_newline (newline : LF ∈ boundary) {text line : List UInt8} (member : line ∈ getlines LF text) :
    match_boundary line boundary = .BOUNDARY_NO_MATCH := by
  have clean := getlines_clean member
  rw [match_boundary]
  generalize (if line.getLast? = some LF then line.dropLast else line) = stripped at clean ⊢
  refine if_neg ?_
  rintro ⟨-, -, named⟩
  rw [← named] at newline
  exact clean (List.mem_of_mem_drop (List.mem_of_mem_take newline))

theorem parse_newline (newline : LF ∈ boundary) (text : List UInt8) :
    _mime_parse_mpart_message boundary subtype text = [] := by
  have nothing : ∀ lines : List (List UInt8), (∀ line ∈ lines, match_boundary line boundary = .BOUNDARY_NO_MATCH) →
      ∀ p : Parser, p.parser_state = .MIME_STATE_SCAN_BOUNDARY → p.header_buf = [] → p.mtp_parts = [] →
      (lines.foldl (parse_step boundary subtype) p).header_buf = [] ∧
      (lines.foldl (parse_step boundary subtype) p).mtp_parts = [] := by
    intro lines
    induction lines with
    | nil =>
      intro _ p _ no_buf none_
      exact ⟨no_buf, none_⟩
    | cons line lines ih =>
      intro other p state no_buf none_
      have step : parse_step boundary subtype p line =
          { p with mb_lines := p.mb_lines + 1, cur_offset := p.cur_offset + line.length } := by
        simp [parse_step, parse_line, state, other line List.mem_cons_self]
      rw [List.foldl_cons, step]
      exact ih (fun l member => other l (List.mem_cons_of_mem _ member)) _ state no_buf none_
  obtain ⟨no_buf, none_⟩ := nothing (getlines LF text) (fun line member => match_boundary_newline newline member) {}
    rfl rfl rfl
  rw [_mime_parse_mpart_message]
  simp only [no_buf, none_]
  simp
end

open Mailutils.Header (ISLWSP take_field split_field parseFields Packed)

theorem take_field_folded {line rest : List UInt8} (no_newline : LF ∉ line) (folded : rest.head?.any ISLWSP = true) :
    take_field (line ++ LF :: rest) = (line ++ LF :: (take_field rest).1, (take_field rest).2) := by
  induction line with
  | nil =>
    rw [List.nil_append, take_field, folded]
    simp
  | cons c line ih =>
    have parts : ¬ LF = c ∧ LF ∉ line := by simpa using no_newline
    rw [List.cons_append, take_field, if_neg (fun both => parts.1 both.1.symm), ih parts.2]
    rfl

theorem take_field_line {line rest : List UInt8} (no_newline : LF ∉ line) (ends : rest.head?.any ISLWSP = false) :
    take_field (line ++ LF :: rest) = (line, rest) := by
  induction line with
  | nil =>
    rw [List.nil_append, take_field, ends]
    simp
  | cons c line ih =>
    have parts : ¬ LF = c ∧ LF ∉ line := by simpa using no_newline
    rw [List.cons_append, take_field, if_neg (fun both => parts.1 both.1.symm), ih parts.2]

/-- The loop stops here. -/
def Stops (text : List UInt8) : Prop := text = [] ∨ text.head?.any fun c => ISLWSP c ∨ c = LF

theorem stops_cons (c : UInt8) (rest : List UInt8) : Stops (c :: rest) ↔ ISLWSP c = true ∨ c = LF := by
  simp [Stops]

instance (text : List UInt8) : Decidable (Stops text) := inferInstanceAs (Decidable (_ ∨ _))

/-- A line that is kept as it is. -/
def IsFrom (field : List UInt8) : Prop := field.length ≥ 5 ∧ field.take 5 = ascii "From "

theorem split_field_colon {field : List UInt8} (named : ¬ IsFrom field) (colon : COLON ∈ field) :
    split_field field = some ((field.take (field.idxOf COLON)).rdropWhile ISLWSP,
      (field.drop (field.idxOf COLON + 1)).dropWhile ISLWSP) := by
  rw [split_field]
  exact (if_neg named).trans (if_pos colon)

theorem parseFields_of_stops {text : List UInt8} (stops : Stops text) (fuel : Nat) : parseFields fuel text = [] := by
  cases fuel with
  | zero => rfl
  | succ fuel =>
    rw [parseFields]
    exact if_pos stops

/-- The text of a field without its last newline. -/
def fieldText (field : Field) : List UInt8 := field.first ++ (field.folded.map (LF :: ·)).flatten

/-- The name without the blanks behind it, and the value without those in front of it, with the lines that continue
    it. -/
def nameValue (field : Field) : List UInt8 × List UInt8 :=
  (field.name.rdropWhile ISLWSP, (field.value ++ (field.folded.map (LF :: ·)).flatten).dropWhile ISLWSP)

/-- A field of a header, not the line with which a message begins in a mailbox. -/
structure Regular (field : Field) : Prop where
  wellFormed : field.WellFormed
  named : ¬ ascii "From " <+: fieldText field

theorem textOf_lines (field : Field) : textOf field.lines = fieldText field ++ [LF] := by
  rw [Field.lines, HeaderCopy.textOf_cons, fieldText]
  generalize field.first = line
  induction field.folded generalizing line with
  | nil => simp
  | cons next folded ih =>
    have later := ih next
    simp only [HeaderCopy.textOf_cons, List.map_cons, List.flatten_cons, List.append_assoc, List.cons_append,
      List.nil_append, List.append_cancel_left_eq, List.cons.injEq, true_and] at later ⊢
    rw [later]

theorem take_field_lines {folded : List (List UInt8)}
    (blank : ∀ line ∈ folded, LF ∉ line ∧ ∃ c ∈ line.head?, HeaderCopy.blank c = true) {rest : List UInt8}
    (ends : rest.head?.any ISLWSP = false) : ∀ {line : List UInt8}, LF ∉ line →
    take_field (line ++ (folded.map (LF :: ·)).flatten ++ LF :: rest) = (line ++ (folded.map (LF :: ·)).flatten, rest) := by
  induction folded with
  | nil =>
    intro line clean
    simpa using take_field_line clean ends
  | cons next folded ih =>
    intro line clean
    obtain ⟨clean', c, first, isBlank⟩ := blank next List.mem_cons_self
    obtain ⟨more, rfl⟩ : ∃ more, next = c :: more := by
      cases next with
      | nil => cases first
      | cons d more => exact ⟨more, by rw [Option.some.inj first]⟩
    have later := ih (fun l member => blank l (List.mem_cons_of_mem _ member)) clean'
    have shape : line ++ ((c :: more) :: folded |>.map (LF :: ·)).flatten ++ LF :: rest =
        line ++ LF :: ((c :: more) ++ (folded.map (LF :: ·)).flatten ++ LF :: rest) := by
      simp
    have isBlank' : ISLWSP c = true := isBlank
    rw [shape, take_field_folded clean (by simpa using isBlank'), later]
    simp

theorem Regular.take_field {field : Field} (regular : Regular field) {rest : List UInt8}
    (ends : rest.head?.any ISLWSP = false) : take_field (textOf field.lines ++ rest) = (fieldText field, rest) := by
  have clean := regular.wellFormed.first_line.1
  rw [textOf_lines, List.append_assoc]
  exact take_field_lines regular.wellFormed.folded ends clean

theorem Regular.split_field {field : Field} (regular : Regular field) :
    split_field (fieldText field) = some (nameValue field) := by
  have shape : fieldText field = field.name ++ COLON :: (field.value ++ (field.folded.map (LF :: ·)).flatten) := by
    simp [fieldText, Field.first]
  have named : ¬ IsFrom (fieldText field) := by
    rintro ⟨-, taken⟩
    exact regular.named (taken ▸ List.take_prefix 5 _)
  have index : (fieldText field).idxOf COLON = field.name.length := by
    rw [shape, List.idxOf_append_of_notMem regular.wellFormed.name.2.1]
    simp
  have value : (fieldText field).drop (field.name.length + 1) =
      field.value ++ (field.folded.map (LF :: ·)).flatten := by
    have split : fieldText field = (field.name ++ [COLON]) ++ (field.value ++ (field.folded.map (LF :: ·)).flatten) := by
      rw [shape]
      simp
    rw [split]
    exact List.drop_left' (by simp)
  rw [split_field_colon named (by rw [shape]; simp), index, value, shape, List.take_left, nameValue]

theorem Regular.starts {field : Field} (regular : Regular field) (rest : List UInt8) :
    ¬ Stops (textOf field.lines ++ rest) ∧ (textOf field.lines ++ rest).head?.any ISLWSP = false := by
  obtain ⟨clean, -, c, first, notBlank⟩ := regular.wellFormed.name
  obtain ⟨more, name⟩ : ∃ more, field.name = c :: more := by
    cases shape : field.name with
    | nil => simp [shape] at first
    | cons d more => exact ⟨more, by rw [shape] at first; rw [Option.some.inj first]⟩
  have cons : ∃ tail, textOf field.lines ++ rest = c :: tail := by
    rw [textOf_lines, fieldText, Field.first, name]
    exact ⟨_, rfl⟩
  obtain ⟨tail, cons⟩ := cons
  have notBlank' : ISLWSP c = false := notBlank
  rw [cons, stops_cons]
  refine ⟨?_, by simpa using notBlank'⟩
  rintro (blank | newline)
  · rw [notBlank'] at blank
    cases blank
  · exact clean (by rw [name, ← newline]; exact List.mem_cons_self)

theorem parseFields_block (fuel : Nat) : ∀ {fs : List Field}, (∀ f ∈ fs, Regular f) → fs.length ≤ fuel →
    parseFields fuel (textOf (fs.flatMap Field.lines) ++ [LF]) = fs.map nameValue := by
  induction fuel with
  | zero =>
    intro fs _ short
    obtain rfl : fs = [] := List.length_eq_zero_iff.mp (by omega)
    rfl
  | succ fuel ih =>
    intro fs regular short
    cases fs with
    | nil => exact parseFields_of_stops (.inr rfl) _
    | cons f fs =>
      have first := regular f List.mem_cons_self
      have others : ∀ g ∈ fs, Regular g := fun g member => regular g (List.mem_cons_of_mem _ member)
      have ends : (textOf (fs.flatMap Field.lines) ++ [LF]).head?.any ISLWSP = false := by
        cases fs with
        | nil => rfl
        | cons g fs =>
          rw [List.flatMap_cons, HeaderCopy.textOf_append, List.append_assoc]
          exact ((others g List.mem_cons_self).starts _).2
      rw [List.length_cons] at short
      rw [List.flatMap_cons, HeaderCopy.textOf_append, List.append_assoc, parseFields, first.take_field ends,
        first.split_field]
      dsimp only
      rw [ih others (by omega), List.map_cons]
      exact if_neg (first.starts _).1

/-- A field that gives the content type. -/
def IsContentType (f : List UInt8 × List UInt8) : Prop := mu_c_strcasecmp (f.1.takeWhile (· ≠ 0)) CONTENT_TYPE.1 = 0

instance (f : List UInt8 × List UInt8) : Decidable (IsContentType f) := inferInstanceAs (Decidable (_ = _))

/-- The fields with a content type behind them if there is none among them. -/
def withContentType (subtype : List UInt8) (fs : List (List UInt8 × List UInt8)) : List (List UInt8 × List UInt8) :=
  if ∃ f ∈ fs, IsContentType f then fs else fs ++ [(CONTENT_TYPE.1, (defaultType subtype).1)]

theorem nth_match_none {p : Header.Ent → Bool} {ents : List Header.Ent} :
    Header.nth_match p ents 1 = none ↔ ∀ ent ∈ ents, p ent = false := by
  induction ents with
  | nil => simp [Header.nth_match]
  | cons ent ents ih =>
    rw [Header.nth_match, List.forall_mem_cons]
    by_cases here : p ent = true
    · simp [here]
    · simp [here, ih]

theorem find_content_type {hdr : Hdr} {fs : List (List UInt8 × List UInt8)} (packed : Packed hdr fs) :
    mu_hdrent_find hdr (some CONTENT_TYPE) 1 = none ↔ ¬ ∃ f ∈ fs, IsContentType f := by
  obtain ⟨stored, same⟩ := packed.stored
  have name (ent : Header.Ent) (member : ent ∈ hdr.list) :
      Header.MU_HDRENT_NAME hdr ent = (Header.field hdr.spool ent).1.takeWhile (· ≠ 0) := (stored ent member).name
  have unfolded : mu_hdrent_find hdr (some CONTENT_TYPE) 1 =
      Header.nth_match (fun ent => decide (mu_c_strcasecmp (Header.MU_HDRENT_NAME hdr ent) CONTENT_TYPE.1 = 0))
        hdr.list 1 := rfl
  rw [unfolded, nth_match_none, ← same, fields]
  constructor
  · rintro none_ ⟨f, member, isType⟩
    obtain ⟨ent, there, rfl⟩ := List.mem_map.mp member
    have other := none_ ent there
    rw [name ent there, decide_eq_false_iff_not] at other
    exact other isType
  · intro none_ ent there
    rw [name ent there, decide_eq_false_iff_not]
    intro isType
    exact none_ ⟨_, List.mem_map_of_mem there, isType⟩

theorem part_header_fields (subtype header_buf : List UInt8) :
    fields (part_header subtype header_buf) =
      withContentType subtype (fields (mu_header_create (some header_buf))) := by
  obtain ⟨fs, packed⟩ := Header.create_packed (some header_buf)
  have same := packed.stored.2
  rw [part_header, withContentType, same]
  generalize mu_header_create (some header_buf) = hdr at packed same
  by_cases there : ∃ f ∈ fs, IsContentType f
  · -- whether it is set or not, the field that is there stays
    have found := (not_iff_not.mpr (find_content_type packed)).mpr (not_not.mpr there)
    obtain ⟨i, found⟩ := Option.ne_none_iff_exists'.mp found
    have kept : (mu_header_set_value hdr (some CONTENT_TYPE) (some (defaultType subtype)) false).2 = hdr := by
      simp [mu_header_set_value, packed.filled, found]
    simp only [kept, ite_self, if_pos there, same]
  · have none_ := (find_content_type packed).mpr there
    have size : content_type_size hdr = none := by rw [content_type_size, none_]; rfl
    have added : (mu_header_set_value hdr (some CONTENT_TYPE) (some (defaultType subtype)) false).2 =
        Header.HEADER_SET_MODIFIED { (Header.mu_hdrent_create hdr CONTENT_TYPE.1 (defaultType subtype).1).2 with
          list := hdr.list ++ [(Header.mu_hdrent_create hdr CONTENT_TYPE.1 (defaultType subtype).1).1] } := by
      simp [mu_header_set_value, packed.filled, none_, Header.mu_hdrent_create]
    simp only [size, true_or, if_true, if_neg there, added]
    exact (packed.appended CONTENT_TYPE.1 (defaultType subtype).1).noted.stored.2

theorem block_fields {fs : List Field} (regular : ∀ f ∈ fs, Regular f) :
    fields (mu_header_create (some (textOf (fs.flatMap Field.lines) ++ [LF]))) = fs.map nameValue := by
  have enough : fs.length ≤ (textOf (fs.flatMap Field.lines) ++ [LF]).length := by
    clear regular
    induction fs with
    | nil => exact Nat.zero_le _
    | cons f fs ih =>
      rw [List.flatMap_cons, HeaderCopy.textOf_append, textOf_lines]
      simp only [List.length_append, List.length_cons] at ih ⊢
      omega
  rw [mu_header_create, Header.header_parse_fields, parseFields_block _ regular enough]

/-- The part is found in the text: its header lines, its body and the number of newlines in it. -/
structure Found (subtype text : List UInt8) (part : PartText) (found : MimePart) : Prop where
  header : found.hdr = part_header subtype part.block
  fields : ∀ fs : List Field, (∀ f ∈ fs, Regular f) → part.header = fs.flatMap Field.lines →
    Header.fields found.hdr = withContentType subtype (fs.map nameValue)
  body : (text.drop found.offset).take found.len = part.body
  lines : found.lines = part.body.count LF

theorem foundParts_found {boundary subtype : List UInt8} (parts : List PartText) : ∀ (text : List UInt8) (offset : Nat),
    text.drop offset = multipart boundary (parts.map fun part => ⟨part.text, part.body⟩) →
    List.Forall₂ (Found subtype text) parts (foundParts boundary subtype offset parts) := by
  induction parts with
  | nil =>
    intro text offset _
    exact .nil
  | cons part parts ih =>
    intro text offset rest
    rw [List.map_cons, multipart] at rest
    have body : text.drop (offset + (boundary.length + 3) + part.block.length) =
        part.body ++ LF :: multipart boundary (parts.map fun part => ⟨part.text, part.body⟩) := by
      rw [Nat.add_assoc, ← List.drop_drop, rest]
      have shape : [MINUS, MINUS] ++ boundary ++ [LF] ++ part.text ++ [LF] ++
          multipart boundary (parts.map fun part => ⟨part.text, part.body⟩) =
          ([MINUS, MINUS] ++ boundary ++ [LF] ++ part.block) ++
            (part.body ++ LF :: multipart boundary (parts.map fun part => ⟨part.text, part.body⟩)) := by
        simp [PartText.text]
      rw [shape]
      exact List.drop_left' (by simp; omega)
    refine .cons ⟨rfl, ?_, ?_, rfl⟩ (ih text _ ?_)
    · intro fs regular lines
      rw [part_header_fields, PartText.block, lines, block_fields regular]
    · dsimp only
      rw [body, List.take_left]
    · rw [Nat.add_assoc _ part.body.length, ← List.drop_drop, body]
      have shape : part.body ++ LF :: multipart boundary (parts.map fun part => ⟨part.text, part.body⟩) =
          (part.body ++ [LF]) ++ multipart boundary (parts.map fun part => ⟨part.text, part.body⟩) := by simp
      rw [shape]
      exact List.drop_left' (by simp)

/-- On the text of a composed message the parser finds exactly the parts that were composed, unless the boundary
    has a newline. -/
theorem mpart_found_iff (boundary subtype : List UInt8) (parts : List PartText) (two : 2 ≤ parts.length)
    (proper : ∀ part ∈ parts, part.Proper boundary) (chunk : Nat → Nat → Nat → Nat) :
    List.Forall₂ (Found subtype (canonical (compose boundary parts chunk))) parts
      (_mime_parse_mpart_message boundary subtype (canonical (compose boundary parts chunk))) ↔ LF ∉ boundary := by
  have text : canonical (compose boundary parts chunk) =
      multipart boundary (parts.map fun part => ⟨part.text, part.body⟩) := by
    rw [canonical, compose]
    rcases parts with _ | ⟨first, _ | ⟨second, more⟩⟩
    · simp at two
    · simp at two
    · rfl
  rw [text]
  constructor
  · intro found newline
    rw [parse_newline newline] at found
    cases found
    simp at two
  · intro clean
    rw [parse_multipart clean proper]
    exact foundParts_found parts _ 0 (List.drop_zero)

/-- Two parts: a field of two lines and a type before a body that ends in a line like a delimiter, and a field before a
    body without a newline at its end. -/
def letters : List PartText :=
  [⟨[ascii "Subject: a", ascii " b", ascii "Content-Type: text/html"], ascii "x\n--bc\n"⟩,
    ⟨[ascii "To: c"], ascii "y\n\nz"⟩]

theorem mpart_found_letters :
    List.Forall₂ (Found (ascii "mixed") (canonical (compose (ascii "b") letters fun _ _ _ => 0))) letters
      (_mime_parse_mpart_message (ascii "b") (ascii "mixed")
        (canonical (compose (ascii "b") letters fun _ _ _ => 0))) := by
  refine (mpart_found_iff (ascii "b") (ascii "mixed") letters (Nat.le_refl _) ?_ fun _ _ _ => 0).mpr (by decide)
  have header : ∀ part ∈ letters, ∀ line ∈ part.header, line ≠ [] ∧ LF ∉ line := by decide
  have body : ∀ part ∈ letters, ∀ line ∈ part.body.splitOn LF,
      ¬ (line = ascii "--b" ∨ line = ascii "--b--") := by
    decide
  exact fun part member => ⟨header part member, body part member⟩

/-- With a newline in the boundary no part is found. A header line that is not a field, and those behind it, are not
    among the fields of the part. -/
theorem mpart_not_found :
    _mime_parse_mpart_message [LF] (ascii "mixed") (canonical (compose [LF] [⟨[], []⟩, ⟨[], []⟩] fun _ _ _ => 0)) = [] ∧
    (∀ line ∈ ([] : List UInt8).splitOn LF, ¬ Delimiter [LF] line) ∧
    fields (part_header (ascii "mixed") (PartText.block ⟨[ascii "A: 1", ascii "x", ascii "B: 2"], []⟩)) =
      [(ascii "A", ascii "1"), (ascii "Content-Type", ascii "text/plain")] := by
  refine ⟨parse_newline (by decide) _, ?_, by decide⟩
  intro line member
  obtain rfl : line = [] := by simpa using member
  rintro (plain | closing)
  · cases plain
  · cases closing

end Mailutils.MimeParse

import Mailutils.MimeParse

/-!
The parts that `_mime_parse_mpart_message` (`libmailutils/mime/mime.c`) finds in any text, whether it ends
with the closing boundary or is cut off. The length of a part is known when the next boundary line is met. If
none follows, the part is recorded after the loop with the length of the part before it, or of the preamble,
and a header that does not end gives a part at the place of the part before it (`mpart_ranges_iff`).
-/
namespace Mailutils.MimeRanges
open Mailutils.Lines (getlines)
open Mailutils.MimeParse

/-- The text without a newline at its end. -/
def chomp (text : List UInt8) : List UInt8 := if text.getLast? = some LF then text.dropLast else text

/-- The line that begins a part. -/
def opens (boundary line : List UInt8) : Bool := chomp line = [MINUS, MINUS] ++ boundary

/-- The line that ends the last part. -/
def closes (boundary line : List UInt8) : Bool := chomp line = [MINUS, MINUS] ++ boundary ++ [MINUS, MINUS]

def delimits (boundary line : List UInt8) : Bool := opens boundary line || closes boundary line

variable {line : List UInt8}

theorem dropWhile_shorter {p : List UInt8 → Bool} {lines more : List (List UInt8)}
    (found : lines.dropWhile p = line :: more) : more.length < lines.length := by
  have shorter := (List.dropWhile_sublist (l := lines) p).length_le
  rw [found, List.length_cons] at shorter
  exact shorter

/-- The offsets and lengths of the parts in the lines after a boundary line: from behind the empty line that ends the
    header up to the newline before the next boundary line, or up to the end. -/
def bodies (boundary : List UInt8) (offset : Nat) (lines : List (List UInt8)) : List (Nat × Nat) :=
  match _ended : lines.dropWhile (· ≠ [LF]) with
  | [] => []
  | _ :: rest =>
    let start := offset + (lines.takeWhile (· ≠ [LF])).flatten.length + 1
    let body := (rest.takeWhile (!delimits boundary ·)).flatten
    match _next : rest.dropWhile (!delimits boundary ·) with
    | [] => [(start, body.length)]
    | delimiter :: more =>
      (start, (chomp body).length) ::
        if closes boundary delimiter then [] else bodies boundary (start + body.length + delimiter.length) more
termination_by lines.length
decreasing_by exact Nat.lt_trans (dropWhile_shorter _next) (dropWhile_shorter _ended)

/-- The offsets and lengths of the parts of a text. -/
def ranges (boundary text : List UInt8) : List (Nat × Nat) :=
  match (getlines LF text).dropWhile (!delimits boundary ·) with
  | [] => []
  | delimiter :: more =>
    if closes boundary delimiter then []
    else bodies boundary (((getlines LF text).takeWhile (!delimits boundary ·)).flatten.length + delimiter.length) more

/-- No part in the lines after a boundary line is cut off, or it has the length of what is before the boundary
    line. -/
def Whole (boundary : List UInt8) (length : Nat) (lines : List (List UInt8)) : Prop :=
  match _ended : lines.dropWhile (· ≠ [LF]) with
  | [] => lines = []
  | _ :: rest =>
    match _next : rest.dropWhile (!delimits boundary ·) with
    | [] => rest.flatten.length = length
    | delimiter :: more =>
      closes boundary delimiter = true ∨
        Whole boundary (chomp (rest.takeWhile (!delimits boundary ·)).flatten).length more
termination_by lines.length
decreasing_by exact Nat.lt_trans (dropWhile_shorter _next) (dropWhile_shorter _ended)

/-- No part of the text is cut off, or by chance it has the length of what is before it. -/
def NotCut (boundary text : List UInt8) : Prop :=
  match (getlines LF text).dropWhile (!delimits boundary ·) with
  | [] => True
  | delimiter :: more =>
    closes boundary delimiter = true ∨
      Whole boundary (chomp ((getlines LF text).takeWhile (!delimits boundary ·)).flatten).length more

/-- The offset and the length of a part. -/
def rangeOf (part : MimePart) : Nat × Nat := (part.offset, part.len)

/-- The parts lie in the text, in order and one behind the other, each with the range that it should have. -/
structure Partitions (boundary text : List UInt8) (parts : List MimePart) : Prop where
  inside : ∀ part ∈ parts, part.offset + part.len ≤ text.length
  ordered : parts.Pairwise fun part later => part.offset + part.len ≤ later.offset
  range : parts.map rangeOf = ranges boundary text

theorem match_boundary_chomp (boundary line : List UInt8) :
    match_boundary line boundary =
      if opens boundary line then .BOUNDARY_MATCH
      else if closes boundary line then .BOUNDARY_CLOSE
      else .BOUNDARY_NO_MATCH := by
  have same : match_boundary line boundary = match_boundary (chomp line ++ [LF]) boundary := by
    rw [match_boundary, match_boundary, List.getLast?_concat, if_pos rfl, List.dropLast_concat]
    rfl
  rw [same, match_boundary_line]
  simp only [opens, closes, decide_eq_true_eq]

theorem match_none_iff {boundary line : List UInt8} :
    match_boundary line boundary = .BOUNDARY_NO_MATCH ↔ delimits boundary line = false := by
  rw [match_boundary_chomp, delimits]
  cases opens boundary line
  · cases closes boundary line
    · simp
    · simp
  · simp

theorem match_close_iff {boundary line : List UInt8} :
    match_boundary line boundary = .BOUNDARY_CLOSE ↔ closes boundary line = true := by
  have other : opens boundary line = true → closes boundary line = false := by
    intro opened
    rw [opens, decide_eq_true_eq] at opened
    rw [closes, opened]
    simp
  rw [match_boundary_chomp]
  cases opened : opens boundary line
  · simp
  · simp [other opened]

theorem span_cases (p : List UInt8 → Bool) (lines : List (List UInt8)) :
    (∀ line ∈ lines, p line = true) ∨ ∃ front line back, lines = front ++ line :: back ∧
      (∀ line ∈ front, p line = true) ∧ p line = false := by
  induction lines with
  | nil => exact .inl (List.forall_mem_nil _)
  | cons line lines ih =>
    by_cases passed : p line = true
    · rcases ih with all | ⟨front, stop, back, rfl, all, fails⟩
      · exact .inl (List.forall_mem_cons.mpr ⟨passed, all⟩)
      · exact .inr ⟨line :: front, stop, back, rfl, List.forall_mem_cons.mpr ⟨passed, all⟩, fails⟩
    · exact .inr ⟨[], line, lines, rfl, List.forall_mem_nil _, Bool.eq_false_iff.mpr passed⟩

theorem dropWhile_all {p : List UInt8 → Bool} {lines : List (List UInt8)} (all : ∀ line ∈ lines, p line = true) :
    lines.dropWhile p = [] ∧ lines.takeWhile p = lines :=
  ⟨List.dropWhile_eq_nil_iff.mpr all, List.takeWhile_eq_self_iff.mpr all⟩

theorem dropWhile_stop {p : List UInt8 → Bool} {front back : List (List UInt8)} {line : List UInt8}
    (all : ∀ line ∈ front, p line = true) (fails : p line = false) :
    (front ++ line :: back).dropWhile p = line :: back ∧ (front ++ line :: back).takeWhile p = front := by
  have stop : ¬ p line = true := by rw [fails]; exact Bool.false_ne_true
  rw [List.dropWhile_append_of_pos all, List.takeWhile_append_of_pos all, List.dropWhile_cons_of_neg stop,
    List.takeWhile_cons_of_neg stop, List.append_nil]
  exact ⟨rfl, rfl⟩

variable {boundary : List UInt8}

/-- Lines of a header. -/
def NoEmpty (lines : List (List UInt8)) : Prop := ∀ line ∈ lines, line ≠ [LF]

variable (boundary) in
/-- Lines of a body. -/
def NoDelimiter (lines : List (List UInt8)) : Prop := ∀ line ∈ lines, delimits boundary line = false

variable (boundary) in
/-- The lines after a boundary line: a header that does not end, a last body, or a body up to the next boundary
    line. -/
theorem section_induction {motive : List (List UInt8) → Prop}
    (open_ : ∀ header, NoEmpty header → motive header)
    (last : ∀ header body, NoEmpty header → NoDelimiter boundary body → motive (header ++ [LF] :: body))
    (next : ∀ header body delimiter more, NoEmpty header → NoDelimiter boundary body →
      delimits boundary delimiter = true → motive more → motive (header ++ [LF] :: (body ++ delimiter :: more)))
    (lines : List (List UInt8)) : motive lines := by
  induction size : lines.length using Nat.strong_induction_on generalizing lines with
  | _ n ih =>
    subst size
    rcases span_cases (· ≠ [LF]) lines with all | ⟨header, empty, rest, rfl, all, fails⟩
    · exact open_ lines fun line member => of_decide_eq_true (all line member)
    · have header_lines : NoEmpty header := fun line member => of_decide_eq_true (all line member)
      obtain rfl : empty = [LF] := not_not.mp (of_decide_eq_false fails)
      rcases span_cases (!delimits boundary ·) rest with free | ⟨body, delimiter, more, rfl, free, found⟩
      · exact last header rest header_lines fun line member => by simpa using free line member
      · refine next header body delimiter more header_lines (fun line member => by simpa using free line member)
          (by simpa using found) (ih more.length ?_ more rfl)
        simp only [List.length_append, List.length_cons]
        omega

variable {header : List (List UInt8)}

theorem NoEmpty.split (lines : NoEmpty header) (rest : List (List UInt8)) :
    (header ++ [LF] :: rest).dropWhile (· ≠ [LF]) = [LF] :: rest ∧
    (header ++ [LF] :: rest).takeWhile (· ≠ [LF]) = header :=
  dropWhile_stop (fun line member => decide_eq_true (lines line member)) (by simp)

variable {delimiter : List UInt8} {body : List (List UInt8)}

theorem NoDelimiter.split (free : NoDelimiter boundary body)
    (found : delimits boundary delimiter = true) (more : List (List UInt8)) :
    (body ++ delimiter :: more).dropWhile (!delimits boundary ·) = delimiter :: more ∧
    (body ++ delimiter :: more).takeWhile (!delimits boundary ·) = body :=
  dropWhile_stop (fun line member => by simp [free line member]) (by simp [found])

theorem NoDelimiter.all (free : NoDelimiter boundary body) :
    body.dropWhile (!delimits boundary ·) = [] ∧ body.takeWhile (!delimits boundary ·) = body :=
  dropWhile_all fun line member => by simp [free line member]

theorem bodies_open (lines : NoEmpty header) (offset : Nat) :
    bodies boundary offset header = [] := by
  have none := (dropWhile_all fun line member => decide_eq_true (lines line member) : header.dropWhile (· ≠ [LF]) = [] ∧ _).1
  rw [bodies]
  split
  · rfl
  next found => cases none.symm.trans found

theorem bodies_last {header body : List (List UInt8)} (lines : NoEmpty header) (free : NoDelimiter boundary body)
    (offset : Nat) :
    bodies boundary offset (header ++ [LF] :: body) =
      [(offset + header.flatten.length + 1, body.flatten.length)] := by
  obtain ⟨ended, taken⟩ := lines.split body
  rw [bodies]
  split
  next none => cases ended.symm.trans none
  next found =>
    cases ended.symm.trans found
    rw [taken]
    dsimp only
    split
    · rw [free.all.2]
    next none => cases free.all.1.symm.trans none

theorem bodies_next {header body more : List (List UInt8)} (lines : NoEmpty header)
    (free : NoDelimiter boundary body) (found : delimits boundary delimiter = true) (offset : Nat) :
    bodies boundary offset (header ++ [LF] :: (body ++ delimiter :: more)) =
      (offset + header.flatten.length + 1, (chomp body.flatten).length) ::
        if closes boundary delimiter then []
        else bodies boundary (offset + header.flatten.length + 1 + body.flatten.length + delimiter.length) more := by
  obtain ⟨ended, taken⟩ := lines.split (body ++ delimiter :: more)
  obtain ⟨next, before⟩ := free.split found more
  rw [bodies]
  split
  next none => cases ended.symm.trans none
  next at_end =>
    cases ended.symm.trans at_end
    rw [taken]
    dsimp only
    split
    next none => cases next.symm.trans none
    next here =>
      cases next.symm.trans here
      rw [before]

private theorem whole_open (lines : NoEmpty header) (length : Nat) :
    Whole boundary length header ↔ header = [] := by
  have none := (dropWhile_all fun line member => decide_eq_true (lines line member) : header.dropWhile (· ≠ [LF]) = [] ∧ _).1
  rw [Whole]
  split
  · rfl
  next found => cases none.symm.trans found

private theorem whole_last {header body : List (List UInt8)} (lines : NoEmpty header) (free : NoDelimiter boundary body)
    (length : Nat) : Whole boundary length (header ++ [LF] :: body) ↔ body.flatten.length = length := by
  obtain ⟨ended, -⟩ := lines.split body
  rw [Whole]
  split
  next none => cases ended.symm.trans none
  next found =>
    cases ended.symm.trans found
    split
    · rfl
    next none => cases free.all.1.symm.trans none

theorem whole_next {header body more : List (List UInt8)} (lines : NoEmpty header)
    (free : NoDelimiter boundary body) (found : delimits boundary delimiter = true) (length : Nat) :
    Whole boundary length (header ++ [LF] :: (body ++ delimiter :: more)) ↔
      closes boundary delimiter = true ∨ Whole boundary (chomp body.flatten).length more := by
  obtain ⟨ended, -⟩ := lines.split (body ++ delimiter :: more)
  obtain ⟨next, before⟩ := free.split found more
  rw [Whole]
  split
  next none => cases ended.symm.trans none
  next at_end =>
    cases ended.symm.trans at_end
    split
    next none => cases next.symm.trans none
    next here =>
      cases next.symm.trans here
      rw [before]

/-- Lines as they are read: only the last may be without a newline. -/
structure Lined (lines : List (List UInt8)) : Prop where
  filled : ∀ line ∈ lines, line ≠ []
  newline : ∀ line ∈ lines.dropLast, line.getLast? = some LF

theorem Lined.back {front back : List (List UInt8)} (lined : Lined (front ++ back)) : Lined back := by
  refine ⟨fun line member => lined.filled line (List.mem_append_right _ member), fun line member => ?_⟩
  cases back with
  | nil => cases member
  | cons next back =>
    refine lined.newline line ?_
    rw [List.dropLast_append_of_ne_nil (List.cons_ne_nil _ _)]
    exact List.mem_append_right _ member

theorem Lined.front {front back : List (List UInt8)} {next : List UInt8} (lined : Lined (front ++ next :: back)) :
    ∀ line ∈ front, line.getLast? = some LF := by
  intro line member
  refine lined.newline line ?_
  rw [List.dropLast_append_of_ne_nil (List.cons_ne_nil _ _)]
  exact List.mem_append_left _ member

theorem getlines_lined (text : List UInt8) : Lined (getlines LF text) := by
  refine ⟨fun line member => Lines.getlines_ne_nil member, ?_⟩
  induction text using Lines.line_induction LF with
  | last line clean =>
    intro other member
    by_cases empty : line = []
    · rw [empty] at member
      cases member
    · rw [Lines.getlines_last clean empty] at member
      cases member
  | next line rest clean ih =>
    intro other member
    rw [Lines.getlines_next clean] at member
    cases lines : getlines LF rest with
    | nil =>
      rw [lines] at member
      cases member
    | cons second more =>
      rw [lines, List.dropLast_cons_of_ne_nil (List.cons_ne_nil _ _), List.mem_cons] at member
      rcases member with rfl | member
      · exact List.getLast?_concat
      · exact ih other (by rwa [lines])

theorem empty_of_single (ends : line.getLast? = some LF) (single : line.length = 1) : line = [LF] := by
  obtain ⟨c, rfl⟩ := List.length_eq_one_iff.mp single
  rw [show c = LF from Option.some.inj ends]

theorem chomp_length {lines : List (List UInt8)} (ends : ∀ line ∈ lines, line.getLast? = some LF) :
    (chomp lines.flatten).length = lines.flatten.length - 1 := by
  cases lines using List.reverseRecOn with
  | nil => rfl
  | append_singleton front line =>
    have newline := ends line (List.mem_append_right _ List.mem_cons_self)
    have last : (front ++ [line]).flatten.getLast? = some LF := by
      rw [List.flatten_append, List.flatten_singleton, List.getLast?_append, newline]
      rfl
    rw [chomp, if_pos last, List.length_dropLast]

variable {subtype : List UInt8}

theorem header_step {p : Parser} (state : p.parser_state = .MIME_STATE_HEADERS) {line : List UInt8}
    (long : line.length ≠ 1) :
    parse_step boundary subtype p line =
      { p with header_buf := p.header_buf ++ line, cur_offset := p.cur_offset + line.length } := by
  simp only [parse_step, parse_line, state, reduceCtorEq, if_false, long]

theorem header_fold (lines : NoEmpty header)
    (ends : ∀ line ∈ header, line.getLast? = some LF) : ∀ p : Parser, p.parser_state = .MIME_STATE_HEADERS →
    header.foldl (parse_step boundary subtype) p =
      { p with header_buf := p.header_buf ++ header.flatten, cur_offset := p.cur_offset + header.flatten.length } := by
  induction header with
  | nil =>
    intro p _
    simp
  | cons line header ih =>
    intro p state
    obtain ⟨filled, lines⟩ := List.forall_mem_cons.mp lines
    obtain ⟨newline, ends⟩ := List.forall_mem_cons.mp ends
    have step := @header_step boundary subtype p state line fun single => filled (empty_of_single newline single)
    have later := ih lines ends (parse_step boundary subtype p line) (by rw [step]; exact state)
    rw [List.foldl_cons, later, step]
    simp only [List.flatten_cons, List.append_assoc, List.length_append, Nat.add_assoc]

theorem open_header_fold {header : List (List UInt8)} (lines : NoEmpty header) (lined : Lined header) :
    ∀ p : Parser, p.parser_state = .MIME_STATE_HEADERS →
    (header.foldl (parse_step boundary subtype) p).header_buf = p.header_buf ++ header.flatten ∧
    (header.foldl (parse_step boundary subtype) p).mtp_parts = p.mtp_parts := by
  induction header with
  | nil =>
    intro p _
    simp
  | cons line header ih =>
    intro p state
    obtain ⟨filled, lines⟩ := List.forall_mem_cons.mp lines
    by_cases single : line.length = 1
    · cases header with
      | nil => simp [parse_step, parse_line, state, single]
      | cons next header =>
        exact absurd (empty_of_single (lined.newline line List.mem_cons_self) single) filled
    · have step := @header_step boundary subtype p state line single
      have rest_lined : Lined header := (show Lined ([line] ++ header) from lined).back
      obtain ⟨buf, parts⟩ := ih lines rest_lined (parse_step boundary subtype p line) (by rw [step]; exact state)
      rw [List.foldl_cons, buf, parts, step, List.flatten_cons, List.append_assoc]
      exact ⟨rfl, rfl⟩

variable {p : Parser}

theorem empty_step (state : p.parser_state = .MIME_STATE_HEADERS) :
    parse_step boundary subtype p [LF] =
      { p with
        parser_state := .MIME_STATE_SCAN_BOUNDARY
        header_buf := p.header_buf ++ [LF]
        cur_offset := p.cur_offset + 1
        mb_offset := p.cur_offset + 1
        mb_lines := 0 } := by
  simp [parse_step, parse_line, state]

theorem body_fold (free : NoDelimiter boundary body) :
    ∀ p : Parser, p.parser_state = .MIME_STATE_SCAN_BOUNDARY →
    body.foldl (parse_step boundary subtype) p =
      { p with mb_lines := p.mb_lines + body.length, cur_offset := p.cur_offset + body.flatten.length } := by
  induction body with
  | nil =>
    intro p _
    simp
  | cons line body ih =>
    intro p state
    obtain ⟨other, free⟩ := List.forall_mem_cons.mp free
    have step : parse_step boundary subtype p line =
        { p with mb_lines := p.mb_lines + 1, cur_offset := p.cur_offset + line.length } := by
      simp [parse_step, parse_line, state, match_none_iff.mpr other]
    have later := ih free (parse_step boundary subtype p line) (by rw [step]; exact state)
    rw [List.foldl_cons, later, step]
    simp only [List.flatten_cons, List.length_append, List.length_cons, Nat.add_assoc, Nat.add_comm 1]

theorem end_fold (lines : List (List UInt8)) (state : p.parser_state = .MIME_STATE_END) :
    lines.foldl (parse_step boundary subtype) p = p := by
  induction lines with
  | nil => rfl
  | cons line lines ih => rw [List.foldl_cons, parse_step, if_pos state, ih]

theorem found_part {p : Parser} (header : p.header_buf ≠ []) (m : Boundary) :
    ∃ lines, found_boundary subtype p m =
      { p with
        parser_state := if m = .BOUNDARY_CLOSE then .MIME_STATE_END else .MIME_STATE_HEADERS
        header_buf := []
        mb_length := if p.cur_offset = p.mb_offset then 0 else p.cur_offset - p.mb_offset - 1
        mb_lines := lines
        mtp_parts := p.mtp_parts ++ [{
          hdr := part_header subtype p.header_buf
          offset := p.mb_offset
          len := if p.cur_offset = p.mb_offset then 0 else p.cur_offset - p.mb_offset - 1
          lines := lines }] } := by
  refine ⟨if p.mb_lines ≠ 0 then p.mb_lines - 1 else p.mb_lines, ?_⟩
  rw [found_boundary]
  by_cases close : m = .BOUNDARY_CLOSE
  · simp [close, header, _mime_append_part]
  · simp [close, header, _mime_append_part]

theorem found_preamble (no_header : p.header_buf = []) (m : Boundary) :
    found_boundary subtype p m =
      { p with
        parser_state := if m = .BOUNDARY_CLOSE then .MIME_STATE_END else .MIME_STATE_HEADERS
        mb_length := if p.cur_offset = p.mb_offset then 0 else p.cur_offset - p.mb_offset - 1 } := by
  rw [found_boundary]
  by_cases close : m = .BOUNDARY_CLOSE
  · simp [close, no_header]
  · simp [close, no_header]

theorem delimiter_step (state : p.parser_state = .MIME_STATE_SCAN_BOUNDARY)
    (found : delimits boundary line = true) :
    parse_step boundary subtype p line =
      { found_boundary subtype p (match_boundary line boundary) with
        cur_offset := (found_boundary subtype p (match_boundary line boundary)).cur_offset + line.length } := by
  have matched : match_boundary line boundary ≠ .BOUNDARY_NO_MATCH := by
    rw [ne_eq, match_none_iff, found]
    exact Bool.noConfusion
  simp only [parse_step, parse_line, state, reduceCtorEq, if_false, matched, ne_eq, not_false_eq_true, if_true]

variable (subtype) in
/-- What is recorded after the loop. -/
def finish (p : Parser) : List MimePart :=
  if p.header_buf ≠ [] then _mime_append_part subtype p.header_buf p.mtp_parts p.mb_offset p.mb_length p.mb_lines
  else p.mtp_parts

theorem part_fold {header body more : List (List UInt8)} (header_lines : NoEmpty header)
    (free : NoDelimiter boundary body) (found : delimits boundary delimiter = true)
    (lined : Lined (header ++ [LF] :: (body ++ delimiter :: more)))
    (state : p.parser_state = .MIME_STATE_HEADERS) :
    ∃ q part, (header ++ [LF] :: (body ++ delimiter :: more)).foldl (parse_step boundary subtype) p =
        more.foldl (parse_step boundary subtype) q ∧
      q.parser_state = (if closes boundary delimiter then .MIME_STATE_END else .MIME_STATE_HEADERS) ∧
      q.header_buf = [] ∧
      q.cur_offset = p.cur_offset + header.flatten.length + 1 + body.flatten.length + delimiter.length ∧
      q.mb_length = (chomp body.flatten).length ∧ q.mtp_parts = p.mtp_parts ++ [part] ∧
      rangeOf part = (p.cur_offset + header.flatten.length + 1, (chomp body.flatten).length) := by
  have body_lined : Lined (body ++ delimiter :: more) :=
    (show Lined ((header ++ [[LF]]) ++ (body ++ delimiter :: more)) by simpa using lined).back
  have length (start : Nat) : (if start + body.flatten.length = start then 0
      else start + body.flatten.length - start - 1) = (chomp body.flatten).length := by
    rw [chomp_length body_lined.front]
    split <;> omega
  rw [List.foldl_append, List.foldl_cons, List.foldl_append, List.foldl_cons,
    header_fold header_lines lined.front p state, empty_step (by exact state), body_fold free _ (by rfl),
    delimiter_step (by rfl) found]
  generalize reached : ({ p with
    parser_state := .MIME_STATE_SCAN_BOUNDARY
    header_buf := p.header_buf ++ header.flatten ++ [LF]
    cur_offset := p.cur_offset + header.flatten.length + 1 + body.flatten.length
    mb_offset := p.cur_offset + header.flatten.length + 1
    mb_lines := 0 + body.length } : Parser) = q
  have read : q.header_buf ≠ [] := by
    rw [← reached]
    exact List.append_ne_nil_of_right_ne_nil _ (List.cons_ne_nil _ _)
  obtain ⟨count, recorded⟩ := @found_part subtype q read (match_boundary delimiter boundary)
  have len : (if q.cur_offset = q.mb_offset then 0 else q.cur_offset - q.mb_offset - 1) =
      (chomp body.flatten).length := by
    rw [← length, ← reached]
  rw [recorded, len]
  refine ⟨_, ⟨part_header subtype q.header_buf, q.mb_offset, (chomp body.flatten).length, count⟩, rfl, ?_, rfl,
    ?_, rfl, ?_, ?_⟩
  · exact if_congr match_close_iff rfl rfl
  · rw [← reached]
  · rw [← reached]
  · rw [← reached]
    rfl

/-- The parts after a boundary line have their ranges exactly if none is cut off. -/
theorem sections_found (lines : List (List UInt8)) : Lined lines → ∀ p : Parser,
    p.parser_state = .MIME_STATE_HEADERS → p.header_buf = [] →
    ∃ tail, finish subtype (lines.foldl (parse_step boundary subtype) p) = p.mtp_parts ++ tail ∧
      (tail.map rangeOf = bodies boundary p.cur_offset lines ↔ Whole boundary p.mb_length lines) := by
  induction lines using section_induction boundary with
  | open_ header header_lines =>
    intro lined p state no_header
    obtain ⟨buf, parts⟩ := @open_header_fold boundary subtype header header_lines lined p state
    rw [bodies_open header_lines, whole_open header_lines, finish, buf, parts, no_header, List.nil_append]
    by_cases read : header = []
    · exact ⟨[], by simp [read], by simp [read]⟩
    · have some : header.flatten ≠ [] := by
        obtain ⟨line, more, rfl⟩ := List.exists_cons_of_ne_nil read
        exact List.append_ne_nil_of_left_ne_nil (lined.filled line List.mem_cons_self) _
      rw [if_pos some]
      exact ⟨_, rfl, iff_of_false (List.cons_ne_nil _ _) read⟩
  | last header body header_lines free =>
    intro lined p state no_header
    rw [bodies_last header_lines free, whole_last header_lines free, List.foldl_append, List.foldl_cons,
      header_fold header_lines lined.front p state, empty_step (by exact state), body_fold free _ (by rfl), finish]
    dsimp only
    rw [if_pos (List.append_ne_nil_of_right_ne_nil _ (List.cons_ne_nil _ _))]
    refine ⟨_, rfl, ?_⟩
    rw [List.map_singleton, List.singleton_inj, rangeOf, Prod.mk.injEq]
    exact ⟨fun same => same.2.symm, fun same => ⟨rfl, same.symm⟩⟩
  | next header body delimiter more header_lines free found ih =>
    intro lined p state no_header
    obtain ⟨q, part, folded, q_state, q_header, offset, length, parts, range⟩ :=
      part_fold header_lines free found lined state
    rw [bodies_next header_lines free found, whole_next header_lines free found, folded]
    by_cases close : closes boundary delimiter = true
    · rw [if_pos close] at q_state ⊢
      rw [end_fold more q_state, finish, if_neg (not_not.mpr q_header), parts]
      refine ⟨[part], rfl, iff_of_true ?_ (.inl close)⟩
      rw [List.map_singleton, range]
    · rw [if_neg close] at q_state ⊢
      have rest_lined : Lined more :=
        (show Lined ((header ++ [LF] :: (body ++ [delimiter])) ++ more) by simpa using lined).back
      obtain ⟨tail, later, ranges⟩ := ih rest_lined q q_state q_header
      rw [length, offset] at ranges
      refine ⟨part :: tail, ?_, ?_⟩
      · rw [later, parts, List.append_assoc]
        rfl
      · rw [List.map_cons, range, List.cons_inj_right, ranges]
        exact (or_iff_right close).symm

theorem bodies_inside (lines : List (List UInt8)) : ∀ offset : Nat,
    (∀ r ∈ bodies boundary offset lines, offset ≤ r.1 ∧ r.1 + r.2 ≤ offset + lines.flatten.length) ∧
    (bodies boundary offset lines).Pairwise fun r later => r.1 + r.2 ≤ later.1 := by
  induction lines using section_induction boundary with
  | open_ header header_lines =>
    intro offset
    rw [bodies_open header_lines]
    exact ⟨List.forall_mem_nil _, .nil⟩
  | last header body header_lines free =>
    intro offset
    rw [bodies_last header_lines free]
    refine ⟨?_, List.pairwise_singleton _ _⟩
    simp
    omega
  | next header body delimiter more header_lines free found ih =>
    intro offset
    have shorter : (chomp body.flatten).length ≤ body.flatten.length := by
      rw [chomp]
      split
      · rw [List.length_dropLast]
        exact Nat.sub_le _ _
      · exact Nat.le_refl _
    have total : (header ++ [LF] :: (body ++ delimiter :: more)).flatten.length =
        header.flatten.length + 1 + body.flatten.length + delimiter.length + more.flatten.length := by
      simp
      omega
    obtain ⟨inside, ordered⟩ := ih (offset + header.flatten.length + 1 + body.flatten.length + delimiter.length)
    rw [bodies_next header_lines free found, total]
    split
    · refine ⟨List.forall_mem_singleton.mpr ⟨?_, ?_⟩, List.pairwise_singleton _ _⟩
      · dsimp only
        omega
      · dsimp only
        omega
    · refine ⟨List.forall_mem_cons.mpr ⟨⟨?_, ?_⟩, fun r member => ?_⟩, List.pairwise_cons.mpr ⟨fun r member => ?_, ordered⟩⟩
      · dsimp only
        omega
      · dsimp only
        omega
      · have := inside r member
        omega
      · have := inside r member
        dsimp only
        omega

theorem ranges_inside (boundary text : List UInt8) :
    (∀ r ∈ ranges boundary text, r.1 + r.2 ≤ text.length) ∧
    (ranges boundary text).Pairwise fun r later => r.1 + r.2 ≤ later.1 := by
  have whole := Lines.getlines_flatten LF text
  rw [ranges]
  rcases span_cases (!delimits boundary ·) (getlines LF text) with all | ⟨preamble, delimiter, more, split, free, found⟩
  · rw [(dropWhile_all all).1]
    exact ⟨List.forall_mem_nil _, .nil⟩
  · rw [split] at whole ⊢
    obtain ⟨rest, before⟩ := @dropWhile_stop _ preamble more delimiter free found
    rw [rest, before]
    dsimp only
    split
    · exact ⟨List.forall_mem_nil _, .nil⟩
    · obtain ⟨inside, ordered⟩ := @bodies_inside boundary more (preamble.flatten.length + delimiter.length)
      refine ⟨fun r member => ?_, ordered⟩
      have bound := (inside r member).2
      rw [← whole, List.flatten_append, List.length_append, List.flatten_cons, List.length_append]
      omega

theorem parse_eq_finish (boundary subtype text : List UInt8) :
    _mime_parse_mpart_message boundary subtype text =
      finish subtype ((getlines LF text).foldl (parse_step boundary subtype) {}) := rfl

/-- The ranges that are found are those of the parts exactly if no part is cut off. -/
theorem found_ranges_iff (boundary subtype text : List UInt8) :
    (_mime_parse_mpart_message boundary subtype text).map rangeOf = ranges boundary text ↔ NotCut boundary text := by
  have lined := getlines_lined text
  rw [parse_eq_finish, ranges, NotCut]
  rcases span_cases (!delimits boundary ·) (getlines LF text) with all | ⟨preamble, delimiter, more, split, all, fails⟩
  · have free : NoDelimiter boundary (getlines LF text) := fun line member => by simpa using all line member
    rw [body_fold free {} rfl, (dropWhile_all all).1]
    exact iff_of_true rfl trivial
  · have free : NoDelimiter boundary preamble := fun line member => by simpa using all line member
    have found : delimits boundary delimiter = true := by simpa using fails
    rw [split] at lined ⊢
    obtain ⟨rest, before⟩ := free.split found more
    have length : (if 0 + preamble.flatten.length = 0 then 0 else 0 + preamble.flatten.length - 0 - 1) =
        (chomp preamble.flatten).length := by
      rw [chomp_length lined.front]
      split <;> omega
    rw [rest, before, List.foldl_append, List.foldl_cons, body_fold free {} rfl, delimiter_step (by rfl) found,
      found_preamble (by rfl), length, if_congr match_close_iff rfl rfl]
    dsimp only
    by_cases close : closes boundary delimiter = true
    · rw [if_pos close, if_pos close, end_fold more rfl]
      exact iff_of_true rfl (.inl close)
    · have rest_lined : Lined more :=
        (show Lined ((preamble ++ [delimiter]) ++ more) by simpa using lined).back
      rw [if_neg close, if_neg close, or_iff_right close]
      generalize reached : ({
        parser_state := .MIME_STATE_HEADERS
        cur_offset := 0 + preamble.flatten.length + delimiter.length
        mb_length := (chomp preamble.flatten).length
        mb_lines := 0 + preamble.length } : Parser) = q
      obtain ⟨tail, later, same⟩ :=
        @sections_found boundary subtype more rest_lined q (by rw [← reached]) (by rw [← reached])
      rw [← reached, Nat.zero_add] at same
      rw [later, ← reached]
      exact same

/-- The parts that are found partition the text exactly if no part is cut off. -/
theorem mpart_ranges_iff (boundary subtype text : List UInt8) :
    Partitions boundary text (_mime_parse_mpart_message boundary subtype text) ↔ NotCut boundary text := by
  rw [← found_ranges_iff boundary subtype text]
  obtain ⟨inside, ordered⟩ := ranges_inside boundary text
  constructor
  · exact Partitions.range
  · intro same
    rw [← same] at inside ordered
    exact ⟨fun part member => inside _ (List.mem_map_of_mem member), List.pairwise_map.mp ordered, same⟩

/-- A body that is cut off is recorded with the length of the preamble, and a header that is cut off with the
    range of the part before it. -/
theorem mpart_cut_off :
    (_mime_parse_mpart_message (ascii "b") (ascii "mixed") (ascii "--b\n\nhello")).map rangeOf = [(5, 0)] ∧
    ranges (ascii "b") (ascii "--b\n\nhello") = [(5, 5)] ∧
    ¬ Partitions (ascii "b") (ascii "--b\n\nhello")
      (_mime_parse_mpart_message (ascii "b") (ascii "mixed") (ascii "--b\n\nhello")) ∧
    (_mime_parse_mpart_message (ascii "b") (ascii "mixed") (ascii "--b\n\na\n--b\nX: 1\n")).map rangeOf =
      [(5, 1), (5, 1)] := by
  have found : (_mime_parse_mpart_message (ascii "b") (ascii "mixed") (ascii "--b\n\nhello")).map rangeOf = [(5, 0)] := by
    decide
  have lines : getlines LF (ascii "--b\n\nhello") = [ascii "--b\n", [LF], ascii "hello"] := by decide
  have range : ranges (ascii "b") (ascii "--b\n\nhello") = [(5, 5)] := by
    rw [ranges, lines]
    exact @bodies_last (ascii "b") [] [ascii "hello"] (List.forall_mem_nil _) (by unfold NoDelimiter; decide) 4
  refine ⟨found, range, fun parts => ?_, by decide⟩
  have same := parts.range
  rw [range] at same
  cases found.symm.trans same

end Mailutils.MimeRanges

import Mailutils.MimeBody

/-!
Going back to the beginning of the body stream of a composed MIME message (`libmailutils/mime/mime.c`). A
seek to the offset 0 sets the offsets and the number of the part back, but neither the counters of a delimiter
nor the part that is open. So the text is complete again only where the reader stopped between delimiters and
parts, or where what it left open happens to look like the beginning of the text (`rewind_reads_iff`).
-/
namespace Mailutils.MimeRewind
open Mailutils.MimeBody

/-- `struct _mime_body_stream`: the stream has no buffer. -/
structure BodyStream where
  offset : Nat := 0
  /-- `_MU_STR_EOF` -/
  eof : Bool := false
  state : State

def create_mime_body_stream (mime : Mime) : BodyStream where
  state := mime_reset_state mime {}

/-- `_mime_body_stream_seek` to the offset 0. -/
def _mime_body_stream_seek (mime : Mime) (s : State) : State := mime_reset_state mime s

/-- `mu_stream_read` on a stream without a buffer. -/
def mu_stream_read (mime : Mime) (str : BodyStream) (size : Nat) : BodyStream × List UInt8 :=
  if str.eof ∨ size = 0 then (str, [])
  else
    let (state, out) := _mime_body_stream_read mime str.state size
    ({ offset := str.offset + out.length, eof := out = [], state }, out)

/-- `mu_stream_seek` to the offset 0; at the offset 0 the stream is not asked to seek. -/
def mu_stream_seek (mime : Mime) (str : BodyStream) : BodyStream :=
  if str.offset = 0 then { str with eof := false } else { state := _mime_body_stream_seek mime str.state }

/-- What one read after the other gives. -/
def readAll (mime : Mime) : BodyStream → List Nat → List (List UInt8)
  | _, [] => []
  | str, size :: sizes => (mu_stream_read mime str size).2 :: readAll mime (mu_stream_read mime str size).1 sizes

/-- The stream after reads of these sizes. -/
def afterReads (mime : Mime) (str : BodyStream) (sizes : List Nat) : BodyStream :=
  sizes.foldl (fun str size => (mu_stream_read mime str size).1) str

/-- Nothing was read yet, or nothing was left open that differs from the beginning of the text. -/
def Rewindable (mime : Mime) (str : BodyStream) : Prop :=
  str.offset = 0 ∨
    match mime.mtp_parts with
    | [] => True
    | [_] => str.state.part_stream = none
    | first :: _ =>
      (str.state.adding_boundary = true → str.state.delimiter mime = [MINUS, MINUS] ++ mime.boundary) ∧
      ∀ opened ∈ str.state.part_stream, part_text mime opened.1 = first.text

/-- So much of the text was read. -/
structure Reading (mime : Mime) (fresh : Bool) (text : List UInt8) (str : BodyStream) : Prop where
  sound : str.state.Sound mime fresh
  offset : str.offset ≤ text.length
  rest : remaining mime str.state = text.drop str.offset
  eof : str.eof = true → text.drop str.offset = []

section
variable {mime : Mime} {fresh : Bool} {text : List UInt8} {str : BodyStream}

theorem Reading.read (reading : Reading mime fresh text str) (size : Nat) :
    Reading mime fresh text (mu_stream_read mime str size).1 ∧
    (mu_stream_read mime str size).2 = (text.drop str.offset).take size ∧
    text.drop (mu_stream_read mime str size).1.offset = (text.drop str.offset).drop size := by
  rw [mu_stream_read]
  by_cases nothing : str.eof = true ∨ size = 0
  · rw [if_pos nothing]
    rcases nothing with ended | rfl
    · rw [reading.eof ended]
      exact ⟨reading, by simp, by simp⟩
    · exact ⟨reading, by simp, by simp⟩
  · obtain ⟨sound, given, rest⟩ := read_spec reading.sound size
    rw [if_neg nothing]
    generalize _mime_body_stream_read mime str.state size = result at sound given rest
    obtain ⟨state, out⟩ := result
    dsimp only at sound given rest ⊢
    rw [reading.rest] at given rest
    have length : out.length = min size (text.length - str.offset) := by rw [given, List.length_take, List.length_drop]
    have dropped : text.drop (str.offset + out.length) = (text.drop str.offset).drop size := by
      rw [← List.drop_drop, length, ← List.length_drop]
      exact List.drop_eq_drop_min.symm
    refine ⟨⟨sound, ?_, by rw [rest, dropped], fun ended => ?_⟩, given, dropped⟩
    · have bound := reading.offset
      dsimp only
      omega
    · -- a read that gives nothing is at the end
      rw [of_decide_eq_true ended] at given ⊢
      have size_pos : size ≠ 0 := fun zero => nothing (.inr zero)
      exact (List.take_eq_nil_iff.mp given.symm).resolve_left size_pos

theorem Reading.after (reading : Reading mime fresh text str) (sizes : List Nat) :
    Reading mime fresh text (afterReads mime str sizes) := by
  induction sizes generalizing str with
  | nil => exact reading
  | cons size sizes ih => exact ih (reading.read size).1

theorem Reading.readAll (reading : Reading mime fresh text str) (sizes : List Nat) :
    readAll mime str sizes = pieces (text.drop str.offset) sizes := by
  induction sizes generalizing str with
  | nil => rfl
  | cons size sizes ih =>
    obtain ⟨next, given, rest⟩ := reading.read size
    rw [MimeRewind.readAll, pieces, given, ih next, rest]
end

private theorem created_reading (mime : Mime) : Reading mime true (canonical mime) (create_mime_body_stream mime) := by
  obtain ⟨sound, text⟩ := reset_sound mime
  exact ⟨sound, Nat.zero_le _, text, fun eof => absurd eof Bool.false_ne_true⟩

theorem pieces_inj {text other : List UInt8} (same : ∀ sizes, pieces text sizes = pieces other sizes) : text = other := by
  have whole := (List.cons.inj (same [max text.length other.length])).1
  rwa [List.take_of_length_le (Nat.le_max_left ..), List.take_of_length_le (Nat.le_max_right ..)] at whole

theorem reset_keeps_sound {mime : Mime} {fresh : Bool} {s : State} (sound : s.Sound mime fresh) :
    (_mime_body_stream_seek mime s).Sound mime false := by
  rw [State.Sound] at sound ⊢
  rcases parts : mime.mtp_parts with _ | ⟨first, _ | ⟨second, more⟩⟩
  · trivial
  · trivial
  · simp only [parts] at sound ⊢
    have two : nmtp_parts mime > 1 := by
      rw [nmtp_parts, parts]
      simp
    rw [_mime_body_stream_seek, mime_reset_state, if_pos two]
    exact ⟨Nat.zero_le _, sound.idle, fun adding => ⟨rfl, (sound.adding adding).2⟩, fun _ => Nat.zero_lt_of_lt two,
      fun never => absurd never (by decide)⟩

/-- With several parts, what is to come after going back is the text exactly if the delimiter that is left is a whole
    one and the part that is open has the text of the first one. -/
theorem reset_rest_iff {mime : Mime} {first second : Part} {more : List Part}
    (parts : mime.mtp_parts = first :: second :: more) {s : State} (ok : s.Ok mime true) :
    (_mime_body_stream_seek mime s).rest mime = multipart mime.boundary (first :: second :: more) ↔
      (s.adding_boundary = true → s.delimiter mime = [MINUS, MINUS] ++ mime.boundary) ∧
      ∀ opened ∈ s.part_stream, part_text mime opened.1 = first.text := by
  have two : nmtp_parts mime > 1 := by
    rw [nmtp_parts, parts]
    simp
  have first_text : part_text mime 0 = first.text := by
    rw [part_text, parts]
    rfl
  have source : (_mime_body_stream_seek mime s).source = (s.part_stream.map Prod.fst).getD 0 := by
    rw [_mime_body_stream_seek, mime_reset_state, State.source]
    cases s.part_stream <;> rfl
  have tail : fromPart mime (_mime_body_stream_seek mime s) 0 =
      part_text mime ((s.part_stream.map Prod.fst).getD 0) ++ LF :: multipart mime.boundary (second :: more) := by
    rw [fromPart, source]
    have all : mime.mtp_parts.drop (_mime_body_stream_seek mime s).cur_part = first :: second :: more := parts
    rw [all]
    rfl
  have insert : (_mime_body_stream_seek mime s).insert_boundary = true := by
    rw [_mime_body_stream_seek, mime_reset_state]
    exact if_pos two
  have text : multipart mime.boundary (first :: second :: more) =
      [MINUS, MINUS] ++ mime.boundary ++ LF :: (first.text ++ LF :: multipart mime.boundary (second :: more)) := by
    simp [multipart]
  rw [State.rest, if_pos insert, tail, text]
  by_cases adding : s.adding_boundary = true
  · -- no part is open in a delimiter
    have closed := ok.closed rfl (ok.adding adding).1
    have same : (_mime_body_stream_seek mime s).delimiter mime = s.delimiter mime := by
      rw [State.delimiter, State.delimiter, if_pos adding]
      exact if_pos adding
    rw [closed, Option.map_none, Option.getD_none, first_text, same, List.append_cancel_right_eq]
    exact ⟨fun left => ⟨fun _ => left, fun _ none => absurd none (by simp)⟩, fun left => left.1 adding⟩
  · have whole : (_mime_body_stream_seek mime s).delimiter mime = [MINUS, MINUS] ++ mime.boundary := by
      rw [State.delimiter, if_neg (show ¬ (_mime_body_stream_seek mime s).adding_boundary = true from adding),
        if_neg (show (_mime_body_stream_seek mime s).cur_part ≠ nmtp_parts mime from
          Nat.ne_of_lt (Nat.zero_lt_of_lt two))]
      simp
    rw [whole, List.append_cancel_left_eq, List.cons_inj_right, List.append_cancel_right_eq]
    cases s.part_stream with
    | none => exact iff_of_true first_text ⟨fun here => absurd here adding, fun _ none => absurd none (by simp)⟩
    | some opened =>
      refine ⟨fun same => ⟨fun here => absurd here adding, ?_⟩, fun same => same.2 opened rfl⟩
      rintro _ ⟨⟩
      exact same

theorem reset_single_iff {mime : Mime} {part : Part} (parts : mime.mtp_parts = [part]) {str : BodyStream}
    (reading : Reading mime true part.body str) (some_read : str.offset ≠ 0) :
    restSingle part.body (_mime_body_stream_seek mime str.state) = part.body ↔ str.state.part_stream = none := by
  have rest := reading.rest
  simp only [remaining, parts, restSingle] at rest
  have stream : (_mime_body_stream_seek mime str.state).part_stream = str.state.part_stream := rfl
  rw [restSingle, stream]
  cases opened : str.state.part_stream with
  | none => exact iff_of_true (if_neg (show ¬ 0 ≥ 1 by decide)) rfl
  | some source =>
    rw [opened] at rest
    refine iff_of_false (fun same => ?_) (Option.some_ne_none _)
    have shorter := congrArg List.length (rest.symm.trans same)
    have bound := reading.offset
    rw [List.length_drop] at shorter
    omega

/-- After a seek to the beginning the text is read again from its first byte exactly if the stream is
    `Rewindable`. -/
theorem rewind_reads_iff (mime : Mime) (sizes : List Nat) :
    (∀ again, readAll mime (mu_stream_seek mime (afterReads mime (create_mime_body_stream mime) sizes)) again =
      pieces (canonical mime) again) ↔
    Rewindable mime (afterReads mime (create_mime_body_stream mime) sizes) := by
  have reading := (created_reading mime).after sizes
  generalize afterReads mime (create_mime_body_stream mime) sizes = str at reading ⊢
  rw [Rewindable, mu_stream_seek]
  by_cases start : str.offset = 0
  · have again : Reading mime true (canonical mime) { str with eof := false } :=
      ⟨reading.sound, reading.offset, reading.rest, fun eof => absurd eof Bool.false_ne_true⟩
    rw [if_pos start]
    refine iff_of_true (fun sizes => ?_) (.inl start)
    rw [again.readAll, start, List.drop_zero]
  · have again : Reading mime false (remaining mime (_mime_body_stream_seek mime str.state))
        { state := _mime_body_stream_seek mime str.state } :=
      ⟨reset_keeps_sound reading.sound, Nat.zero_le _, rfl, fun eof => absurd eof Bool.false_ne_true⟩
    have texts : (∀ sizes, readAll mime { state := _mime_body_stream_seek mime str.state } sizes =
        pieces (canonical mime) sizes) ↔ remaining mime (_mime_body_stream_seek mime str.state) = canonical mime := by
      constructor
      · intro same
        refine pieces_inj fun sizes => ?_
        rw [← same, again.readAll]
        rfl
      · intro same sizes
        rw [again.readAll, same]
        rfl
    rw [if_neg start, texts, or_iff_right start, remaining, canonical]
    rcases parts : mime.mtp_parts with _ | ⟨first, _ | ⟨second, more⟩⟩
    · exact iff_of_true rfl trivial
    · rw [canonical, parts] at reading
      exact reset_single_iff parts reading start
    · have ok := reading.sound
      simp only [State.Sound, parts] at ok
      exact reset_rest_iff parts ok

/-- A message of two parts, and one of a single part. -/
def twoParts : Mime := ⟨ascii "b", [⟨ascii "x", []⟩, ⟨ascii "yz", []⟩], fun _ _ _ => 0⟩
def onePart : Mime := ⟨[], [⟨[], ascii "hi"⟩], fun _ _ _ => 0⟩

/-- Two parts, read up to the second dash or into the second part, and a single part, read up to its second
    character. -/
theorem rewind_differs :
    canonical twoParts = ascii "--b\nx\n--b\nyz\n--b--\n" ∧
    readAll twoParts (mu_stream_seek twoParts (afterReads twoParts (create_mime_body_stream twoParts) [1])) [40] =
      [ascii "-b\nx\n--b\nyz\n--b--\n"] ∧
    readAll twoParts (mu_stream_seek twoParts (afterReads twoParts (create_mime_body_stream twoParts) [11])) [40] =
      [ascii "--b\nyz\n--b\nyz\n--b--\n"] ∧
    canonical onePart = ascii "hi" ∧
    readAll onePart (mu_stream_seek onePart (afterReads onePart (create_mime_body_stream onePart) [1])) [40] =
      [ascii "i"] := by
  decide

end Mailutils.MimeRewind

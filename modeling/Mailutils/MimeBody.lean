import Mailutils.Filter
import Mathlib.Data.List.TakeDrop

/-!
The body stream of a composed MIME message (`libmailutils/mime/mime.c`). The reader can be stopped
after every byte, also inside of a delimiter; how far it came is in two flags and five counters. For
each state there is the text that is still to come (`State.rest`), and a read gives its first bytes,
as many as asked for, and leaves the others (`read_spec`). So however it is read, a new object gives
its canonical text, whose length is the size that `_mime_part_size` computes.
-/
namespace Mailutils.MimeBody

/-- A part, by the text of the message and the text of its body, as they are once `_mime_set_content_type` has
    run; `mu_message_size` and `mu_body_size` give the lengths of these texts. -/
structure Part where
  text : List UInt8
  body : List UInt8

/-- `struct _mu_mime`, the fields that a read does not change, and how many bytes the stream of a part
    gives at an offset when so many are asked for. -/
structure Mime where
  boundary : List UInt8
  mtp_parts : List Part
  chunk : Nat → Nat → Nat → Nat

/-- The fields that it changes. -/
structure State where
  /-- `MIME_INSERT_BOUNDARY` -/
  insert_boundary : Bool := false
  /-- `MIME_ADDING_BOUNDARY` -/
  adding_boundary : Bool := false
  cur_offset : Nat := 0
  cur_part : Nat := 0
  part_offset : Nat := 0
  boundary_len : Nat := 0
  preamble : Nat := 0
  postamble : Nat := 0
  /-- The part that is open, and how far its stream was read. -/
  part_stream : Option (Nat × Nat) := none

def nmtp_parts (mime : Mime) : Nat := mime.mtp_parts.length

def _mime_part_size (mime : Mime) : Nat :=
  match mime.mtp_parts with
  | [] => 0
  | [part] => part.body.length
  | parts =>
    let boundary_len := mime.boundary.length
    (parts.foldl (fun total part => total + (part.text.length + boundary_len + 4)) (boundary_len + 3)) + 2

def mime_reset_state (mime : Mime) (s : State) : State :=
  { s with
    cur_offset := 0
    cur_part := 0
    part_offset := 0
    insert_boundary := if nmtp_parts mime > 1 then true else s.insert_boundary }

/-- The function goes on, or it returns because the buffer is full. -/
inductive Flow where
  | full (s : State) (out : List UInt8)
  | go (s : State) (out : List UInt8) (buflen : Nat)

def Flow.bind : Flow → (State → List UInt8 → Nat → Flow) → Flow
  | .full s out, _ => .full s out
  | .go s out buflen, next => next s out buflen

def ADD_CHAR (c : UInt8) (s : State) (out : List UInt8) (buflen : Nat) : Flow :=
  let s := { s with cur_offset := s.cur_offset + 1 }
  if buflen - 1 = 0 then .full s (out ++ [c]) else .go s (out ++ [c]) (buflen - 1)

/-- `while (counter) { counter--; ADD_CHAR (char); }` -/
def drain (set : State → Nat → State) (char : Nat → UInt8) : Nat → State → List UInt8 → Nat → Flow
  | 0, s, out, buflen => .go s out buflen
  | n + 1, s, out, buflen => (ADD_CHAR (char n) (set s n) out buflen).bind (drain set char n)

def add_preamble (s : State) : List UInt8 → Nat → Flow :=
  drain (fun s n => { s with preamble := n }) (fun _ => MINUS) s.preamble s

def add_boundary (mime : Mime) (s : State) : List UInt8 → Nat → Flow :=
  drain (fun s n => { s with boundary_len := n })
    (fun n => mime.boundary.getD (mime.boundary.length - (n + 1)) 0) s.boundary_len s

def add_postamble (s : State) : List UInt8 → Nat → Flow :=
  drain (fun s n => { s with postamble := n }) (fun _ => MINUS) s.postamble s

/-- The counters at the beginning of a delimiter. -/
def start_boundary (mime : Mime) (s : State) : State :=
  if s.adding_boundary then s
  else
    { s with
      boundary_len := mime.boundary.length
      preamble := 2
      postamble := if s.cur_part = nmtp_parts mime then 2 else s.postamble
      adding_boundary := true }

/-- The branch for `MIME_INSERT_BOUNDARY`. -/
def insert_delimiter (mime : Mime) (s : State) (out : List UInt8) (buflen : Nat) : Flow :=
  (((add_preamble (start_boundary mime s) out buflen).bind (add_boundary mime)).bind add_postamble).bind
    fun s out buflen =>
      ADD_CHAR LF { s with insert_boundary := false, adding_boundary := false, part_offset := 0 } out buflen

/-- `mu_stream_read` on the stream of a part: at least one byte where there is one. -/
def stream_read (mime : Mime) (part : Nat) (text : List UInt8) (offset buflen : Nat) : List UInt8 :=
  (text.drop offset).take (1 + mime.chunk part offset buflen % buflen)

/-- The text of a part. -/
def part_text (mime : Mime) (part : Nat) : List UInt8 := ((mime.mtp_parts[part]?).map Part.text).getD []

/-- So many bytes of the part that is open were read. -/
def advance (s : State) (part_nbytes : Nat) : State :=
  { s with
    part_offset := s.part_offset + part_nbytes
    cur_offset := s.cur_offset + part_nbytes
    part_stream := s.part_stream.map fun (part, pos) => (part, pos + part_nbytes) }

/-- The end of a part: a delimiter comes next. -/
def end_part (s : State) : State := { s with part_stream := none, insert_boundary := true, cur_part := s.cur_part + 1 }

/-- The loop that reads from a part; at its end the newline, and a delimiter comes next. -/
def read_part (mime : Mime) : Nat → State → List UInt8 → Nat → Flow
  | 0, s, out, buflen => .go s out buflen
  | fuel + 1, s, out, buflen =>
    match s.part_stream with
    | none => .go s out buflen
    | some (part, pos) =>
      if buflen = 0 then .go s out buflen
      else
        let got := stream_read mime part (part_text mime part) pos buflen
        if got ≠ [] then
          read_part mime fuel (advance s got.length) (out ++ got) (buflen - got.length)
        else ADD_CHAR LF (end_part s) out buflen

/-- The part that is open, or that is opened now, if there is one; its stream is set to `part_offset`. -/
def open_part (mime : Mime) (s : State) : Option State :=
  match s.part_stream with
  | some (part, _) => some { s with part_stream := some (part, s.part_offset) }
  | none =>
    if s.cur_part ≥ nmtp_parts mime then none else some { s with part_stream := some (s.cur_part, s.part_offset) }

/-- The loop for two or more parts, with at most so many rounds. -/
def read_parts (mime : Mime) : Nat → State → List UInt8 → Nat → State × List UInt8
  | 0, s, out, _ => (s, out)
  | fuel + 1, s, out, buflen =>
    if buflen = 0 then (s, out)
    else
      match if s.insert_boundary then insert_delimiter mime s out buflen else .go s out buflen with
      | .full s out => (s, out)
      | .go s out buflen =>
        match open_part mime s with
        | none => (s, out)
        | some opened =>
          match read_part mime (buflen + 1) opened out buflen with
          | .full s out => (s, out)
          | .go s out buflen =>
            if s.cur_part ≤ nmtp_parts mime then read_parts mime fuel s out buflen else (s, out)

/-- The loop for a single part. -/
def read_single (mime : Mime) (body : List UInt8) : Nat → State → List UInt8 → Nat → State × List UInt8
  | 0, s, out, _ => (s, out)
  | fuel + 1, s, out, buflen =>
    match s.part_stream with
    | none => (s, out)
    | some (part, pos) =>
      if buflen = 0 then (s, out)
      else
        let got := stream_read mime part body pos buflen
        if got ≠ [] then
          read_single mime body fuel (advance s got.length) (out ++ got) (buflen - got.length)
        else ({ s with part_stream := none, cur_part := s.cur_part + 1 }, out)

/-- `_mime_body_stream_read`, after the content type was set: the new state and the bytes in the buffer. -/
def _mime_body_stream_read (mime : Mime) (s : State) (buflen : Nat) : State × List UInt8 :=
  match mime.mtp_parts with
  | [] => (s, [])
  | [part] =>
    match s.part_stream with
    | some _ => read_single mime part.body (buflen + 1) s [] buflen
    | none =>
      if s.cur_part ≥ 1 then (s, [])
      else read_single mime part.body (buflen + 1) { s with part_stream := some (s.cur_part, 0) } [] buflen
  | _ => read_parts mime (buflen + 1) s [] buflen

/-- One read after the other, with what each gives. -/
def reads (mime : Mime) : State → List Nat → List (List UInt8)
  | _, [] => []
  | s, buflen :: sizes =>
    (_mime_body_stream_read mime s buflen).2 :: reads mime (_mime_body_stream_read mime s buflen).1 sizes

/-- The delimited texts of the parts, and the last delimiter. -/
def multipart (boundary : List UInt8) : List Part → List UInt8
  | [] => [MINUS, MINUS] ++ boundary ++ [MINUS, MINUS, LF]
  | part :: parts => [MINUS, MINUS] ++ boundary ++ [LF] ++ part.text ++ [LF] ++ multipart boundary parts

/-- What a composed message looks like. -/
def canonical (mime : Mime) : List UInt8 :=
  match mime.mtp_parts with
  | [] => []
  | [part] => part.body
  | parts => multipart mime.boundary parts

private theorem length_multipart (boundary : List UInt8) (parts : List Part) (total : Nat) :
    (parts.foldl (fun total part => total + (part.text.length + boundary.length + 4)) total) + boundary.length + 5 =
      total + (multipart boundary parts).length := by
  induction parts generalizing total with
  | nil => simp [multipart]; omega
  | cons part parts ih =>
    rw [List.foldl_cons, ih]
    simp [multipart]
    omega

private theorem part_size_eq (mime : Mime) : _mime_part_size mime = (canonical mime).length := by
  rw [_mime_part_size, canonical]
  match mime.mtp_parts with
  | [] => rfl
  | [part] => rfl
  | first :: second :: parts =>
    have length := length_multipart mime.boundary (first :: second :: parts) (mime.boundary.length + 3)
    dsimp only
    omega

/-- The part that is read next. -/
def State.source (s : State) : Nat :=
  match s.part_stream with
  | some (part, _) => part
  | none => s.cur_part

/-- The rest of that part from an offset on, and what follows it. -/
def fromPart (mime : Mime) (s : State) (offset : Nat) : List UInt8 :=
  match mime.mtp_parts.drop s.cur_part with
  | [] => []
  | _ :: parts => (part_text mime s.source).drop offset ++ LF :: multipart mime.boundary parts

/-- What is left of a delimiter, up to its newline. -/
def State.delimiter (mime : Mime) (s : State) : List UInt8 :=
  if s.adding_boundary then
    List.replicate s.preamble MINUS ++ (mime.boundary.drop (mime.boundary.length - s.boundary_len) ++
      List.replicate s.postamble MINUS)
  else [MINUS, MINUS] ++ (mime.boundary ++ List.replicate (if s.cur_part = nmtp_parts mime then 2 else 0) MINUS)

/-- The text that a state has still to give. -/
def State.rest (mime : Mime) (s : State) : List UInt8 :=
  if s.insert_boundary then s.delimiter mime ++ LF :: fromPart mime s 0 else fromPart mime s s.part_offset

/-- The states that occur. As long as the text is read for the first time, no part is open in a delimiter. -/
structure State.Ok (mime : Mime) (fresh : Bool) (s : State) : Prop where
  part : s.cur_part ≤ nmtp_parts mime
  idle : s.adding_boundary = false → s.postamble = 0
  adding : s.adding_boundary = true → s.insert_boundary = true ∧ s.boundary_len ≤ mime.boundary.length
  opened : s.part_stream ≠ none → s.cur_part < nmtp_parts mime
  closed : fresh = true → s.insert_boundary = true → s.part_stream = none

/-- The flow has given the first bytes of a text and left the others; where it goes on, so much holds. -/
def Gives (mime : Mime) (fresh : Bool) (text out : List UInt8) (buflen : Nat) (holds : State → Nat → Prop) : Flow → Prop
  | .full s out' => s.Ok mime fresh ∧ out' = out ++ text.take buflen ∧ s.rest mime = text.drop buflen
  | .go s out' buflen' => s.Ok mime fresh ∧ holds s buflen' ∧
      ∃ n, n + buflen' = buflen ∧ out' = out ++ text.take n ∧ s.rest mime = text.drop n

section
variable {mime : Mime} {fresh : Bool}

variable {s : State} {buflen : Nat} {holds : State → Nat → Prop}

theorem gives_refl (ok : s.Ok mime fresh) (here : holds s buflen)
    (out : List UInt8) : Gives mime fresh (s.rest mime) out buflen holds (.go s out buflen) :=
  ⟨ok, here, 0, Nat.zero_add _, by simp, by simp⟩

variable {text out : List UInt8} {flow : Flow}

theorem Gives.after {buflen n : Nat}
    (le : n ≤ buflen) (later : Gives mime fresh (text.drop n) (out ++ text.take n) (buflen - n) holds flow) :
    Gives mime fresh text out buflen holds flow := by
  have sum : n + (buflen - n) = buflen := by omega
  cases flow with
  | full s out' =>
    obtain ⟨ok, given, left⟩ := later
    refine ⟨ok, ?_, ?_⟩
    · rw [given, List.append_assoc, ← List.take_add, sum]
    · rw [left, List.drop_drop, sum]
  | go s out' buflen' =>
    obtain ⟨ok, here, m, sum', given, left⟩ := later
    refine ⟨ok, here, n + m, by omega, ?_, ?_⟩
    · rw [given, List.append_assoc, ← List.take_add]
    · rw [left, List.drop_drop]

theorem Gives.bind {holds holds' : State → Nat → Prop}
    (first : Gives mime fresh text out buflen holds flow) {next : State → List UInt8 → Nat → Flow}
    (then_ : ∀ s out' buflen', s.Ok mime fresh → holds s buflen' →
      Gives mime fresh (s.rest mime) out' buflen' holds' (next s out' buflen')) :
    Gives mime fresh text out buflen holds' (flow.bind next) := by
  cases flow with
  | full s out' => exact first
  | go s out' buflen' =>
    obtain ⟨ok, here, n, sum, given, left⟩ := first
    have second := then_ s out' buflen' ok here
    have size : buflen - n = buflen' := by omega
    rw [left, given, ← size] at second
    have later : Gives mime fresh text out buflen holds' (next s (out ++ text.take n) (buflen - n)) :=
      Gives.after (by omega) second
    rw [← given, size] at later
    exact later

theorem Gives.weaken {holds holds' : State → Nat → Prop}
    (given : Gives mime fresh text out buflen holds flow) (weaker : ∀ s buflen', holds s buflen' → holds' s buflen') :
    Gives mime fresh text out buflen holds' flow := by
  cases flow with
  | full s out' => exact given
  | go s out' buflen' => exact ⟨given.1, weaker _ _ given.2.1, given.2.2⟩

theorem gives_char {c : UInt8} {text : List UInt8} (ok : s.Ok mime fresh)
    (next : text = c :: s.rest mime) (some_ : 0 < buflen) (out : List UInt8) :
    Gives mime fresh text out buflen
      (fun s' buflen' => s' = { s with cur_offset := s.cur_offset + 1 } ∧ 0 < buflen' ∧ buflen' < buflen)
      (ADD_CHAR c s out buflen) := by
  -- the offset is not part of what is to come
  have ok' : State.Ok mime fresh { s with cur_offset := s.cur_offset + 1 } := { ok with }
  rw [ADD_CHAR]
  split
  next last =>
    obtain rfl : buflen = 1 := by omega
    exact ⟨ok', by rw [next]; simp, by rw [next]; rfl⟩
  next more =>
    exact ⟨ok', ⟨rfl, Nat.pos_of_ne_zero more, by omega⟩, 1, by omega, by rw [next]; simp, by rw [next]; rfl⟩

theorem drain_spec {set : State → Nat → State} {char : Nat → UInt8} {at_ : Nat → State → Prop}
    (ok : ∀ n s, at_ n s → s.Ok mime fresh)
    (step : ∀ n s, at_ (n + 1) s → at_ n (set s n) ∧ s.rest mime = char n :: (set s n).rest mime)
    (offset : ∀ n s offset, at_ n s → at_ n { s with cur_offset := offset }) :
    ∀ n s out buflen, at_ n s → 0 < buflen →
      Gives mime fresh (s.rest mime) out buflen (fun s' buflen' => at_ 0 s' ∧ 0 < buflen') (drain set char n s out buflen) := by
  intro n
  induction n with
  | zero =>
    intro s out buflen here some_
    exact gives_refl (ok 0 s here) ⟨here, some_⟩ out
  | succ n ih =>
    intro s out buflen here some_
    obtain ⟨next, text⟩ := step n s here
    rw [drain]
    refine (gives_char (ok n _ next) text some_ out).bind ?_
    rintro s' out' buflen' - ⟨rfl, more, -⟩
    exact ih _ _ _ (offset n _ _ next) more

/-- In a delimiter, with the counters at these values. -/
structure Delimiting (mime : Mime) (fresh : Bool) (preamble boundary_len postamble : Nat) (s : State) : Prop where
  part : s.cur_part ≤ nmtp_parts mime
  insert : s.insert_boundary = true
  adding : s.adding_boundary = true
  opened : s.part_stream ≠ none → s.cur_part < nmtp_parts mime
  closed : fresh = true → s.part_stream = none
  preamble_eq : s.preamble = preamble
  boundary_eq : s.boundary_len = boundary_len
  postamble_eq : s.postamble = postamble
  short : boundary_len ≤ mime.boundary.length

theorem Delimiting.ok {preamble boundary_len postamble : Nat}
    (here : Delimiting mime fresh preamble boundary_len postamble s) : s.Ok mime fresh where
  part := here.part
  idle idle := by rw [here.adding] at idle; cases idle
  adding _ := ⟨here.insert, by rw [here.boundary_eq]; exact here.short⟩
  opened := here.opened
  closed is_fresh _ := here.closed is_fresh

theorem Delimiting.rest {preamble boundary_len postamble : Nat}
    (here : Delimiting mime fresh preamble boundary_len postamble s) :
    s.rest mime = List.replicate preamble MINUS ++ (mime.boundary.drop (mime.boundary.length - boundary_len) ++
      List.replicate postamble MINUS) ++ LF :: fromPart mime s 0 := by
  rw [State.rest, if_pos here.insert, State.delimiter, if_pos here.adding, here.preamble_eq, here.boundary_eq,
    here.postamble_eq]

theorem add_preamble_spec {n b p : Nat} (here : Delimiting mime fresh n b p s) (out : List UInt8)
    (some_ : 0 < buflen) :
    Gives mime fresh (s.rest mime) out buflen (fun s' buflen' => Delimiting mime fresh 0 b p s' ∧ 0 < buflen')
      (add_preamble s out buflen) := by
  rw [add_preamble]
  refine @drain_spec mime fresh _ _ (fun n s => Delimiting mime fresh n b p s) (fun _ _ here => here.ok) ?_ ?_ _ s out buflen
    (here.preamble_eq ▸ here) some_
  · intro n s here
    have next : Delimiting mime fresh n b p { s with preamble := n } := { here with preamble_eq := rfl }
    refine ⟨next, ?_⟩
    rw [here.rest, next.rest, List.replicate_succ]
    rfl
  · intro n s offset here
    exact { here with }

theorem add_boundary_spec {b p : Nat} (here : Delimiting mime fresh 0 b p s) (out : List UInt8)
    (some_ : 0 < buflen) :
    Gives mime fresh (s.rest mime) out buflen (fun s' buflen' => Delimiting mime fresh 0 0 p s' ∧ 0 < buflen')
      (add_boundary mime s out buflen) := by
  rw [add_boundary]
  refine @drain_spec mime fresh _ _ (fun n s => Delimiting mime fresh 0 n p s) (fun _ _ here => here.ok) ?_ ?_ _ s out buflen
    (here.boundary_eq ▸ here) some_
  · intro n s here
    have short := here.short
    have next : Delimiting mime fresh 0 n p { s with boundary_len := n } :=
      { here with boundary_eq := rfl, short := by omega }
    refine ⟨next, ?_⟩
    have inside : mime.boundary.length - (n + 1) < mime.boundary.length := by omega
    have index : mime.boundary.length - (n + 1) + 1 = mime.boundary.length - n := by omega
    rw [here.rest, next.rest, List.drop_eq_getElem_cons inside, index, List.getD_eq_getElem?_getD,
      List.getElem?_eq_getElem inside]
    rfl
  · intro n s offset here
    exact { here with }

theorem add_postamble_spec {p : Nat} (here : Delimiting mime fresh 0 0 p s) (out : List UInt8)
    (some_ : 0 < buflen) :
    Gives mime fresh (s.rest mime) out buflen (fun s' buflen' => Delimiting mime fresh 0 0 0 s' ∧ 0 < buflen')
      (add_postamble s out buflen) := by
  rw [add_postamble]
  refine @drain_spec mime fresh _ _ (fun n s => Delimiting mime fresh 0 0 n s) (fun _ _ here => here.ok) ?_ ?_ _ s out buflen
    (here.postamble_eq ▸ here) some_
  · intro n s here
    have next : Delimiting mime fresh 0 0 n { s with postamble := n } := { here with postamble_eq := rfl }
    refine ⟨next, ?_⟩
    rw [here.rest, next.rest, List.replicate_succ, Nat.sub_zero, List.drop_length]
    rfl
  · intro n s offset here
    exact { here with }

theorem rest_delimited (inside : s.cur_part ≤ nmtp_parts mime) (insert : s.insert_boundary = true)
    (idle : s.adding_boundary = false) (closed : s.part_stream = none) :
    s.rest mime = multipart mime.boundary (mime.mtp_parts.drop s.cur_part) := by
  have source : s.source = s.cur_part := by rw [State.source, closed]
  rw [State.rest, if_pos insert, State.delimiter, idle, fromPart, source]
  cases rest : mime.mtp_parts.drop s.cur_part with
  | nil =>
    have last : s.cur_part = nmtp_parts mime := by
      have bound := List.drop_eq_nil_iff.mp rest
      rw [nmtp_parts] at inside ⊢
      omega
    rw [if_pos last]
    simp [multipart]
  | cons part parts =>
    have bound : s.cur_part < mime.mtp_parts.length := by
      by_contra past
      rw [List.drop_eq_nil_of_le (by omega)] at rest
      cases rest
    have text : part_text mime s.cur_part = part.text := by
      rw [List.drop_eq_getElem_cons bound] at rest
      rw [part_text, List.getElem?_eq_getElem bound, (List.cons.inj rest).1]
      rfl
    rw [if_neg (Nat.ne_of_lt bound : s.cur_part ≠ nmtp_parts mime), text]
    simp [multipart]

theorem start_boundary_spec (ok : s.Ok mime fresh) (insert : s.insert_boundary = true) :
    ∃ preamble boundary_len postamble, Delimiting mime fresh preamble boundary_len postamble (start_boundary mime s) ∧
      (start_boundary mime s).rest mime = s.rest mime := by
  have closed : fresh = true → s.part_stream = none := fun is_fresh => ok.closed is_fresh insert
  by_cases adding : s.adding_boundary = true
  · have same : start_boundary mime s = s := by rw [start_boundary, if_pos adding]
    rw [same]
    exact ⟨s.preamble, s.boundary_len, s.postamble,
      ⟨ok.part, insert, adding, ok.opened, closed, rfl, rfl, rfl, (ok.adding adding).2⟩, rfl⟩
  · have idle : s.adding_boundary = false := by simpa using adding
    have here : Delimiting mime fresh 2 mime.boundary.length (if s.cur_part = nmtp_parts mime then 2 else 0)
        (start_boundary mime s) := by
      rw [start_boundary, if_neg adding]
      exact ⟨ok.part, insert, rfl, ok.opened, closed, rfl, rfl, by rw [ok.idle idle], Nat.le_refl _⟩
    refine ⟨_, _, _, here, ?_⟩
    have same : fromPart mime (start_boundary mime s) 0 = fromPart mime s 0 := by rw [start_boundary, if_neg adding]; rfl
    rw [here.rest, same, State.rest, if_pos insert, State.delimiter, if_neg adding, Nat.sub_self, List.drop_zero]
    rfl

theorem insert_delimiter_spec (ok : s.Ok mime fresh) (insert : s.insert_boundary = true)
    (some_ : 0 < buflen) (out : List UInt8) :
    Gives mime fresh (s.rest mime) out buflen
      (fun s' buflen' => s'.insert_boundary = false ∧ 0 < buflen')
      (insert_delimiter mime s out buflen) := by
  obtain ⟨preamble, boundary_len, postamble, here, same⟩ := start_boundary_spec ok insert
  rw [insert_delimiter, ← same]
  have dashes := add_preamble_spec here out some_
  have named := dashes.bind fun s out buflen _ here => add_boundary_spec here.1 out here.2
  have counted := named.bind fun s out buflen _ here => add_postamble_spec here.1 out here.2
  refine counted.bind ?_
  intro s out buflen _ ⟨here, some_⟩
  have ok' : State.Ok mime fresh { s with insert_boundary := false, adding_boundary := false, part_offset := 0 } := by
    exact ⟨here.part, fun _ => here.postamble_eq, by simp, here.opened, by simp⟩
  have next : s.rest mime = LF :: State.rest mime
      { s with insert_boundary := false, adding_boundary := false, part_offset := 0 } := by
    rw [here.rest, Nat.sub_zero, List.drop_length]
    rfl
  refine (gives_char ok' next some_ out).weaken ?_
  rintro s' buflen' ⟨rfl, more, -⟩
  exact ⟨rfl, more⟩

theorem stream_read_eq (mime : Mime) (part : Nat) (text : List UInt8) (offset : Nat) (some_ : 0 < buflen) :
    ∃ n, stream_read mime part text offset buflen = (text.drop offset).take n ∧ 0 < n ∧ n ≤ buflen := by
  refine ⟨_, rfl, by omega, ?_⟩
  have small := Nat.mod_lt (mime.chunk part offset buflen) some_
  omega

theorem rest_part (insert : s.insert_boundary = false) : s.rest mime = fromPart mime s s.part_offset := by
  rw [State.rest, insert]
  exact if_neg Bool.false_ne_true

/-- A part is open, and its stream is where it is to be read. -/
structure Inside (mime : Mime) (part : Nat) (s : State) : Prop where
  insert : s.insert_boundary = false
  adding : s.adding_boundary = false
  postamble : s.postamble = 0
  bound : s.cur_part < nmtp_parts mime
  opened : s.part_stream = some (part, s.part_offset)

variable {part : Nat}

theorem Inside.ok (inside : Inside mime part s) : s.Ok mime fresh where
  part := Nat.le_of_lt inside.bound
  idle _ := inside.postamble
  adding adding := by rw [inside.adding] at adding; cases adding
  opened _ := inside.bound
  closed _ insert := by rw [inside.insert] at insert; cases insert

theorem Inside.rest (inside : Inside mime part s) :
    s.rest mime = (part_text mime part).drop s.part_offset ++
      LF :: multipart mime.boundary (mime.mtp_parts.drop (s.cur_part + 1)) := by
  have bound : s.cur_part < mime.mtp_parts.length := inside.bound
  have source : s.source = part := by rw [State.source, inside.opened]
  rw [rest_part inside.insert, fromPart, source, List.drop_eq_getElem_cons bound]

theorem Inside.advance (inside : Inside mime part s) {n : Nat}
    (short : n ≤ ((part_text mime part).drop s.part_offset).length) :
    Inside mime part (advance s n) ∧ (s.rest mime).take n = ((part_text mime part).drop s.part_offset).take n ∧
      (s.rest mime).drop n = (MimeBody.advance s n).rest mime := by
  have inside' : Inside mime part (MimeBody.advance s n) :=
    ⟨inside.insert, inside.adding, inside.postamble, inside.bound, by rw [MimeBody.advance, inside.opened]; rfl⟩
  refine ⟨inside', ?_, ?_⟩
  · rw [inside.rest, List.take_append_of_le_length short]
  · rw [inside'.rest, inside.rest, List.drop_append_of_le_length short, List.drop_drop]
    rfl

theorem Inside.end_part {part : Nat} {s : State} (inside : Inside mime part s)
    (ended : (part_text mime part).drop s.part_offset = []) :
    (end_part s).Ok mime fresh ∧ s.rest mime = LF :: (MimeBody.end_part s).rest mime := by
  constructor
  · exact ⟨inside.bound, fun _ => inside.postamble,
      fun adding => (by rw [MimeBody.end_part, inside.adding] at adding; cases adding), fun some => absurd rfl some,
      fun _ _ => rfl⟩
  · have delimited : (MimeBody.end_part s).rest mime =
        multipart mime.boundary (mime.mtp_parts.drop (MimeBody.end_part s).cur_part) :=
      rest_delimited inside.bound rfl inside.adding rfl
    rw [inside.rest, ended, delimited]
    rfl

theorem read_part_spec (fuel : Nat) : ∀ (part : Nat) (s : State) (out : List UInt8) (buflen : Nat),
    Inside mime part s → buflen < fuel →
    Gives mime fresh (s.rest mime) out buflen (fun _ buflen' => buflen' ≤ buflen - 1)
      (read_part mime fuel s out buflen) := by
  induction fuel with
  | zero =>
    intro part s out buflen _ short
    omega
  | succ fuel ih =>
    intro part s out buflen inside short
    rw [read_part, inside.opened]
    dsimp only
    by_cases none_ : buflen = 0
    · rw [if_pos none_]
      exact gives_refl inside.ok (by omega) out
    · have some_ : 0 < buflen := Nat.pos_of_ne_zero none_
      obtain ⟨n, read, positive, small⟩ := stream_read_eq mime part (part_text mime part) s.part_offset some_
      rw [if_neg none_, read]
      generalize left_eq : (part_text mime part).drop s.part_offset = left
      by_cases more : left.take n ≠ []
      · -- bytes of the part
        have length : (left.take n).length = min n left.length := List.length_take
        have positive' : 0 < (left.take n).length := List.length_pos_iff.mpr more
        obtain ⟨inside', taken, dropped⟩ := inside.advance (show (left.take n).length ≤ _ by rw [left_eq]; omega)
        have got : left.take (left.take n).length = left.take n := by
          rw [length, ← List.take_take, List.take_length]
        rw [if_pos more]
        refine Gives.after (show (left.take n).length ≤ buflen by omega) ?_
        rw [taken, dropped, left_eq, got]
        refine (ih _ _ _ _ inside' (by omega)).weaken ?_
        intro s' buflen' progress
        omega
      · -- the end of the part
        have ended : left = [] := by
          rw [not_not, List.take_eq_nil_iff] at more
          exact more.resolve_left (by omega)
        obtain ⟨ok, next⟩ := @Inside.end_part mime fresh part s inside (left_eq.trans ended)
        rw [if_neg more]
        refine (gives_char ok next some_ out).weaken ?_
        rintro s' buflen' ⟨-, -, less⟩
        omega

theorem rest_at_end (insert : s.insert_boundary = false) (part : nmtp_parts mime ≤ s.cur_part) :
    s.rest mime = [] := by
  rw [rest_part insert, fromPart, List.drop_eq_nil_of_le part]

theorem rest_opened (insert : s.insert_boundary = false) (pos : Nat) :
    State.rest mime { s with part_stream := some (s.source, pos) } = s.rest mime := by
  rw [rest_part insert]
  exact rest_part insert

theorem open_part_cases (ok : s.Ok mime fresh) (insert : s.insert_boundary = false) :
    open_part mime s = none ∧ nmtp_parts mime ≤ s.cur_part ∨
    ∃ part opened, open_part mime s = some opened ∧ Inside mime part opened ∧ opened.rest mime = s.rest mime := by
  have adding : s.adding_boundary = false := by
    by_contra adding
    rw [Bool.not_eq_false] at adding
    rw [(ok.adding adding).1] at insert
    cases insert
  rw [open_part]
  cases stream : s.part_stream with
  | some opened =>
    have bound : s.cur_part < nmtp_parts mime := ok.opened (by rw [stream]; exact Option.some_ne_none _)
    have source : s.source = opened.1 := by rw [State.source, stream]
    rw [← rest_opened insert s.part_offset, source]
    exact .inr ⟨opened.1, _, rfl, ⟨insert, adding, ok.idle adding, bound, rfl⟩, rfl⟩
  | none =>
    dsimp only
    by_cases past : s.cur_part ≥ nmtp_parts mime
    · exact .inl ⟨if_pos past, past⟩
    · have source : s.source = s.cur_part := by rw [State.source, stream]
      rw [← rest_opened insert s.part_offset, source]
      exact .inr ⟨s.cur_part, _, if_neg past, ⟨insert, adding, ok.idle adding, Nat.lt_of_not_le past, rfl⟩, rfl⟩

/-- A read gives the first bytes of what is to come and leaves the others. -/
def Reads (mime : Mime) (fresh : Bool) (text out : List UInt8) (buflen : Nat) (result : State × List UInt8) : Prop :=
  result.1.Ok mime fresh ∧ result.2 = out ++ text.take buflen ∧ result.1.rest mime = text.drop buflen

theorem Reads.after {buflen n : Nat} {result : State × List UInt8} (le : n ≤ buflen)
    (later : Reads mime fresh (text.drop n) (out ++ text.take n) (buflen - n) result) : Reads mime fresh text out buflen result := by
  have sum : n + (buflen - n) = buflen := by omega
  obtain ⟨ok, given, left⟩ := later
  refine ⟨ok, ?_, ?_⟩
  · rw [given, List.append_assoc, ← List.take_add, sum]
  · rw [left, List.drop_drop, sum]

theorem Gives.reads
    (given : Gives mime fresh text out buflen holds flow) {next : State → List UInt8 → Nat → State × List UInt8}
    (then_ : ∀ s out' buflen', s.Ok mime fresh → holds s buflen' → buflen' ≤ buflen →
      Reads mime fresh (s.rest mime) out' buflen' (next s out' buflen')) :
    Reads mime fresh text out buflen (match flow with
      | .full s out => (s, out)
      | .go s out buflen => next s out buflen) := by
  cases flow with
  | full s out' => exact given
  | go s out' buflen' =>
    obtain ⟨ok, here, n, sum, given, left⟩ := given
    have second := then_ s out' buflen' ok here (by omega)
    have size : buflen - n = buflen' := by omega
    rw [left] at second
    refine Reads.after (show n ≤ buflen by omega) ?_
    rw [size, ← given]
    exact second

theorem read_parts_spec (fuel : Nat) : ∀ (s : State) (out : List UInt8) (buflen : Nat), s.Ok mime fresh → buflen < fuel →
    Reads mime fresh (s.rest mime) out buflen (read_parts mime fuel s out buflen) := by
  induction fuel with
  | zero =>
    intro s out buflen _ short
    omega
  | succ fuel ih =>
    intro s out buflen ok short
    rw [read_parts]
    by_cases none_ : buflen = 0
    · rw [if_pos none_, none_]
      exact ⟨ok, by simp, by simp⟩
    · rw [if_neg none_]
      have some_ : 0 < buflen := Nat.pos_of_ne_zero none_
      have delimited : Gives mime fresh (s.rest mime) out buflen (fun s' buflen' => s'.insert_boundary = false ∧ 0 < buflen')
          (if s.insert_boundary then insert_delimiter mime s out buflen else .go s out buflen) := by
        by_cases insert : s.insert_boundary = true
        · rw [if_pos insert]
          exact insert_delimiter_spec ok insert some_ out
        · rw [if_neg insert]
          exact gives_refl ok ⟨by simpa using insert, some_⟩ out
      refine delimited.reads ?_
      intro s out buflen' ok ⟨insert, some_⟩ le
      rcases open_part_cases ok insert with ⟨none_, past⟩ | ⟨part, opened, found, inside, text⟩
      · rw [none_]
        refine ⟨ok, ?_, ?_⟩ <;> rw [rest_at_end insert past] <;> simp
      · rw [found, ← text]
        refine (read_part_spec (buflen' + 1) part opened out buflen' inside (Nat.lt_succ_self _)).reads ?_
        intro s out buflen'' ok progress _
        rw [if_pos ok.part]
        exact ih s out buflen'' ok (by omega)
end

/-- A single part: what is to come of its body. Its stream is read on from where it is. -/
def restSingle (body : List UInt8) (s : State) : List UInt8 :=
  match s.part_stream with
  | some (_, pos) => body.drop pos
  | none => if s.cur_part ≥ 1 then [] else body

theorem read_single_spec (mime : Mime) (body : List UInt8) (fuel : Nat) :
    ∀ (part pos : Nat) (s : State) (out : List UInt8) (buflen : Nat), s.part_stream = some (part, pos) → buflen < fuel →
    (read_single mime body fuel s out buflen).2 = out ++ (body.drop pos).take buflen ∧
    restSingle body (read_single mime body fuel s out buflen).1 = (body.drop pos).drop buflen := by
  induction fuel with
  | zero =>
    intro part pos s out buflen _ short
    omega
  | succ fuel ih =>
    intro part pos s out buflen opened short
    rw [read_single, opened]
    dsimp only
    by_cases none_ : buflen = 0
    · rw [if_pos none_, none_]
      refine ⟨by simp, ?_⟩
      rw [restSingle, opened, List.drop_zero]
    · have some_ : 0 < buflen := Nat.pos_of_ne_zero none_
      obtain ⟨n, read, positive, small⟩ := stream_read_eq mime part body pos some_
      rw [if_neg none_, read]
      generalize left_eq : body.drop pos = left
      by_cases more : left.take n ≠ []
      · have length : (left.take n).length = min n left.length := List.length_take
        have positive' : 0 < (left.take n).length := List.length_pos_iff.mpr more
        have got : left.take (left.take n).length = left.take n := by
          rw [length, ← List.take_take, List.take_length]
        have sum : (left.take n).length + (buflen - (left.take n).length) = buflen := by omega
        have later : body.drop (pos + (left.take n).length) = left.drop (left.take n).length := by
          rw [← left_eq, List.drop_drop]
        have opened' : (advance s (left.take n).length).part_stream = some (part, pos + (left.take n).length) := by
          rw [advance, opened]
          rfl
        rw [if_pos more]
        obtain ⟨given, rest⟩ := ih part _ (advance s (left.take n).length) (out ++ left.take n)
          (buflen - (left.take n).length) opened' (by omega)
        rw [later] at given rest
        constructor
        · rw [given, List.append_assoc]
          congr 1
          conv_rhs => rw [← sum, List.take_add, got]
        · rw [rest, List.drop_drop, sum]
      · have ended : left = [] := by
          rw [not_not, List.take_eq_nil_iff] at more
          exact more.resolve_left (by omega)
        rw [if_neg more, ended]
        refine ⟨by simp, ?_⟩
        simp [restSingle]

/-- The states that occur with any number of parts. -/
def State.Sound (mime : Mime) (fresh : Bool) (s : State) : Prop :=
  match mime.mtp_parts with
  | [] | [_] => True
  | _ => s.Ok mime fresh

/-- What is to come with any number of parts. -/
def remaining (mime : Mime) (s : State) : List UInt8 :=
  match mime.mtp_parts with
  | [] => []
  | [part] => restSingle part.body s
  | _ => s.rest mime

/-- A read gives the first bytes of what is to come, as many as asked for, and leaves the others. -/
theorem read_spec {mime : Mime} {fresh : Bool} {s : State} (sound : s.Sound mime fresh) (buflen : Nat) :
    (_mime_body_stream_read mime s buflen).1.Sound mime fresh ∧
    (_mime_body_stream_read mime s buflen).2 = (remaining mime s).take buflen ∧
    remaining mime (_mime_body_stream_read mime s buflen).1 = (remaining mime s).drop buflen := by
  rw [State.Sound] at sound ⊢
  rw [remaining, remaining, _mime_body_stream_read]
  match parts : mime.mtp_parts with
  | [] => simp
  | [part] =>
    dsimp only
    cases stream : s.part_stream with
    | some opened =>
      have here : restSingle part.body s = part.body.drop opened.2 := by rw [restSingle, stream]
      obtain ⟨given, rest⟩ := read_single_spec mime part.body (buflen + 1) opened.1 opened.2 s [] buflen stream
        (Nat.lt_succ_self _)
      rw [here]
      exact ⟨trivial, by simpa using given, rest⟩
    | none =>
      dsimp only
      by_cases ended : s.cur_part ≥ 1
      · have here : restSingle part.body s = [] := by rw [restSingle, stream]; exact if_pos ended
        rw [if_pos ended, here]
        exact ⟨trivial, by simp, by simp⟩
      · have here : restSingle part.body s = part.body := by rw [restSingle, stream]; exact if_neg ended
        obtain ⟨given, rest⟩ := read_single_spec mime part.body (buflen + 1) s.cur_part 0
          { s with part_stream := some (s.cur_part, 0) } [] buflen rfl (Nat.lt_succ_self _)
        rw [if_neg ended, here]
        exact ⟨trivial, by simpa using given, by simpa using rest⟩
  | first :: second :: more =>
    simp only [parts] at sound ⊢
    obtain ⟨ok, given, rest⟩ := read_parts_spec (buflen + 1) s [] buflen sound (Nat.lt_succ_self _)
    exact ⟨ok, by simpa using given, rest⟩

/-- The text in pieces of these sizes. -/
def pieces : List UInt8 → List Nat → List (List UInt8)
  | _, [] => []
  | text, buflen :: sizes => text.take buflen :: pieces (text.drop buflen) sizes

theorem reads_eq (mime : Mime) {fresh : Bool} (sizes : List Nat) : ∀ s : State, s.Sound mime fresh →
    reads mime s sizes = pieces (remaining mime s) sizes := by
  induction sizes with
  | nil =>
    intro s _
    rfl
  | cons buflen sizes ih =>
    intro s sound
    obtain ⟨sound', given, rest⟩ := read_spec sound buflen
    rw [reads, pieces, given, ih _ sound', rest]

theorem reset_sound (mime : Mime) :
    (mime_reset_state mime {}).Sound mime true ∧ remaining mime (mime_reset_state mime {}) = canonical mime := by
  rw [State.Sound, remaining, canonical]
  match parts : mime.mtp_parts with
  | [] | [part] => exact ⟨trivial, rfl⟩
  | first :: second :: more =>
    have two : nmtp_parts mime > 1 := by
      rw [nmtp_parts, parts]
      simp
    have state : mime_reset_state mime {} = { insert_boundary := true } := by
      rw [mime_reset_state, if_pos two]
    have text : State.rest mime { insert_boundary := true } = multipart mime.boundary mime.mtp_parts :=
      rest_delimited (Nat.zero_le _) rfl rfl rfl
    simp only [state, text, parts, and_true]
    exact ⟨Nat.zero_le _, fun _ => rfl, fun adding => (by cases adding), fun some => absurd rfl some, fun _ _ => rfl⟩

/-- However a new object is read, each read gives the next bytes of the canonical text, as many as asked for
    until its end and none after it, and its size is the length of that text. -/
theorem body_reads_canonical (mime : Mime) (sizes : List Nat) :
    reads mime (mime_reset_state mime {}) sizes = pieces (canonical mime) sizes ∧
    _mime_part_size mime = (canonical mime).length := by
  obtain ⟨sound, text⟩ := reset_sound mime
  exact ⟨by rw [reads_eq mime sizes _ sound, text], part_size_eq mime⟩

/-- Two parts, read three bytes at a time. -/
example : reads ⟨[66], [⟨[97], []⟩, ⟨[], []⟩], fun _ _ _ => 0⟩ (mime_reset_state ⟨[66], [⟨[97], []⟩, ⟨[], []⟩], fun _ _ _ => 0⟩ {})
    [3, 3, 3, 3, 3, 3, 3] =
    [[45, 45, 66], [10, 97, 10], [45, 45, 66], [10, 10, 45], [45, 66, 45], [45, 10], []] := by decide

end Mailutils.MimeBody

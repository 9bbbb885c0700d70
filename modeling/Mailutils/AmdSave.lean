import Mailutils.Mailbox
import Mailutils.HeaderCopy
import Mailutils.Buffered

/-!
Saving a message of a directory mailbox (`libmailutils/base/amd.c`). Each message is a file, and the
mailbox keeps where in the file its header and its body are. A machine over the bytes of the file finds
this out (`amd_scan_message`). When a message is saved, it is taken from the counters of the output
stream instead (`_amd_message_save`). These count what has left the buffer, in whole buffers, and start
anew for the body, where the end of the body is meant to be an offset in the file. What a save leaves
is the layout of the file only if it writes nothing but the empty line (`save_layout_iff`).
-/
namespace Mailutils.AmdSave
open Mailutils.Filter Mailutils.Mailbox Mailutils.Buffered
open Mailutils.HeaderCopy (mu_stream_header_copy)

/-- The headers that a message built anew does not take over; with an object, `Status` is one of them. -/
def kept_header (names : List (List UInt8)) (src : List UInt8) : List UInt8 × List UInt8 :=
  let (dst, src, _) := mu_stream_header_copy {} names ⟨[], 0⟩ src
  (dst.content, src)

/-- The file that an output stream writes, and the counters `MU_STREAM_STAT_OUT` and
    `MU_STREAM_STAT_OUTLN` of the stream. -/
structure Counted where
  file : List UInt8 := []
  out : Nat := 0
  outln : Nat := 0

/-- What is written goes to the end of the file and into the counters. -/
def Counted.add (back : Counted) (data : List UInt8) : Counted where
  file := back.file ++ data
  out := back.out + data.length
  outln := back.outln + data.count LF

/-- `_stream_write` for a file descriptor. The system takes as much of the data as it likes. -/
def _stream_write (takes : Nat → Nat) (str : Stream Counted) (buf : List UInt8) : Except Errno Nat × Stream Counted :=
  let written := buf.take (takes str.back.file.length + 1)
  (.ok written.length, { str with back := str.back.add written })

/-- The methods of the output stream, which cannot be read. -/
def fdMethods (takes : Nat → Nat) : Methods Counted where
  read := fun str _ => (.error .eacces, str)
  write := _stream_write takes

/-- `mu_fd_stream_create` for the temporary file. -/
def _amd_tempstream (bufsize : Nat) : Stream Counted where
  readable := false
  writable := true
  seekable := false
  buftype := .full
  bufsize := bufsize
  back := {}

/-- Some calls of `mu_stream_write`. -/
def mu_stream_writes (takes : Nat → Nat) (str : Stream Counted) (data : List (List UInt8)) : Stream Counted :=
  data.foldl (fun str buf => (mu_stream_write (fdMethods takes) str buf false).2.2) str

/-- `amd->capabilities` -/
structure Capabilities where
  /-- `MU_AMD_STATUS` -/
  status : Bool := false
  /-- `MU_AMD_DASHDELIM` -/
  dashdelim : Bool := false

/-- `struct _amd_message` -/
structure Message where
  body_start : Nat := 0
  body_end : Nat := 0
  attr_flags : Attribute := {}
  mtime : Nat := 0
  header_size : Nat := 0
  header_lines : Nat := 0
  body_lines : Nat := 0
  deriving DecidableEq, Repr

/-- `amd_body_size`, when the message is open; the difference is turned into a `size_t`. -/
def amd_body_size (mhm : Message) : Nat := (((mhm.body_end : Int) - mhm.body_start) % ulong).toNat

/-- `amd_body_stream_read` at the offset `off` of the body. -/
def amd_body_stream_read (file : List UInt8) (mhm : Message) (off buflen : Nat) : List UInt8 :=
  let ln : Int := (mhm.body_end : Int) - (mhm.body_start + off)
  if ln > 0 then (file.drop (mhm.body_start + off)).take (min ln.toNat buflen) else []

/-- The states of `amd_scan_message`; in `getline` the rest of a line is being read by
    `mu_stream_getline`. -/
inductive ScanState
  | init | header | header_newline | header_dash | header_expect | getline | body
  deriving DecidableEq, Repr

/-- The variables of `amd_scan_message`; `line` is what `mu_stream_getline` has read, and `pos` is
    the position of the stream. -/
structure Scanner where
  state : ScanState := .init
  i : Nat := 0
  ndash : Nat := 0
  line : List UInt8 := []
  pos : Nat := 0
  mhm : Message
  deriving DecidableEq, Repr

def expect : List UInt8 := ascii "status:"

/-- The body begins here, after `ndash` dashes and the newline. -/
def Scanner.enter (s : Scanner) (ndash : Nat) : Scanner :=
  { s with
    state := .body
    mhm := { s.mhm with body_start := s.pos, body_end := s.pos, header_size := s.pos - ndash } }

/-- The case `amd_scan_header_newline` -/
def scan_newline (capa : Capabilities) (s : Scanner) (cur : UInt8) : Scanner :=
  let s := { s with mhm := { s.mhm with header_lines := s.mhm.header_lines + 1 } }
  if cur = LF then s.enter 0
  else if capa.dashdelim ∧ cur = 45 then { s with state := .header_dash, ndash := 1 }
  else if !capa.status then
    if expect.getD 0 0 = tolower cur then { s with state := .header_expect, i := 1 }
    else { s with state := .header, i := 0 }
  else { s with state := .header }

/-- The case `amd_scan_header_dash` -/
def scan_dash (s : Scanner) (cur : UInt8) : Scanner :=
  if cur = LF then s.enter s.ndash
  else if cur = 45 then { s with ndash := s.ndash + 1 }
  else { s with state := .header }

/-- The case `amd_scan_header_expect` -/
def scan_expect (s : Scanner) (cur : UInt8) : Scanner :=
  if cur = LF then { s with state := .header_newline }
  else if expect.getD s.i 0 ≠ tolower cur then { s with state := .header }
  else if tolower cur = COLON then { s with state := .getline, line := [] }
  else { s with i := s.i + 1, state := if expect.getD (s.i + 1) 0 = 0 then .header_newline else .header_expect }

/-- What follows `mu_stream_getline`. Its last character is cut off, and what was deleted stays so. -/
def scan_status (s : Scanner) (line : List UInt8) : Scanner :=
  let flags := s.mhm.attr_flags
  let read := mu_attribute_string_to_flags (cstring line.dropLast) flags
  { s with
    state := .header_newline
    mhm := { s.mhm with
      attr_flags := if line = [] then flags else { read with deleted := read.deleted || flags.deleted } } }

/-- The loop of `amd_scan_message` for one byte. -/
def scan_byte (capa : Capabilities) (s : Scanner) (cur : UInt8) : Scanner :=
  let s := { s with pos := s.pos + 1 }
  match s.state with
  | .init => { s with state := .header_newline, i := 0 }
  | .header => { s with state := if cur = LF then .header_newline else .header }
  | .header_newline => scan_newline capa s cur
  | .header_dash => scan_dash s cur
  | .header_expect => scan_expect s cur
  | .getline => if cur = LF then scan_status s (s.line ++ [cur]) else { s with line := s.line ++ [cur] }
  | .body =>
    { s with mhm :=
      { s.mhm with
        body_end := s.mhm.body_end + 1
        body_lines := if cur = LF then s.mhm.body_lines + 1 else s.mhm.body_lines } }

/-- The scan of a file. What the file does not tell stays as it was. -/
def scan_file (capa : Capabilities) (file : List UInt8) (mhm : Message) : Message :=
  let s := file.foldl (scan_byte capa) { mhm := { mhm with header_lines := 0, body_lines := 0 } }
  (if s.state = .getline then scan_status s s.line else s).mhm

/-- `amd_scan_message`: a file is scanned if it was modified after the last scan. -/
def amd_scan_message (capa : Capabilities) (st_mtime : Nat) (file : List UInt8) (mhm : Message) : Message :=
  if st_mtime = mhm.mtime then mhm else scan_file capa file { mhm with mtime := st_mtime }

/-- An envelope: the sender, and the date as it is printed again, if there is one that can be parsed. -/
structure Envelope where
  sender : Option (List UInt8)
  date : Option (List UInt8)

/-- `MU_HEADER_ENV_DATE` -/
def ENV_DATE : List UInt8 := ascii "X-Envelope-Date"
/-- `MU_HEADER_ENV_SENDER` -/
def ENV_SENDER : List UInt8 := ascii "X-Envelope-Sender"

/-- The headers that are not copied. Without a sender the `Return-Path` of the message is kept. -/
def exclude_headers (env : Option Envelope) : List (List UInt8) :=
  let exclude_headers_tab := [RETURN_PATH, X_IMAPBASE, X_UID, STATUS, ENV_DATE, ENV_SENDER]
  if (env.bind Envelope.sender).isSome then exclude_headers_tab else exclude_headers_tab.tail

/-- The header lines for the envelope. -/
def envelope_lines (env : Option Envelope) : List (List UInt8) :=
  [((env.bind Envelope.sender).map fun s => RETURN_PATH ++ [COLON, SP] ++ s ++ [LF]).getD [],
   ((env.bind Envelope.date).map fun date =>
      ascii "Received: from localhost\n\tby localhost; " ++ date ++ [LF]).getD []]

/-- The header line for the flags, unless the mailbox keeps them elsewhere. -/
def status_line (capa : Capabilities) (flags : Attribute) : List UInt8 :=
  let statbuf := mu_attribute_flags_to_string flags
  if capa.status ∨ statbuf = [] then [] else STATUS ++ [COLON, SP] ++ statbuf ++ [LF]

/-- `_amd_message_save` of a message with this header and body, without errors: what it leaves in
    the structure, and the file. -/
def _amd_message_save (takes : Nat → Nat) (bufsize : Nat) (capa : Capabilities) (env : Option Envelope)
    (header body : List UInt8) (mhm : Message) : Message × List UInt8 :=
  let ostr := mu_stream_writes takes (_amd_tempstream bufsize) (envelope_lines env)
  let ostr := mu_stream_writes takes ostr [(kept_header (exclude_headers env) header).1, status_line capa mhm.attr_flags]
  let ostr := mu_stream_writes takes ostr (List.replicate (mhm.body_start - mhm.header_size) [45])
  let ostr := mu_stream_writes takes ostr [[LF]]
  let new_header_lines := ostr.back.outln
  let new_body_start := ostr.back.out
  -- Clear the counters
  let ostr := { ostr with back := { ostr.back with out := 0, outln := 0 } }
  let ostr := mu_stream_writes takes ostr [body]
  ({ mhm with
      header_lines := new_header_lines
      header_size := new_body_start
      body_start := new_body_start
      body_lines := ostr.back.outln
      body_end := ostr.back.out },
    (mu_stream_close (fdMethods takes) ostr).2.back.file)

/-- Where the parts of a message are. -/
def Message.layout (mhm : Message) : Nat × Nat × Nat × Nat × Nat :=
  (mhm.header_size, mhm.header_lines, mhm.body_start, mhm.body_lines, mhm.body_end)

/-- The layout is what a scan of the file finds, and the body is read as it was saved. -/
structure Kept (capa : Capabilities) (body : List UInt8) (mhm : Message) (file : List UInt8) : Prop where
  layout : mhm.layout = (scan_file capa file {}).layout
  size : amd_body_size mhm = body.length
  read : ∀ off buflen, amd_body_stream_read file mhm off buflen = (body.drop off).take buflen

/-- Nothing is written before the empty line: the envelope gives no lines, no header is copied, there are
    no flags to write, and the header did not end with dashes. -/
structure Headless (capa : Capabilities) (env : Option Envelope) (header : List UInt8) (mhm : Message) : Prop where
  sender : env.bind Envelope.sender = none
  date : env.bind Envelope.date = none
  header : (kept_header (exclude_headers env) header).1 = []
  flags : capa.status = true ∨ mu_attribute_flags_to_string mhm.attr_flags = []
  dashes : mhm.body_start ≤ mhm.header_size

private theorem add_add (back : Counted) (a b : List UInt8) : (back.add a).add b = back.add (a ++ b) := by
  simp only [Counted.add, List.append_assoc, List.length_append, List.count_append, Nat.add_assoc]

/-- The stream is open for output and has not failed. -/
structure Ready (bufsize : Nat) (str : Stream Counted) : Prop where
  writable : str.writable = true
  err : str.err = false
  seekable : str.seekable = false
  buftype : str.buftype = .full
  size : str.bufsize = bufsize

/-- Between writes: the file has whole buffers of the text and the buffer has the rest, and the
    counters tell what of the file was written from `start` on. -/
structure Output (bufsize start : Nat) (text : List UInt8) (str : Stream Counted) : Prop extends Ready bufsize str where
  text : str.back.file ++ str.buffer = text
  whole : bufsize ∣ str.back.file.length
  level : str.buffer.length ≤ bufsize
  pos : str.pos = str.buffer.length
  dirty : str.buffer ≠ [] → str.dirty = true
  begun : start ≤ str.back.file.length
  out : str.back.out = (str.back.file.drop start).length
  outln : str.back.outln = (str.back.file.drop start).count LF

section
variable {takes : Nat → Nat} {bufsize start : Nat} {text : List UInt8} {str : Stream Counted}

private theorem full_write_counted (fuel : Nat) : ∀ (str : Stream Counted) (buf : List UInt8) (nwritten : Nat),
    buf.length ≤ fuel →
    full_write (fdMethods takes) fuel str buf nwritten =
      (none, nwritten + buf.length, { str with back := str.back.add buf }) := by
  induction fuel with
  | zero =>
    intro str buf nwritten short
    obtain rfl := List.eq_nil_of_length_eq_zero (Nat.le_zero.mp short)
    simp [full_write, Counted.add]
  | succ fuel ih =>
    intro str buf nwritten short
    by_cases empty : buf = []
    · subst empty
      simp [full_write, Counted.add]
    · have some_left : 0 < buf.length := List.length_pos_iff.mpr empty
      rw [full_write, if_neg empty]
      simp only [fdMethods, _stream_write]
      generalize taken : buf.take (takes str.back.file.length + 1) = written
      have length : written.length = min (takes str.back.file.length + 1) buf.length := by
        rw [← taken, List.length_take]
      have split : written ++ buf.drop written.length = buf := by
        rw [← taken]
        exact Mailutils.Stream.take_append_rest ..
      rw [if_neg (by omega)]
      refine (ih _ _ _ (by rw [List.length_drop]; omega)).trans ?_
      rw [add_add, split, List.length_drop]
      congr 2
      omega

theorem flush_counted (ready : Ready bufsize str) (dirty : str.buffer ≠ [] → str.dirty = true) :
    ∃ str', _stream_flush_buffer (fdMethods takes) str true = (none, str') ∧ Ready bufsize str' ∧
      str'.back = str.back.add str.buffer ∧ str'.buffer = [] ∧ str'.pos = 0 := by
  obtain ⟨writable, err, seekable, buftype, size⟩ := ready
  have wrote : _stream_write_unbuffered (fdMethods takes) str str.buffer true =
      (none, str.buffer.length, if str.buffer = [] then str else
        { str with back := str.back.add str.buffer, wrt := true, last_err := none }) := by
    rw [_stream_write_unbuffered]
    by_cases empty : str.buffer = []
    · simp [writable, err, empty]
    · rw [full_write_counted _ _ _ _ (Nat.le_refl _)]
      simp [writable, err, empty, mu_stream_seterr]
  have unsought : (if str.seekable = true then (fdMethods takes).seek else none) = none := by
    rw [seekable]
    rfl
  by_cases empty : str.buffer = []
  · have same : str.back.add str.buffer = str.back := by
      rw [empty]
      simp [Counted.add]
    rw [_stream_flush_buffer, same]
    cases changed : str.dirty with
    | false => exact ⟨_, rfl, ⟨writable, err, seekable, buftype, size⟩, rfl, rfl, rfl⟩
    | true =>
      simp only [if_true, write_back, unsought, wrote, Option.isSome_none, Bool.false_eq_true, if_false, if_pos empty]
      exact ⟨_, rfl, ⟨writable, err, seekable, buftype, size⟩, rfl, rfl, rfl⟩
  · rw [_stream_flush_buffer, dirty empty]
    simp only [if_true, write_back, unsought, wrote, Option.isSome_none, Bool.false_eq_true, if_false, if_neg empty]
    exact ⟨_, rfl, ⟨writable, err, seekable, buftype, size⟩, rfl, rfl, rfl⟩

theorem Output.flush_full (output : Output bufsize start text str) (full : str.buffer.length = bufsize) :
    ∃ str', _stream_flush_buffer (fdMethods takes) str true = (none, str') ∧ Output bufsize start text str' ∧
      str'.buffer = [] := by
  obtain ⟨str', flushed, ready, back, buffer, pos⟩ := flush_counted output.toReady output.dirty
  have file : str'.back.file = text := by
    rw [back]
    exact output.text
  have split : text.drop start = str.back.file.drop start ++ str.buffer := by
    rw [← output.text, List.drop_append_of_le_length output.begun]
  refine ⟨str', flushed, ⟨ready, ?_, ?_, ?_, ?_, ?_, ?_, ?_, ?_⟩, buffer⟩
  · rw [file, buffer, List.append_nil]
  · rw [file, ← output.text, List.length_append, full]
    exact Nat.dvd_add output.whole (Nat.dvd_refl _)
  · rw [buffer]
    exact Nat.zero_le _
  · rw [pos, buffer]
    rfl
  · exact fun some => absurd buffer some
  · rw [file, ← output.text, List.length_append]
    exact Nat.le_trans output.begun (Nat.le_add_right ..)
  · rw [file, split, List.length_append, ← output.out, back]
    rfl
  · rw [file, split, List.count_append, ← output.outln, back]
    rfl

theorem Output.store (output : Output bufsize start text str) {data : List UInt8}
    (fits : str.buffer.length + data.length ≤ bufsize) :
    Output bufsize start (text ++ data)
      { str with
        buffer := str.buffer.take str.pos ++ data ++ str.buffer.drop (str.pos + data.length)
        pos := str.pos + data.length
        dirty := true } := by
  have all : str.buffer.take str.pos ++ data ++ str.buffer.drop (str.pos + data.length) = str.buffer ++ data := by
    rw [output.pos, List.take_length, List.drop_eq_nil_of_le (Nat.le_add_right ..), List.append_nil]
  rw [all]
  exact
    { toReady := ⟨output.writable, output.err, output.seekable, output.buftype, output.size⟩
      text := by rw [← output.text, List.append_assoc]
      whole := output.whole
      level := by rw [List.length_append]; exact fits
      pos := by rw [List.length_append, output.pos]
      dirty := fun _ => rfl
      begun := output.begun
      out := output.out
      outln := output.outln }

theorem write_loop_output (positive : 0 < bufsize) (fuel : Nat) :
    ∀ (str : Stream Counted) (text bufp : List UInt8) (nbytes : Nat),
    Output bufsize start text str → bufp.length < fuel →
    ∃ str', write_loop (fdMethods takes) fuel str bufp nbytes = (none, nbytes + bufp.length, [], str') ∧
      Output bufsize start (text ++ bufp) str' ∧ str'.buffer.length < bufsize := by
  induction fuel with
  | zero =>
    intro str text bufp nbytes output enough
    exact absurd enough (Nat.not_lt_zero _)
  | succ fuel ih =>
    intro str text bufp nbytes output enough
    -- there is room once a full buffer is flushed
    obtain ⟨after, room, output', free⟩ : ∃ after,
        (if _stream_buffer_full_p str = true then _stream_flush_buffer (fdMethods takes) str true else (none, str)) =
          (none, after) ∧ Output bufsize start text after ∧ after.buffer.length < bufsize := by
      have filled : _stream_buffer_full_p str = decide (bufsize = str.buffer.length) := by
        rw [_stream_buffer_full_p, output.buftype, output.pos, output.size]
        simp
      by_cases full : bufsize = str.buffer.length
      · obtain ⟨after, flushed, output', empty⟩ := output.flush_full full.symm
        refine ⟨after, by rw [filled, decide_eq_true full, if_pos rfl, flushed], output', ?_⟩
        rw [empty]
        exact positive
      · refine ⟨str, by rw [filled, decide_eq_false full, if_neg Bool.false_ne_true], output, ?_⟩
        exact Nat.lt_of_le_of_ne output.level (Ne.symm full)
    rw [write_loop, room]
    dsimp only
    rw [if_neg (by decide)]
    by_cases empty : bufp = []
    · subst empty
      rw [if_pos rfl, List.append_nil]
      exact ⟨after, rfl, output', free⟩
    · rw [if_neg empty]
      have some_left : 0 < bufp.length := List.length_pos_iff.mpr empty
      generalize taken : bufp.take (after.bufsize - after.pos) = data
      have length : data.length = min (bufsize - after.buffer.length) bufp.length := by
        rw [← taken, List.length_take, output'.size, output'.pos]
      have split : data ++ bufp.drop data.length = bufp := by
        rw [← taken]
        exact Mailutils.Stream.take_append_rest ..
      have stored := output'.store (show after.buffer.length + data.length ≤ bufsize by omega)
      obtain ⟨str', written, output'', level⟩ := ih _ _ (bufp.drop data.length) (nbytes + data.length) stored
        (by rw [List.length_drop]; omega)
      rw [List.append_assoc, split] at output''
      refine ⟨str', written.trans ?_, output'', level⟩
      rw [List.length_drop]
      congr 2
      omega

theorem mu_stream_write_output (positive : 0 < bufsize) (output : Output bufsize start text str) (buf : List UInt8) :
    ∃ str', (mu_stream_write (fdMethods takes) str buf false).2.2 = str' ∧
      Output bufsize start (text ++ buf) str' ∧ str'.buffer.length < bufsize := by
  obtain ⟨str', written, output', level⟩ := write_loop_output positive (buf.length + 1) str text buf 0 output
    (Nat.lt_succ_self _)
  refine ⟨str', ?_, output', level⟩
  rw [mu_stream_write, if_neg (by rw [output.buftype]; decide), written]
  rfl

/-- How the text is cut into writes does not matter. -/
theorem writes_output (takes : Nat → Nat) (positive : 0 < bufsize) (data : List (List UInt8)) :
    ∀ {text : List UInt8} {str : Stream Counted}, Output bufsize start text str → str.buffer.length < bufsize →
    Output bufsize start (text ++ data.flatten) (mu_stream_writes takes str data) ∧
      (mu_stream_writes takes str data).buffer.length < bufsize := by
  induction data with
  | nil =>
    intro text str output level
    rw [List.flatten_nil, List.append_nil]
    exact ⟨output, level⟩
  | cons buf data ih =>
    intro text str output level
    obtain ⟨str', written, output', level'⟩ := mu_stream_write_output positive output buf
    rw [List.flatten_cons, ← List.append_assoc]
    rw [mu_stream_writes, List.foldl_cons, written]
    exact ih output' level'

theorem tempstream_output : Output bufsize 0 [] (_amd_tempstream bufsize) where
  toReady := ⟨rfl, rfl, rfl, rfl, rfl⟩
  text := rfl
  whole := Nat.dvd_zero _
  level := Nat.zero_le _
  pos := rfl
  dirty := fun some => absurd rfl some
  begun := Nat.le_refl 0
  out := rfl
  outln := rfl

theorem Output.clear (output : Output bufsize start text str) :
    Output bufsize str.back.file.length text { str with back := { str.back with out := 0, outln := 0 } } where
  toReady := ⟨output.writable, output.err, output.seekable, output.buftype, output.size⟩
  text := output.text
  whole := output.whole
  level := output.level
  pos := output.pos
  dirty := output.dirty
  begun := Nat.le_refl _
  out := by simp
  outln := by simp

/-- What of the text has left the buffer. -/
def flushed (bufsize : Nat) (text : List UInt8) : List UInt8 := text.take (text.length / bufsize * bufsize)

theorem flushed_length (text : List UInt8) : (flushed bufsize text).length = text.length / bufsize * bufsize := by
  rw [flushed, List.length_take, Nat.min_eq_left (Nat.div_mul_le_self ..)]

theorem Output.file (output : Output bufsize start text str) (level : str.buffer.length < bufsize) :
    str.back.file = flushed bufsize text := by
  obtain ⟨n, length⟩ := output.whole
  have quotient : text.length / bufsize = n := by
    rw [← output.text, List.length_append, length, Nat.mul_add_div (Nat.zero_lt_of_lt level), Nat.div_eq_of_lt level,
      Nat.add_zero]
  rw [flushed, quotient, Nat.mul_comm, ← length, ← output.text, List.take_left]

theorem Output.close (output : Output bufsize start text str) :
    (mu_stream_close (fdMethods takes) str).2.back.file = text := by
  obtain ⟨str', flushed, -, back, -, -⟩ := flush_counted output.toReady output.dirty
  have methods : (if str'.wrt = true then (fdMethods takes).flush else none) = none := ite_self none
  rw [mu_stream_close, mu_stream_flush, flushed]
  simp only [methods]
  show str'.back.file = text
  rw [back]
  exact output.text

end

section
variable {takes : Nat → Nat} {bufsize : Nat} {capa : Capabilities} {env : Option Envelope} {header body : List UInt8}
  {mhm : Message}

/-- What is written before the body. -/
def head (capa : Capabilities) (env : Option Envelope) (header : List UInt8) (mhm : Message) : List UInt8 :=
  (envelope_lines env).flatten ++ ((kept_header (exclude_headers env) header).1 ++ status_line capa mhm.attr_flags) ++
    List.replicate (mhm.body_start - mhm.header_size) 45 ++ [LF]

theorem save_spec (positive : 0 < bufsize) (capa : Capabilities) (env : Option Envelope) (header body : List UInt8)
    (mhm : Message) :
    _amd_message_save takes bufsize capa env header body mhm =
      let before := flushed bufsize (head capa env header mhm)
      let after := (flushed bufsize (head capa env header mhm ++ body)).drop before.length
      ({ mhm with
          header_lines := before.count LF
          header_size := before.length
          body_start := before.length
          body_lines := after.count LF
          body_end := after.length },
        head capa env header mhm ++ body) := by
  obtain ⟨output, level⟩ := writes_output takes positive (envelope_lines env) tempstream_output positive
  obtain ⟨output, level⟩ := writes_output takes positive
    [(kept_header (exclude_headers env) header).1, status_line capa mhm.attr_flags] output level
  obtain ⟨output, level⟩ := writes_output takes positive
    (List.replicate (mhm.body_start - mhm.header_size) [45]) output level
  obtain ⟨output, level⟩ := writes_output takes positive [[LF]] output level
  have written : [] ++ (envelope_lines env).flatten ++
      [(kept_header (exclude_headers env) header).1, status_line capa mhm.attr_flags].flatten ++
      (List.replicate (mhm.body_start - mhm.header_size) [45]).flatten ++ [[LF]].flatten = head capa env header mhm := by
    rw [head, List.flatten_replicate_singleton]
    simp
  rw [written] at output
  rw [_amd_message_save]
  generalize mu_stream_writes takes _ [[LF]] = ostr at output level ⊢
  have file := output.file level
  obtain ⟨output', level'⟩ := writes_output takes positive [body] output.clear level
  rw [List.flatten_singleton] at output'
  dsimp only
  generalize mu_stream_writes takes _ [body] = ostr' at output' level' ⊢
  have file' := output'.file level'
  rw [output.out, output.outln, output'.out, output'.outln, output'.close, List.drop_zero, file', file]

end

/-- After the second byte there are header lines; before the body nothing is known of it, and in the
    body its end is where the scan is. -/
structure Finds (s : Scanner) : Prop where
  lines : s.pos = 0 ∧ s.state = .init ∨ s.pos = 1 ∧ s.state = .header_newline ∨
    1 ≤ s.mhm.header_lines ∧ s.state ≠ .init
  outside : s.state ≠ .body →
    s.mhm.body_start = 0 ∧ s.mhm.body_end = 0 ∧ s.mhm.header_size = 0 ∧ s.mhm.body_lines = 0
  inside : s.state = .body → 1 ≤ s.mhm.body_start ∧ s.mhm.body_end = s.pos

theorem Finds.enter {s : Scanner} (pos : 1 ≤ s.pos) (lines : 1 ≤ s.mhm.header_lines) (ndash : Nat) :
    Finds (s.enter ndash) :=
  ⟨.inr (.inr ⟨lines, nofun⟩), fun outside => absurd rfl outside, fun _ => ⟨pos, rfl⟩⟩

theorem Finds.stay {s : Scanner} (lines : 1 ≤ s.mhm.header_lines)
    (unknown : s.mhm.body_start = 0 ∧ s.mhm.body_end = 0 ∧ s.mhm.header_size = 0 ∧ s.mhm.body_lines = 0)
    (state : s.state ≠ .init ∧ s.state ≠ .body) : Finds s :=
  ⟨.inr (.inr ⟨lines, state.1⟩), fun _ => unknown, fun inside => absurd inside state.2⟩

theorem Finds.counted {s : Scanner} (finds : Finds s) (state : s.state ≠ .init ∧ s.state ≠ .header_newline) :
    1 ≤ s.mhm.header_lines := by
  rcases finds.lines with ⟨-, first⟩ | ⟨-, second⟩ | ⟨counted, -⟩
  · exact absurd first state.1
  · exact absurd second state.2
  · exact counted

theorem scan_status_finds {s : Scanner} (lines : 1 ≤ s.mhm.header_lines)
    (unknown : s.mhm.body_start = 0 ∧ s.mhm.body_end = 0 ∧ s.mhm.header_size = 0 ∧ s.mhm.body_lines = 0)
    (line : List UInt8) : Finds (scan_status s line) :=
  Finds.stay lines unknown ⟨nofun, nofun⟩

theorem scan_byte_finds (capa : Capabilities) {s : Scanner} (finds : Finds s) (cur : UInt8) :
    Finds (scan_byte capa s cur) := by
  rw [scan_byte]
  cases state : s.state with
  | init =>
    have first : s.pos = 0 := by
      rcases finds.lines with ⟨first, -⟩ | ⟨-, other⟩ | ⟨-, other⟩
      · exact first
      · rw [state] at other
        cases other
      · exact absurd state other
    exact ⟨.inr (.inl ⟨congrArg (· + 1) first, rfl⟩), fun _ => finds.outside (by rw [state]; decide), nofun⟩
  | header =>
    have unknown := finds.outside (by rw [state]; decide)
    have counted := finds.counted (by rw [state]; decide)
    refine Finds.stay counted unknown ?_
    dsimp only
    split
    · decide
    · decide
  | header_newline =>
    have unknown := finds.outside (by rw [state]; decide)
    have counted : 1 ≤ s.mhm.header_lines + 1 := Nat.le_add_left ..
    dsimp only
    rw [scan_newline]
    dsimp only
    split
    · exact Finds.enter (Nat.le_add_left ..) counted 0
    split
    · exact Finds.stay counted unknown ⟨nofun, nofun⟩
    split
    · split
      · exact Finds.stay counted unknown ⟨nofun, nofun⟩
      · exact Finds.stay counted unknown ⟨nofun, nofun⟩
    · exact Finds.stay counted unknown ⟨nofun, nofun⟩
  | header_dash =>
    have unknown := finds.outside (by rw [state]; decide)
    have counted := finds.counted (by rw [state]; decide)
    dsimp only
    rw [scan_dash]
    split
    · refine Finds.enter ?_ ?_ _
      · exact Nat.le_add_left ..
      · exact counted
    split
    · exact Finds.stay counted unknown ⟨nofun, nofun⟩
    · exact Finds.stay counted unknown ⟨nofun, nofun⟩
  | header_expect =>
    have unknown := finds.outside (by rw [state]; decide)
    have counted := finds.counted (by rw [state]; decide)
    dsimp only
    rw [scan_expect]
    split
    · exact Finds.stay counted unknown ⟨nofun, nofun⟩
    split
    · exact Finds.stay counted unknown ⟨nofun, nofun⟩
    split
    · exact Finds.stay counted unknown ⟨nofun, nofun⟩
    · refine Finds.stay counted unknown ?_
      dsimp only
      split
      · decide
      · decide
  | getline =>
    have unknown := finds.outside (by rw [state]; decide)
    have counted := finds.counted (by rw [state]; decide)
    dsimp only
    split
    · refine scan_status_finds ?_ ?_ _
      · exact counted
      · exact unknown
    · exact Finds.stay counted unknown ⟨nofun, nofun⟩
  | body =>
    obtain ⟨start, stop⟩ := finds.inside state
    have counted := finds.counted (by rw [state]; decide)
    exact ⟨.inr (.inr ⟨counted, nofun⟩), fun outside => absurd rfl outside, fun _ => ⟨start, congrArg (· + 1) stop⟩⟩

theorem scan_byte_pos (capa : Capabilities) (s : Scanner) (cur : UInt8) : (scan_byte capa s cur).pos = s.pos + 1 := by
  rw [scan_byte]
  cases s.state with
  | init | header | body => rfl
  | header_newline =>
    simp only [scan_newline, Scanner.enter]
    split_ifs <;> rfl
  | header_dash =>
    simp only [scan_dash, Scanner.enter]
    split_ifs <;> rfl
  | header_expect =>
    simp only [scan_expect]
    split_ifs <;> rfl
  | getline =>
    simp only [scan_status]
    split_ifs <;> rfl

theorem scan_finds (capa : Capabilities) (file : List UInt8) : ∀ {s : Scanner}, Finds s →
    Finds (file.foldl (scan_byte capa) s) ∧ (file.foldl (scan_byte capa) s).pos = s.pos + file.length := by
  induction file with
  | nil => exact fun finds => ⟨finds, rfl⟩
  | cons cur file ih =>
    intro s finds
    obtain ⟨found, pos⟩ := ih (scan_byte_finds capa finds cur)
    refine ⟨found, pos.trans ?_⟩
    rw [scan_byte_pos, List.length_cons]
    omega

/-- A scan finds the body, which ends with the file, or it leaves it at zero and has counted the header
    lines, if there is a second byte. -/
theorem scan_file_finds (capa : Capabilities) (file : List UInt8) :
    (1 ≤ (scan_file capa file {}).body_start ∧ (scan_file capa file {}).body_end = file.length) ∨
    ((scan_file capa file {}).body_start = 0 ∧ (file.length ≤ 1 ∨ 1 ≤ (scan_file capa file {}).header_lines)) := by
  have fresh : Finds { mhm := {} } := ⟨.inl ⟨rfl, rfl⟩, fun _ => ⟨rfl, rfl, rfl, rfl⟩, nofun⟩
  obtain ⟨finds, pos⟩ := scan_finds capa file fresh
  rw [scan_file]
  dsimp only
  generalize file.foldl (scan_byte capa) { mhm := {} } = s at finds pos ⊢
  have length : s.pos = file.length := pos.trans (Nat.zero_add _)
  -- what is read of a last line does not matter here
  have same : (if s.state = .getline then scan_status s s.line else s).mhm.body_start = s.mhm.body_start ∧
      (if s.state = .getline then scan_status s s.line else s).mhm.body_end = s.mhm.body_end ∧
      (if s.state = .getline then scan_status s s.line else s).mhm.header_lines = s.mhm.header_lines := by
    split
    · exact ⟨rfl, rfl, rfl⟩
    · exact ⟨rfl, rfl, rfl⟩
  rw [same.1, same.2.1, same.2.2, ← length]
  by_cases inside : s.state = .body
  · exact .inl (finds.inside inside)
  · refine .inr ⟨(finds.outside inside).1, ?_⟩
    rcases finds.lines with ⟨first, -⟩ | ⟨second, -⟩ | ⟨counted, -⟩
    · exact .inl (Nat.le_of_eq first |>.trans (Nat.zero_le 1))
    · exact .inl (Nat.le_of_eq second)
    · exact .inr counted

section
variable {takes : Nat → Nat} {bufsize : Nat} {capa : Capabilities} {env : Option Envelope} {header body : List UInt8}
  {mhm : Message}

theorem headless_iff : head capa env header mhm = [LF] ↔ Headless capa env header mhm := by
  have lines : (envelope_lines env).flatten = [] ↔ env.bind Envelope.sender = none ∧ env.bind Envelope.date = none := by
    rw [envelope_lines]
    cases env.bind Envelope.sender with
    | none =>
      cases env.bind Envelope.date with
      | none => simp
      | some date => simp
    | some sender => simp
  have status : status_line capa mhm.attr_flags = [] ↔
      capa.status = true ∨ mu_attribute_flags_to_string mhm.attr_flags = [] := by
    rw [status_line]
    split
    next none => exact ⟨fun _ => none, fun _ => rfl⟩
    next some => exact ⟨fun empty => by simp at empty, fun none => absurd none some⟩
  have empty : head capa env header mhm = [LF] ↔ (envelope_lines env).flatten = [] ∧
      ((kept_header (exclude_headers env) header).1 = [] ∧ status_line capa mhm.attr_flags = []) ∧
      mhm.body_start - mhm.header_size = 0 := by
    rw [head, List.append_left_eq_self]
    simp [and_assoc]
  rw [empty, lines, status, Nat.sub_eq_zero_iff_le]
  exact ⟨fun ⟨⟨sender, date⟩, ⟨header, flags⟩, dashes⟩ => ⟨sender, date, header, flags, dashes⟩,
    fun ⟨sender, date, header, flags, dashes⟩ => ⟨⟨sender, date⟩, ⟨header, flags⟩, dashes⟩⟩

/-- What a save leaves is the layout of the file exactly if it writes nothing but the empty line, and
    the buffer holds more than that. -/
theorem save_layout_iff (positive : 0 < bufsize) :
    Kept capa body (_amd_message_save takes bufsize capa env header body mhm).1
        (_amd_message_save takes bufsize capa env header body mhm).2 ↔
      1 < bufsize ∧ Headless capa env header mhm ∧ body = [] := by
  have spec : _amd_message_save takes bufsize capa env header body mhm = _ := save_spec positive capa env header body mhm
  have ends : [LF] <:+ head capa env header mhm := List.suffix_append ..
  rw [spec, ← headless_iff]
  generalize head capa env header mhm = h at ends ⊢
  dsimp only
  constructor
  · intro kept
    obtain ⟨layout, -, -⟩ := kept
    simp only [Message.layout, Prod.mk.injEq] at layout
    obtain ⟨-, lines, start, -, stop⟩ := layout
    have some_head : 1 ≤ h.length := ends.length_le
    have longer : (h ++ body).length = h.length + body.length := List.length_append
    rw [List.length_drop] at stop
    have within : (flushed bufsize (h ++ body)).length ≤ (h ++ body).length := List.length_take_le' ..
    rcases scan_file_finds capa (h ++ body) with ⟨found, last⟩ | ⟨unfound, counted⟩
    · -- the end of the body is the end of the file only if nothing was flushed before the body
      omega
    · have nothing : flushed bufsize h = [] := List.eq_nil_of_length_eq_zero (start.trans unfound)
      rw [nothing, List.count_nil] at lines
      have length : h.length = 1 := by omega
      refine ⟨?_, (ends.eq_of_length length.symm).symm, List.eq_nil_of_length_eq_zero (by omega)⟩
      have small : 1 / bufsize * bufsize = 0 := by
        rw [← length, ← flushed_length, nothing]
        rfl
      have more : bufsize ≠ 1 := by
        rintro rfl
        cases small
      omega
  · rintro ⟨large, rfl, rfl⟩
    have nothing : flushed bufsize [LF] = [] := by
      rw [flushed, List.length_singleton, Nat.div_eq_of_lt large, Nat.zero_mul, List.take_zero]
    rw [List.append_nil, nothing]
    refine ⟨rfl, rfl, fun off buflen => ?_⟩
    rw [amd_body_stream_read, if_neg (by simp), List.drop_nil, List.take_nil]
end

/-- A message without header and body. -/
theorem save_layout_iff_empty :
    (_amd_message_save (fun _ => 0) 8192 {} none [LF] [] {}).2 = [LF] ∧
    Kept {} [] (_amd_message_save (fun _ => 0) 8192 {} none [LF] [] {}).1
      (_amd_message_save (fun _ => 0) 8192 {} none [LF] [] {}).2 :=
  ⟨by decide,
    (save_layout_iff (by decide)).mpr ⟨by decide, ⟨rfl, rfl, by decide, .inr (by decide), Nat.le_refl 0⟩, rfl⟩⟩

/-- One header line and one line of body: with the usual buffer nothing was counted when the counters
    are read, and the body is empty. If all is counted, the body ends before it begins, and its size is
    almost the largest `size_t`. -/
theorem save_misplaces :
    _amd_message_save (fun _ => 8192) 8192 {} none (ascii "A: b\n\n") (ascii "x\n") {} = ({}, ascii "A: b\n\nx\n") ∧
    scan_file {} (ascii "A: b\n\nx\n") {} =
      { header_size := 6, header_lines := 2, body_start := 6, body_lines := 1, body_end := 8 } ∧
    amd_body_size {} = 0 ∧
    (_amd_message_save (fun _ => 0) 1 {} none (ascii "A: b\n\n") (ascii "x\n") {}).1 =
      { header_size := 6, header_lines := 2, body_start := 6, body_lines := 1, body_end := 2 } ∧
    amd_body_size { header_size := 6, header_lines := 2, body_start := 6, body_lines := 1, body_end := 2 } =
      18446744073709551612 := by
  decide

end Mailutils.AmdSave

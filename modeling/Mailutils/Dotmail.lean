import Mailutils.Dot
import Mailutils.Mailbox

/-!
An open dotmail mailbox and its scanner (`libproto/dotmail/dotmail.c`). The messages
stand in one file, each ended by a dot on a line of its own, with the lines of their
bodies dot-stuffed. The scanner reads the file byte by byte and keeps for each message
where it, its body and its end are, how long the body is without the stuffing, and how
many lines it has. It takes the first byte of a message for header, whatever it is, and
it counts the lines that are not empty.
-/
namespace Mailutils.Dotmail
open Mailutils.Filter Mailutils.Mailbox Mailutils.Dot Mailutils.Transducer

/-- `struct mu_dotmail_message`, with `hdr` as its three strings. -/
structure Message where
  message_start : Nat := 0
  body_start : Nat := 0
  message_end : Nat := 0
  body_size : Nat := 0
  body_lines : Nat := 0
  uid : Nat := 0
  status : Option (List UInt8) := none
  x_imapbase : Option (List UInt8) := none
  x_uid : Option (List UInt8) := none
  body_dot_stuffed : Bool := false
  body_lines_scanned : Bool := false
  uid_modified : Bool := false
  num : Nat := 0
  deriving DecidableEq, Repr

/-- `struct mu_dotmail_mailbox` together with the file its stream reads and writes.
    The last field says whether `exclude_headers[3]` is set: the table of
    `mailbox_append_message` is static, and all mailboxes share it. -/
structure Mailbox where
  file : List UInt8
  readable : Bool := true
  uidvalidity : Nat := 0
  uidnext : Nat := 1
  uidvalidity_scanned : Bool := false
  uidvalidity_changed : Bool := false
  x_imapbase_off : Nat := 0
  x_imapbase_len : Nat := 0
  mesg : List Message := []
  exclude_return_path : Bool := false
  deriving DecidableEq, Repr

def dotmail_alloc_next_uid (mbox : Mailbox) : Mailbox × Nat :=
  ({ mbox with uidvalidity_changed := true, uidnext := (mbox.uidnext + 1) % ulong }, mbox.uidnext)

def dotmail_message_alloc_uid (mbox : Mailbox) (dmsg : Message) : Mailbox × Message :=
  let (mbox, uid) := dotmail_alloc_next_uid mbox
  (mbox, { dmsg with x_uid := none, uid, uid_modified := true })

/-- `enum dotmail_scan_state`; in `getline` the rest of a line is being read by `mu_stream_getline`. -/
inductive ScanState
  | init | header | header_newline | header_expect | getline | body | body_newline | dot
  deriving DecidableEq, Repr

/-- The variables of the scanner. The messages before `dmsg` are in `mesg`, `line`
    is what `mu_stream_getline` has read, and `pos` is the position of the stream. -/
structure Scan where
  dmp : Mailbox
  dmsg : Message := {}
  state : ScanState := .init
  i : Nat := 0
  j : Nat := 0
  line : List UInt8 := []
  force_init_uids : Bool := false
  pos : Nat
  deriving DecidableEq, Repr

/-- The names of the fields that the scanner looks for. -/
def expect : List (List UInt8) := [ascii "status:    ", ascii "x-imapbase:", ascii "x-uid:     "]

/-- `hdr[i] = buf` -/
def Message.setHdr (dmsg : Message) (i : Nat) (buf : List UInt8) : Message :=
  match i with
  | 0 => { dmsg with status := some buf }
  | 1 => { dmsg with x_imapbase := some buf }
  | _ => { dmsg with x_uid := some buf }

/-- What follows `mu_stream_getline`, when it has read `line`. -/
def scan_field (s : Scan) (line : List UInt8) : Scan :=
  let dmsg := if line = [] then s.dmsg else s.dmsg.setHdr s.i (cstring line.dropLast)
  let x_imapbase_len := s.j + line.length
  let dmp :=
    if s.i = 1 then { s.dmp with x_imapbase_len, x_imapbase_off := s.pos - x_imapbase_len - 1 } else s.dmp
  { s with dmp, dmsg, line := [], state := .header_newline }

/-- The case `dotmail_scan_header_newline` -/
def scan_header_newline (s : Scan) (cur : UInt8) : Scan :=
  if cur = LF then { s with dmsg := { s.dmsg with body_start := s.pos }, state := .body_newline }
  else
    match expect.findIdx? fun name => name.getD 0 0 = tolower cur with
    | some i => { s with state := .header_expect, i, j := 1 }
    | none => { s with state := .header, i := expect.length, j := 0 }

/-- The name that `c` belongs to: the one that was expected or else the next one, if it began the same way. -/
def expected (i j : Nat) (c : UInt8) : Option Nat :=
  if (expect.getD i []).getD j 0 = c then some i
  else if i + 1 = expect.length ∨ (expect.getD i []).takeD j 0 ≠ (expect.getD (i + 1) []).takeD j 0 ∨
      (expect.getD (i + 1) []).getD j 0 ≠ c then none
  else some (i + 1)

/-- The case `dotmail_scan_header_expect` -/
def scan_header_expect (s : Scan) (cur : UInt8) : Scan :=
  if cur = LF then { s with state := .header_newline }
  else
    match expected s.i s.j (tolower cur) with
    | none => { s with i := s.i + 1, state := .header }
    | some i =>
      if tolower cur = COLON then { s with i, state := .getline }
      else if (expect.getD i []).getD (s.j + 1) 0 = 0 then { s with i, j := s.j + 1, state := .header_newline }
      else { s with i, j := s.j + 1 }

/-- The `X-IMAPbase` of the first message, whose two numbers may be stored separately. -/
def scan_x_imapbase (dmp : Mailbox) (dmsg : Message) : Mailbox :=
  match dmsg.x_imapbase.bind convertLu with
  | none => dmp
  | some (uidvalidity, rest) =>
    match convertLu rest with
    | none => { dmp with uidvalidity }
    | some (uidnext, _) => { dmp with uidvalidity, uidnext, uidvalidity_scanned := true }

/-- The `X-UID` of a message, where it may have it. -/
def scan_x_uid (s : Scan) : Option Nat :=
  match s.dmsg.x_uid.bind convertLu with
  | none => none
  | some (uid, _) =>
    if !s.force_init_uids && uid < s.dmp.uidnext && ∀ previous ∈ s.dmp.mesg.getLast?, previous.uid < uid then some uid
    else none

/-- The UID of a message that is complete. Once one has to get a new UID, all the following ones do. -/
def scan_uid (time : Nat) (s : Scan) : Scan :=
  if s.dmp.uidvalidity_scanned then
    match scan_x_uid s with
    | some uid => { s with dmsg := { s.dmsg with uid } }
    | none =>
      let (dmp, dmsg) :=
        dotmail_message_alloc_uid { s.dmp with uidvalidity := time, uidvalidity_changed := true } s.dmsg
      { s with dmp, dmsg, force_init_uids := true }
  else s

/-- The end of a message: a dot on a line of its own. -/
def scan_message_end (time : Nat) (s : Scan) : Scan :=
  let dmsg :=
    { s.dmsg with body_lines_scanned := true, message_end := s.pos - 2, body_size := s.dmsg.body_size - 1 }
  let dmp := if dmsg.num = 0 then scan_x_imapbase s.dmp dmsg else s.dmp
  let s := scan_uid time { s with dmp, dmsg }
  { s with dmp := { s.dmp with mesg := s.dmp.mesg ++ [s.dmsg] }, state := .init }

/-- The case `dotmail_scan_dot` -/
def scan_dot (time : Nat) (s : Scan) (cur : UInt8) : Scan :=
  if cur = LF then scan_message_end time s
  else if cur = DOT then { s with dmsg := { s.dmsg with body_dot_stuffed := true }, state := .body }
  else { s with dmsg := { s.dmsg with body_size := s.dmsg.body_size + 1 }, state := .body }

/-- The case `dotmail_scan_body` -/
def scan_body (s : Scan) (cur : UInt8) : Scan :=
  let dmsg := { s.dmsg with body_size := s.dmsg.body_size + 1 }
  if cur = LF then { s with dmsg := { dmsg with body_lines := dmsg.body_lines + 1 }, state := .body_newline }
  else { s with dmsg }

/-- The case `dotmail_scan_body_newline`; an empty line is not counted. -/
def scan_body_newline (s : Scan) (cur : UInt8) : Scan :=
  let state := if cur = DOT then .dot else if cur = LF then .body_newline else .body
  { s with dmsg := { s.dmsg with body_size := s.dmsg.body_size + 1 }, state }

/-- One byte in the loop of `dotmail_rescan_unlocked`. -/
def scan_byte (time : Nat) (s : Scan) (cur : UInt8) : Scan :=
  let s := { s with pos := s.pos + 1 }
  match s.state with
  | .init =>
    let dmsg : Message := { message_start := s.pos - 1, num := s.dmp.mesg.length }
    { s with dmsg, state := .header_newline, i := 0, j := 0 }
  | .header => { s with state := if cur = LF then .header_newline else .header }
  | .header_newline => scan_header_newline s cur
  | .header_expect => scan_header_expect s cur
  | .getline => if cur = LF then scan_field s (s.line ++ [cur]) else { s with line := s.line ++ [cur] }
  | .body => scan_body s cur
  | .body_newline => scan_body_newline s cur
  | .dot => scan_dot time s cur

/-- The end of the file: a message that is not complete is dropped, unless only the newline after its dot is missing. -/
def scan_eof (s : Scan) : Mailbox :=
  match s.state with
  | .dot => { s.dmp with mesg := s.dmp.mesg ++ [s.dmsg] }
  | .getline => (scan_field s s.line).dmp
  | _ => s.dmp

def dotmail_rescan_unlocked (time : Nat) (dmp : Mailbox) (offset : Nat) : Mailbox :=
  if dmp.readable then scan_eof ((dmp.file.drop offset).foldl (scan_byte time) { dmp, pos := offset }) else dmp

end Mailutils.Dotmail

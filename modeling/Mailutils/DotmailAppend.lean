import Mailutils.HeaderCopy
import Mailutils.Dotmail

/-!
Appending a message to a dotmail mailbox (`mailbox_append_message` of
`libproto/dotmail/dotmail.c`): a `Received` field with the date of the envelope, the header
without the fields that belong to the mailbox, the sender, the flags and the UID, and the
body, dot-stuffed. If something fails, the file is truncated to its former size, and what
the function returns is the code of this truncation: it reports success. A UID that was
allocated is not given back. If the filter for the body cannot be created, nothing looks at
the error, and the body is copied from a stream that does not exist; and if the body cannot
be copied, the stream of the message, which went with the filter, is destroyed once more.
-/
namespace Mailutils.Dotmail
open Mailutils.Filter Mailutils.Mailbox Mailutils.Stream Mailutils.Dot Mailutils.HeaderCopy

/-- How the body passes the filter: the calls of the encoder and the sizes of the blocks that are read from it. -/
structure Transfer where
  schedule : List Offer
  reads : List Nat := []

private theorem succ_mod_ulong_ne (n : Nat) : (n + 1) % ulong ≠ n := by
  have range : (n + 1) % ulong < ulong := Nat.mod_lt _ (by decide)
  intro same
  rcases Nat.lt_or_ge (n + 1) ulong with less | more
  · rw [Nat.mod_eq_of_lt less] at same
    omega
  · have top : n + 1 = ulong := by omega
    rw [top, Nat.mod_self] at same
    rw [← same] at top
    exact absurd top (by decide)

/-- A date as `mu_c_streamftime` writes it with `MU_DATETIME_FORM_RFC822`, on one line. -/
abbrev Date := { text : List UInt8 // LF ∉ text }

/-- An envelope: its sender, and its date if `mu_parse_date_dtl` reads it. -/
structure Envelope where
  sender : Option (List UInt8) := none
  date : Option Date := none

/-- A message that is to be appended: the text that its stream reads, its envelope and its flags. -/
structure Posting where
  text : List UInt8
  env : Option Envelope := none
  atr : Option Attribute := none

def Posting.sender (msg : Posting) : Option (List UInt8) := msg.env.bind Envelope.sender

def Posting.date (msg : Posting) : Option Date := msg.env.bind Envelope.date

def Posting.statbuf (msg : Posting) : List UInt8 := (msg.atr.map mu_attribute_flags_to_string).getD []

/-- Which operations of an append fail. -/
structure Faults where
  seek : Bool := false
  streamref : Bool := false
  attributes : Bool := false
  received : Fault := none
  date : Fault := none
  received_end : Fault := none
  header : HeaderCopy.Faults := {}
  return_path : Fault := none
  status : Fault := none
  imapbase : Fault := none
  uid : Fault := none
  newline : Fault := none
  filter : Bool := false
  body : CopyFaults := {}
  truncate : Bool := false

/-- `exclude_headers`, as it is at the moment. -/
def exclude_headers (dmp : Mailbox) : List (List UInt8) :=
  [X_IMAPBASE, X_UID, STATUS] ++ if dmp.exclude_return_path then [RETURN_PATH] else []

/-- An envelope with a sender puts `Return-Path` into the table, and nothing takes it out again. -/
def note_sender (dmp : Mailbox) (msg : Posting) : Mailbox :=
  if msg.sender.isSome then { dmp with exclude_return_path := true } else dmp

/-- Writes whose errors are not looked at. -/
def puts (writes : List (Fault × List UInt8)) (stream : File) : File :=
  writes.foldl (fun stream (fault, data) => (stream.write fault data).1) stream

/-- The `Received` field for the date of an envelope. -/
def received_writes (faults : Faults) (msg : Posting) : List (Fault × List UInt8) :=
  match msg.date with
  | none => []
  | some date =>
    [(faults.received, ascii "Received: from localhost\n\tby localhost; "), (faults.date, date.1),
      (faults.received_end, [LF])]

/-- The fields that the mailbox adds to a header. -/
def field_writes (faults : Faults) (dmp : Mailbox) (msg : Posting) : List (Fault × List UInt8) :=
  (match msg.sender with
    | none => []
    | some sender => [(faults.return_path, RETURN_PATH ++ [COLON, SP] ++ sender ++ [LF])]) ++
  (if msg.statbuf = [] then [] else [(faults.status, STATUS ++ [COLON, SP] ++ msg.statbuf ++ [LF])]) ++
  if dmp.uidvalidity_scanned then
    (if dmp.mesg = [] then
      [(faults.imapbase,
        X_IMAPBASE ++ [COLON, SP] ++ printPadded dmp.uidvalidity ++ [SP] ++ printPadded dmp.uidnext ++ [LF])]
    else []) ++ [(faults.uid, X_UID ++ [COLON, SP] ++ printLu dmp.uidnext ++ [LF])]
  else []

/-- The mailbox after the UID of a new message is allocated. -/
def take_uid (dmp : Mailbox) : Mailbox := if dmp.uidvalidity_scanned then (dotmail_alloc_next_uid dmp).1 else dmp

/-- The body of a message after the filter. -/
def encodedBody (transfer : Transfer) (body : List UInt8) : List UInt8 :=
  (drive dot_encoder .init body transfer.schedule).output

/-- The message after its header. There is no result if the filter is not created, as `flt` is not initialised then,
    nor if the body is not copied: `istr` was freed with the filter, and is destroyed again. -/
def append_rest (faults : Faults) (transfer : Transfer) (dmp : Mailbox) (msg : Posting) (stream : File)
    (body : List UInt8) : Option (Mailbox × File × Bool) :=
  let (stream, ok) := (puts (field_writes faults dmp msg) stream).write faults.newline [LF]
  if !ok then some (take_uid dmp, stream, false)
  else if faults.filter then none
  else
    let (stream, _, ok) := copy_wcb faults.body 0 0 stream (cut transfer.reads (encodedBody transfer body))
    if ok then some (take_uid dmp, stream, true) else none

/-- The `do` block: the message itself, at the end of the file. -/
def append_text (faults : Faults) (transfer : Transfer) (dmp : Mailbox) (msg : Posting) (stream : File) :
    Option (Mailbox × File × Bool) :=
  if msg.atr.isSome && faults.attributes then some (dmp, stream, false)
  else
    let dmp := note_sender dmp msg
    let (stream, body, ok) := mu_stream_header_copy faults.header (exclude_headers dmp)
      (puts (received_writes faults msg) stream) msg.text
    if ok then append_rest faults transfer dmp msg stream body else some (dmp, stream, false)

/-- What comes of a call: it returns a code and leaves a mailbox, or its behaviour is not defined. -/
inductive Result
  | returned (rc : Rc) (dmp : Mailbox)
  | undefined
  deriving DecidableEq, Repr

def mailbox_append_message (time : Nat) (faults : Faults) (transfer : Transfer) (dmp : Mailbox) (msg : Posting) :
    Result :=
  let size := dmp.file.length
  if faults.seek || faults.streamref then .returned .io dmp
  else
    match append_text faults transfer dmp msg ⟨dmp.file, size⟩ with
    | none => .undefined
    | some (dmp, stream, true) =>
      .returned .ok (dotmail_rescan_unlocked time { dmp with file := stream.content } size)
    | some (dmp, stream, false) =>
      -- `rc` is replaced by the code of the truncation
      if faults.truncate then .returned .io { dmp with file := stream.content }
      else .returned .ok { dmp with file := stream.truncate size }

/-- The operations of an append whose errors are looked at, or should be. -/
inductive Step
  | attributes | header | newline | filter | body
  deriving DecidableEq, Repr

/-- The operation at which an append fails. -/
def failure (faults : Faults) (transfer : Transfer) (dmp : Mailbox) (msg : Posting) : Option Step :=
  let (_, body, copied) :=
    mu_stream_header_copy faults.header (exclude_headers (note_sender dmp msg)) ⟨[], 0⟩ msg.text
  let blocks := cut transfer.reads (encodedBody transfer body)
  if msg.atr.isSome && faults.attributes then some .attributes
  else if !copied then some .header
  else if faults.newline.isSome then some .newline
  else if faults.filter then some .filter
  else if !(copy_wcb faults.body 0 0 ⟨[], 0⟩ blocks).2.2 then some .body
  else none

/-- The steps behind whose failure nothing is defined. -/
def Step.Undefined (step : Step) : Prop := step = .filter ∨ step = .body

instance (step : Step) : Decidable step.Undefined := inferInstanceAs (Decidable (_ ∨ _))

/-- The mailbox that a failed append leaves, apart from its file. -/
def leftBy (dmp : Mailbox) (msg : Posting) : Step → Mailbox
  | .attributes => dmp
  | .header => note_sender dmp msg
  | .newline | .filter | .body => take_uid (note_sender dmp msg)

theorem puts_extends (writes : List (Fault × List UInt8)) {base : List UInt8} {stream : File}
    (after : stream.Extends base) : (puts writes stream).Extends base := by
  induction writes generalizing stream with
  | nil => exact after
  | cons write writes ih => exact ih (write_extends after write.1 write.2)

private theorem append_rest_failed {faults : Faults} {transfer : Transfer} {dmp : Mailbox} {msg : Posting} {stream : File}
    {body base : List UInt8} (after : stream.Extends base) :
    if faults.newline.isSome then
      ∃ stream', append_rest faults transfer dmp msg stream body = some (take_uid dmp, stream', false) ∧
        stream'.Extends base
    else faults.filter ∨
        !(copy_wcb faults.body 0 0 ⟨[], 0⟩ (cut transfer.reads (encodedBody transfer body))).2.2 →
      append_rest faults transfer dmp msg stream body = none := by
  have ended := write_extends (puts_extends (field_writes faults dmp msg) after) faults.newline [LF]
  unfold append_rest
  cases newline : faults.newline with
  | some stored =>
    rw [newline] at ended
    exact ⟨_, rfl, ended⟩
  | none =>
    simp only [Option.isSome_none, Bool.false_eq_true, if_false]
    rintro (filter | copy)
    · simp [File.write, filter]
    · rw [Bool.not_eq_true'] at copy
      have same (stream' : File) : (copy_wcb faults.body 0 0 stream' (cut transfer.reads (encodedBody transfer body))).2.2 =
          false := by
        rw [copy_wcb_apart faults.body _ 0 0 stream' ⟨[], 0⟩, copy]
      simp [File.write, same]

/-- An append that fails has only added to the file, where it is defined what it does. -/
theorem append_text_failed {faults : Faults} {transfer : Transfer} {dmp : Mailbox} {msg : Posting} {stream : File}
    {base : List UInt8} (after : stream.Extends base) {step : Step}
    (failed : failure faults transfer dmp msg = some step) :
    if step.Undefined then append_text faults transfer dmp msg stream = none
    else
      ∃ stream', append_text faults transfer dmp msg stream = some (leftBy dmp msg step, stream', false) ∧
        stream'.Extends base := by
  have received := puts_extends (received_writes faults msg) after
  have headed := header_copy_extends faults.header (exclude_headers (note_sender dmp msg)) msg.text received
  have apart := header_copy_apart faults.header (exclude_headers (note_sender dmp msg))
    (puts (received_writes faults msg) stream) ⟨[], 0⟩ msg.text
  unfold failure at failed
  unfold append_text
  dsimp only
  generalize mu_stream_header_copy faults.header (exclude_headers (note_sender dmp msg)) ⟨[], 0⟩ msg.text = read
    at failed apart
  generalize mu_stream_header_copy faults.header (exclude_headers (note_sender dmp msg))
    (puts (received_writes faults msg) stream) msg.text = copy at apart headed ⊢
  obtain ⟨stream', body, copied⟩ := copy
  obtain ⟨_, _, _⟩ := read
  cases apart
  dsimp only at failed headed ⊢
  split at failed
  · next attributes =>
    cases failed
    rw [if_neg (by decide), if_pos attributes]
    exact ⟨stream, rfl, after⟩
  · next attributes =>
    rw [if_neg attributes]
    cases copied with
    | false =>
      cases failed
      rw [if_neg (by decide)]
      exact ⟨stream', rfl, headed⟩
    | true =>
      have rest := @append_rest_failed faults transfer (note_sender dmp msg) msg stream' body base headed
      simp only [Bool.not_true, Bool.false_eq_true, if_false] at failed
      rw [if_pos rfl]
      split at failed
      · next newline =>
        cases failed
        rw [if_pos newline] at rest
        rwa [if_neg (by decide)]
      · next newline =>
        rw [if_neg newline] at rest
        split at failed
        · next filter =>
          cases failed
          rw [if_pos (.inl rfl)]
          exact rest (.inl filter)
        · split at failed
          · next copy =>
            cases failed
            rw [if_pos (.inr rfl)]
            exact rest (.inr copy)
          · cases failed

theorem take_uid_uidnext (dmp : Mailbox) : (take_uid dmp).uidnext = dmp.uidnext ↔ dmp.uidvalidity_scanned = false := by
  unfold take_uid
  cases dmp.uidvalidity_scanned
  · simp
  · refine iff_of_false (succ_mod_ulong_ne dmp.uidnext) (by simp)

theorem note_sender_same (dmp : Mailbox) (msg : Posting) :
    (note_sender dmp msg).mesg = dmp.mesg ∧ (note_sender dmp msg).uidnext = dmp.uidnext ∧
      (note_sender dmp msg).uidvalidity_scanned = dmp.uidvalidity_scanned := by
  unfold note_sender
  split
  · exact ⟨rfl, rfl, rfl⟩
  · exact ⟨rfl, rfl, rfl⟩

theorem take_uid_mesg (dmp : Mailbox) : (take_uid dmp).mesg = dmp.mesg := by
  unfold take_uid
  split
  · rfl
  · rfl

theorem leftBy_mesg (dmp : Mailbox) (msg : Posting) (step : Step) : (leftBy dmp msg step).mesg = dmp.mesg := by
  obtain ⟨mesg, _, _⟩ := note_sender_same dmp msg
  cases step
  · rfl
  · exact mesg
  all_goals exact (take_uid_mesg _).trans mesg

theorem leftBy_uidnext (dmp : Mailbox) (msg : Posting) (step : Step) :
    (leftBy dmp msg step).uidnext = dmp.uidnext ↔
      dmp.uidvalidity_scanned = false ∨ step = .attributes ∨ step = .header := by
  obtain ⟨_, uidnext, scanned⟩ := note_sender_same dmp msg
  have taken := take_uid_uidnext (note_sender dmp msg)
  rw [uidnext, scanned] at taken
  cases step
  · simp [leftBy]
  · simp [leftBy, uidnext]
  all_goals simpa [leftBy] using taken

/-- The call reports an error, and the mailbox is what it was. -/
def Undone (dmp : Mailbox) : Result → Prop
  | .returned rc dmp' => rc ≠ .ok ∧ dmp'.file = dmp.file ∧ dmp'.uidnext = dmp.uidnext ∧ dmp'.mesg = dmp.mesg
  | .undefined => False

/-- What an append that fails returns, when the file can be truncated. -/
theorem append_failed (time : Nat) {faults : Faults} {transfer : Transfer} {dmp : Mailbox} {msg : Posting}
    (begun : faults.seek = false ∧ faults.streamref = false) (truncates : faults.truncate = false) {step : Step}
    (failed : failure faults transfer dmp msg = some step) :
    mailbox_append_message time faults transfer dmp msg =
      if step.Undefined then .undefined else .returned .ok { leftBy dmp msg step with file := dmp.file } := by
  have after : (File.mk dmp.file dmp.file.length).Extends dmp.file := ⟨List.prefix_refl _, rfl⟩
  have text := append_text_failed after failed
  unfold mailbox_append_message
  simp only [begun.1, begun.2, Bool.or_self, Bool.false_eq_true, if_false]
  by_cases undefined : step.Undefined
  · rw [if_pos undefined] at text ⊢
    rw [text]
  · rw [if_neg undefined] at text ⊢
    obtain ⟨stream, text, added⟩ := text
    rw [text]
    simp only [truncates, Bool.false_eq_true, if_false, truncate_extends added]

/-- No failure of an append is reported as one: the code is that of the truncation, which
    succeeds. The file and the messages are as before, but a UID that was allocated is missing.
    Without the filter, or if the body is not copied, the behaviour is not defined. -/
theorem append_failure_unreported (time : Nat) (faults : Faults) (transfer : Transfer) (dmp : Mailbox) (msg : Posting)
    (begun : faults.seek = false ∧ faults.streamref = false) (truncates : faults.truncate = false) :
    ((∀ step ∈ failure faults transfer dmp msg, step ≠ .newline →
          Undone dmp (mailbox_append_message time faults transfer dmp msg)) ↔
        ∀ step ∈ failure faults transfer dmp msg, step = .newline) ∧
      ∀ step ∈ failure faults transfer dmp msg,
        if step.Undefined then mailbox_append_message time faults transfer dmp msg = .undefined
        else ∃ dmp', mailbox_append_message time faults transfer dmp msg = .returned .ok dmp' ∧ dmp'.file = dmp.file ∧
          dmp'.mesg = dmp.mesg ∧
          (dmp'.uidnext = dmp.uidnext ↔ dmp.uidvalidity_scanned = false ∨ step = .attributes ∨ step = .header) := by
  constructor
  · refine forall_congr' fun step => forall_congr' fun failed => ?_
    constructor
    · intro undone
      by_contra other
      have reported := undone other
      rw [append_failed time begun truncates failed] at reported
      split at reported
      · exact reported
      · exact reported.1 rfl
    · intro newline other
      exact absurd newline other
  · intro step failed
    rw [append_failed time begun truncates failed]
    split
    · rfl
    · exact ⟨_, rfl, rfl, leftBy_mesg dmp msg step, leftBy_uidnext dmp msg step⟩

/-- A mailbox without messages that gives out UIDs. -/
def numbered : Mailbox := { file := [], uidvalidity := 1, uidnext := 5, uidvalidity_scanned := true }

/-- A message of one field and one line. -/
def short : Posting := { text := ascii "A: b\n\nc\n", atr := some {} }

/-- The body is encoded in one call. -/
def at_once : Transfer := { schedule := [⟨0, true, 64⟩] }

/-- A header that cannot be read: the mailbox is as it was, and the call says that all is well. -/
theorem append_failure_unreported_header :
    failure { header := { read := fun _ => true } } at_once numbered short = some .header ∧
      ∃ dmp', mailbox_append_message 0 { header := { read := fun _ => true } } at_once numbered short =
          .returned .ok dmp' ∧ dmp'.file = [] ∧ dmp'.mesg = [] ∧
        (dmp'.uidnext = 5 ↔ true = false ∨ Step.header = .attributes ∨ Step.header = .header) :=
  ⟨by decide, (append_failure_unreported 0 { header := { read := fun _ => true } } at_once numbered short ⟨rfl, rfl⟩
    rfl).2 .header (by decide)⟩

/-- Success is reported when the flags cannot be had or the header cannot be read; without the
    filter, or if the body cannot be written, there is no telling what happens. -/
theorem append_failure_succeeds :
    mailbox_append_message 0 { attributes := true } at_once numbered short = .returned .ok numbered ∧
      mailbox_append_message 0 { header := { read := fun _ => true } } at_once numbered short =
        .returned .ok numbered ∧
      mailbox_append_message 0 { filter := true } at_once numbered short = .undefined ∧
      mailbox_append_message 0 { body := { write := fun _ => some 0 } } at_once numbered short = .undefined := by
  decide

end Mailutils.Dotmail

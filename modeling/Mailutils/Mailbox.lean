import Mailutils.Characters

/-!
What the mailbox formats have in common (`libproto`): the flags of a message and their letters, the header fields that
a mailbox keeps its own data in, and what its functions return.
-/
namespace Mailutils.Mailbox

/-- The flags `MU_ATTRIBUTE_...` of a message. -/
structure Attribute where
  answered : Bool := false
  flagged : Bool := false
  deleted : Bool := false
  draft : Bool := false
  seen : Bool := false
  read : Bool := false
  modified : Bool := false
  forwarded : Bool := false
  deriving DecidableEq, Repr

/-- `MU_HEADER_X_IMAPBASE` -/
def X_IMAPBASE : List UInt8 := ascii "X-IMAPbase"
/-- `MU_HEADER_X_UID` -/
def X_UID : List UInt8 := ascii "X-UID"
/-- `MU_HEADER_STATUS` -/
def STATUS : List UInt8 := ascii "Status"
/-- `MU_HEADER_RETURN_PATH` -/
def RETURN_PATH : List UInt8 := ascii "Return-Path"

/-- `flagtrans`: the flag of a letter. -/
def setLetter (flags : Attribute) (c : UInt8) : Attribute :=
  if c = 65 then { flags with answered := true }
  else if c = 70 then { flags with flagged := true }
  else if c = 68 then { flags with deleted := true }
  else if c = 100 then { flags with draft := true }
  else if c = 79 then { flags with seen := true }
  else if c = 80 then { flags with forwarded := true }
  else if c = 82 then { flags with read := true }
  else flags

def mu_attribute_string_to_flags (buffer : List UInt8) (flags : Attribute) : Attribute :=
  let sep := if (buffer.take 7).map tolower = ascii "status:" then buffer.drop 7 else buffer
  sep.foldl setLetter flags

def mu_attribute_flags_to_string (flags : Attribute) : List UInt8 :=
  [(flags.answered, 65), (flags.flagged, 70), (flags.deleted, 68), (flags.draft, 100), (flags.seen, 79),
    (flags.forwarded, 80), (flags.read, 82)].filterMap fun (set, letter) => if set then some letter else none

/-- What a return code says here: success, `EINVAL`, `MU_ERR_PARSE`, that reading
    or writing failed, or that there was less to read than there should be. -/
inductive Rc
  | ok | inval | parse | io | short
  deriving DecidableEq, Repr

end Mailutils.Mailbox

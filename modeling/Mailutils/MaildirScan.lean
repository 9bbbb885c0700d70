import Mailutils.Text
import Mailutils.Mailbox
import Mailutils.MhScan

/-!
UIDs of a maildir mailbox (`libproto/maildir/maildir.c`). A message in `cur` has its UID in the
name of its file. When the mailbox is scanned, the messages keep their UIDs as long as these
increase; from the first one that does not, all get new ones, and the UIDVALIDITY of the mailbox is
reset. New messages get UIDs from the stored UIDNEXT on. The numbers are given by a rule over the
natural numbers (`numbers`). The counter of the scan is a `size_t` and the property that stores it
an `off_t`, so the scan keeps to the rule as long as the numbers stay below the largest one that can
be read from a property and the stored UIDNEXT is a number (`scan_numbers_iff`).
-/
namespace Mailutils.Maildir
open Mailutils.Mailbox Mailutils.Text
open Mailutils.Mh (OFF_MAX)

inductive Subdir
  | cur | new
  deriving DecidableEq, Repr

/-- `struct _maildir_message` -/
structure Msg where
  subdir : Subdir
  file_name : List UInt8
  uniq_len : Nat
  attr_flags : Attribute
  uid : Nat := 0
  deriving DecidableEq, Repr

/-- `info_to_flags`; both `R` and the older `a` are for answered messages. -/
def info_to_flags (buf : List UInt8) : Attribute where
  draft := 68 ∈ buf
  flagged := 70 ∈ buf
  forwarded := 80 ∈ buf
  answered := 82 ∈ buf ∨ 97 ∈ buf
  read := 83 ∈ buf
  deleted := 84 ∈ buf

/-- The codes of `,`, `1`, `2`, `:` and `=`; any other character has 0. -/
def alpha (input : UInt8) : Nat :=
  if input = 44 then 1
  else if input = 49 then 2
  else if input = 50 then 3
  else if input = 58 then 4
  else if input = 61 then 5
  else 0

/-- The automaton that reads a name from its end; 8 is where it stops. -/
def transition : List (List Nat) :=
  [[0, 1, 0, 0, 0, 0],
   [0, 0, 2, 3, 0, 0],
   [0, 0, 0, 0, 4, 0],
   [0, 0, 0, 0, 5, 0],
   [6, 8, 6, 6, 6, 8],
   [6, 8, 6, 6, 6, 8],
   [6, 8, 6, 6, 6, 7],
   [7, 6, 7, 7, 7, 8]]

/-- The variables of `maildir_message_name_parse`, with offsets in the name for the pointers. -/
structure NameParse where
  state : Nat := 0
  endp : Nat
  startval : Nat := 0
  endval : Nat := 0
  athead : List (List UInt8 × List UInt8) := []
  f : Attribute := {}

/-- An attribute is from after `p` to `endval`, with `=` before `startval`. -/
def attrib_push (name : List UInt8) (attrnames : List (List UInt8)) (p : Nat) (parse : NameParse) :
    List (List UInt8 × List UInt8) :=
  let attr := (name.drop (p + 1)).take (parse.startval - p - 2)
  let val := (name.drop parse.startval).take (parse.endval - parse.startval)
  if attr ∈ attrnames then (attr, val) :: parse.athead else parse.athead

/-- The loop of `maildir_message_name_parse`, with `p` at the offset after the next character. -/
def name_parse_loop (name : List UInt8) (attrnames : List (List UInt8)) : Nat → NameParse → NameParse
  | 0, parse => parse
  | p + 1, parse =>
    let state := (transition.getD parse.state []).getD (alpha (name.getD p 0)) 0
    match state with
    | 4 => name_parse_loop name attrnames p { parse with state := 4, endp := p, endval := p, f := {} }
    | 5 =>
      name_parse_loop name attrnames p
        { parse with state := 5, endp := p, endval := p, f := info_to_flags (name.drop (p + 3)) }
    | 6 =>
      if parse.state = 7 then
        name_parse_loop name attrnames p
          { parse with state := 6, athead := attrib_push name attrnames p parse, endp := p, endval := p }
      else if parse.state ≠ 6 then name_parse_loop name attrnames p { parse with state := 6, endval := p + 1 }
      else name_parse_loop name attrnames p parse
    | 7 =>
      name_parse_loop name attrnames p
        { parse with state := 7, startval := if parse.state ≠ 7 then p + 1 else parse.startval }
    -- `endval` was set when the automaton left its first four states.
    | 8 => { parse with state := 8, endp := parse.endval }
    | _ => name_parse_loop name attrnames p { parse with state := state }

/-- The length of the unique part of a name, its flags and those of its attributes that are looked for. -/
def maildir_message_name_parse (name : List UInt8) (attrnames : List (List UInt8)) :
    Nat × Attribute × List (List UInt8 × List UInt8) :=
  let parse := name_parse_loop name attrnames name.length { endp := name.length }
  (parse.endp, parse.f, parse.athead)

/-- The UID in the value of an attribute. The error code of `strtoul` is not cleared before, and may
    be there from an earlier call (`erange`). -/
def attrib_uid (erange : Bool) (p : List UInt8) : Nat :=
  let (n, endp) := strtoul p
  if n = ulong - 1 ∧ (erange ∨ strtoul_erange p) ∨ endp ≠ [] then 0 else n

def maildir_message_alloc (subdir : Subdir) (name : List UInt8) (erange : Bool) : Msg :=
  let (n, flags, attrs) := maildir_message_name_parse name [ascii "a", ascii "u"]
  { subdir := subdir
    file_name := name
    uniq_len := n
    attr_flags := (attrs.lookup (ascii "a")).elim flags fun p => mu_attribute_string_to_flags p flags
    uid := (attrs.lookup (ascii "u")).elim 0 (attrib_uid erange) }

example : (maildir_message_alloc .cur (ascii "1528.V1.h,u=27,a=AR:2,FS") false).uid = 27 := by decide +kernel

/-- The loop of `_amd_prop_fetch_off` over the text of a property: nothing if the `off_t`
    overflows, and an error for a character that is not a digit. -/
def fetch_digits : List UInt8 → Nat → Option (Except Unit Nat)
  | [], n => some (.ok n)
  | c :: p, n =>
    if !isdigit c then some (.error ())
    -- the character is added before the zero is subtracted
    else if 10 * n + c.toNat > OFF_MAX then none
    else fetch_digits p (10 * n + (c.toNat - 48))

/-- The largest number that is read from a property. -/
def PROP_MAX : Nat := OFF_MAX - 48

/-- `_amd_prop_fetch_size` for the stored UIDNEXT, with 1 for none. -/
def fetch_uidnext (uidnext : Option (List UInt8)) : Option (Except Unit Nat) :=
  match uidnext with
  | none => some (.ok 1)
  | some text => fetch_digits text 0

/-- `_amd_prop_store_off` of a `size_t`: a large one is negative as an `off_t`. The least `off_t`
    cannot be negated. -/
def _amd_prop_store_off (val : Nat) : Option (List UInt8) :=
  if val ≤ OFF_MAX then some (printLu val)
  else if val = OFF_MAX + 1 then none
  else some (45 :: printLu (ulong - val))

/-- `amd_update_uidnext`: the new value and the property. -/
def amd_update_uidnext (uidnext : Option (List UInt8)) (newval : Nat) : Option (Nat × Option (List UInt8)) :=
  match fetch_uidnext uidnext with
  | none => none
  | some (.error _) => some (newval, uidnext)
  | some (.ok curval) =>
    if newval < curval then some (curval, uidnext)
    else (_amd_prop_store_off newval).map fun text => (newval, some text)

/-- What is the same for all messages of a scan. -/
structure Mode where
  /-- The mailbox is open for writing. -/
  writable : Bool
  needs_attribute_fixup : Bool

/-- The part of `struct _maildir_data` that a scan changes, and its variable `has_new`. -/
structure Scan where
  next_uid : Nat := 1
  needs_uid_fixup : Bool := false
  has_new : Bool := false
  uidnext : Option (List UInt8)
  deriving DecidableEq, Repr

/-- What the scan sees of `maildir_chattr_msg`, of which `renamed` says whether it succeeds. The name
    that the file gets is not looked at again. -/
def chattr_subdir (renamed : Bool) (msg : Msg) : Msg := if renamed then { msg with subdir := .cur } else msg

/-- The attributes in a mailbox of an old version. -/
def attribute_fixup (flags : Attribute) : Attribute :=
  let flags := if flags.read then { flags with read := false, seen := true } else flags
  if flags.answered then { flags with answered := false, read := true } else flags

def maildir_message_fixup (mode : Mode) (renamed : Bool) (md : Scan) (msg : Msg) : Scan × Msg :=
  let flags := if mode.needs_attribute_fixup then attribute_fixup msg.attr_flags else msg.attr_flags
  let md := if msg.uid = 0 ∨ msg.uid < md.next_uid then { md with needs_uid_fixup := true } else md
  let update := flags ≠ msg.attr_flags ∨ md.needs_uid_fixup
  let (uid, next_uid) :=
    if md.needs_uid_fixup then (md.next_uid, (md.next_uid + 1) % ulong) else (msg.uid, (msg.uid + 1) % ulong)
  let msg := { msg with attr_flags := flags, uid := uid }
  ({ md with next_uid := next_uid }, if update ∧ mode.writable then chattr_subdir renamed msg else msg)

/-- The stored UIDNEXT is looked at before the first new message, and before others if that one could
    not be renamed. -/
def predict_next_uid (md : Scan) (msg : Msg) : Option Scan :=
  if msg.subdir = .new ∧ md.has_new = false then
    (amd_update_uidnext md.uidnext md.next_uid).map fun (next_uid, uidnext) =>
      { md with next_uid := next_uid, uidnext := uidnext }
  else some md

/-- The loop of `maildir_scan_unlocked` for one message. -/
def scan_message (mode : Mode) (renamed : Bool) (md : Scan) (msg : Msg) : Option (Scan × Msg) :=
  (predict_next_uid md msg).map fun md =>
    if msg.subdir = .new ∧ mode.writable then
      ({ md with next_uid := (md.next_uid + 1) % ulong, has_new := md.has_new || renamed },
        chattr_subdir renamed { msg with uid := md.next_uid })
    else
      maildir_message_fixup mode renamed (if md.has_new then { md with needs_uid_fixup := true } else md) msg

/-- The loop over the message array; for each message it is given whether its file is renamed. -/
def scan_messages (mode : Mode) : Scan → List (Msg × Bool) → Option (Scan × List Msg)
  | md, [] => some (md, [])
  | md, (msg, renamed) :: msgs =>
    match scan_message mode renamed md msg with
    | none => none
    | some (md, msg) => (scan_messages mode md msgs).map fun (md, msgs) => (md, msg :: msgs)

/-- A file of the mailbox: where it is, its name, what the error code is when it is read, and
    whether it can be renamed. -/
structure File where
  subdir : Subdir
  name : List UInt8
  erange : Bool := false
  renamed : Bool := true

def File.msg (file : File) : Msg := maildir_message_alloc file.subdir file.name file.erange

/-- The message array, with whether the files can be renamed. -/
def array (files : List File) : List (Msg × Bool) := files.map fun file => (file.msg, file.renamed)

/-- What a scan leaves: the message array and the properties. -/
structure Scanned where
  msgs : List Msg
  uidnext : Option (List UInt8)
  uidvalidity : Option (List UInt8)
  deriving DecidableEq, Repr

/-- `maildir_scan_unlocked`, from the message array on, in the order that it has. -/
def maildir_scan_unlocked (mode : Mode) (now : Nat) (files : List File) (uidnext uidvalidity : Option (List UInt8)) :
    Option Scanned :=
  match scan_messages mode { uidnext := uidnext } (array files) with
  | none => none
  | some (md, msgs) =>
    (amd_update_uidnext md.uidnext md.next_uid).map fun (_, uidnext) =>
      { msgs := msgs
        uidnext := uidnext
        -- `amd_reset_uidvalidity`
        uidvalidity := if md.needs_uid_fixup then some (printLu now) else uidvalidity }

/-- The UIDs are not zero and increase, the stored UIDNEXT is a number above them, and if a message
    in `cur` got another UID than the one in its name, the UIDVALIDITY was reset. -/
structure Numbered (now : Nat) (files : List File) (scanned : Scanned) : Prop where
  nonzero : ∀ msg ∈ scanned.msgs, msg.uid ≠ 0
  increasing : (scanned.msgs.map Msg.uid).Pairwise (· < ·)
  next : ∀ msg ∈ scanned.msgs, ∃ n, fetch_uidnext scanned.uidnext = some (.ok n) ∧ msg.uid < n
  reset : ∀ pair ∈ files.zip scanned.msgs, pair.1.subdir = .cur → pair.1.msg.uid ≠ 0 →
    pair.2.uid ≠ pair.1.msg.uid → scanned.uidvalidity = some (printLu now)

/-- The rule for one message: a new one gets the next number, from `curval` on; another one keeps its
    UID if that is not below the next number and no message before was renumbered. -/
def number (writable : Bool) (curval next : Nat) (renumber : Bool) (msg : Msg) (renamed : Bool) : Nat × Bool :=
  let next := if msg.subdir = .new then max next curval else next
  if msg.subdir = .new ∧ writable then (next, renumber || renamed)
  else if renumber ∨ msg.uid < next then (next, true)
  else (msg.uid, false)

/-- The numbers that the rule gives. -/
def numbers (writable : Bool) (curval : Nat) : Nat → Bool → List (Msg × Bool) → List Nat
  | _, _, [] => []
  | next, renumber, (msg, renamed) :: msgs =>
    let given := number writable curval next renumber msg renamed
    given.1 :: numbers writable curval (given.1 + 1) given.2 msgs

section
variable {writable : Bool} {curval next : Nat} {renumber : Bool}

theorem le_number (msg : Msg) (renamed : Bool) : next ≤ (number writable curval next renumber msg renamed).1 := by
  have raised : next ≤ if msg.subdir = .new then max next curval else next := by
    split
    · exact Nat.le_max_left ..
    · exact Nat.le_refl _
  rw [number]
  generalize (if msg.subdir = .new then max next curval else next) = start at raised ⊢
  by_cases taken : msg.subdir = .new ∧ writable = true
  · rw [if_pos taken]
    exact raised
  · rw [if_neg taken]
    by_cases renumbered : renumber = true ∨ msg.uid < start
    · rw [if_pos renumbered]
      exact raised
    · rw [if_neg renumbered]
      exact Nat.le_trans raised (Nat.le_of_not_lt fun below => renumbered (.inr below))

theorem le_numbers (msgs : List (Msg × Bool)) : ∀ {next : Nat} {renumber : Bool},
    ∀ n ∈ numbers writable curval next renumber msgs, next ≤ n := by
  induction msgs with
  | nil =>
    intro next renumber n member
    cases member
  | cons head msgs le_rest =>
    intro next renumber n member
    obtain ⟨msg, renamed⟩ := head
    have first : next ≤ (number writable curval next renumber msg renamed).1 := le_number msg renamed
    rcases List.mem_cons.mp member with rfl | later
    · exact first
    · exact Nat.le_trans (Nat.le_succ_of_le first) (le_rest n later)

private theorem numbers_increasing (msgs : List (Msg × Bool)) : ∀ {next : Nat} {renumber : Bool},
    (numbers writable curval next renumber msgs).Pairwise (· < ·) := by
  induction msgs with
  | nil => exact .nil
  | cons head msgs increasing_rest =>
    intro next renumber
    obtain ⟨msg, renamed⟩ := head
    exact .cons (fun n later => le_numbers msgs n later) increasing_rest
end

/-- The values of the digits so far never exceed the last one. -/
theorem fetch_digits_ok (text : List UInt8) : ∀ {n : Nat}, (∀ c ∈ text, isdigit c = true) →
    text.foldl (fun v c => 10 * v + (c.toNat - 48)) n ≤ PROP_MAX →
    fetch_digits text n = some (.ok (text.foldl (fun v c => 10 * v + (c.toNat - 48)) n)) := by
  induction text with
  | nil => exact fun _ _ => rfl
  | cons c text fetch_rest =>
    intro n digits small
    have grows : ∀ (text : List UInt8) (v : Nat), v ≤ text.foldl (fun v c => 10 * v + (c.toNat - 48)) v := by
      intro text
      induction text with
      | nil => exact fun v => Nat.le_refl v
      | cons d text grows_rest =>
        intro v
        have more : v ≤ 10 * v + (d.toNat - 48) := by omega
        exact Nat.le_trans more (grows_rest _)
    have first : ¬ 10 * n + c.toNat > OFF_MAX := by
      have : 10 * n + (c.toNat - 48) ≤ PROP_MAX := Nat.le_trans (grows text _) small
      unfold PROP_MAX OFF_MAX at this
      unfold OFF_MAX
      omega
    rw [fetch_digits, digits c List.mem_cons_self, Bool.not_true, if_neg Bool.false_ne_true, if_neg first]
    exact fetch_rest (fun d member => digits d (List.mem_cons_of_mem _ member)) small

theorem fetch_digits_le (text : List UInt8) :
    ∀ {n c : Nat}, n ≤ PROP_MAX → fetch_digits text n = some (.ok c) → c ≤ PROP_MAX := by
  induction text with
  | nil =>
    intro n c small fetched
    cases fetched
    exact small
  | cons d text le_rest =>
    intro n c small fetched
    rw [fetch_digits] at fetched
    split at fetched
    · cases fetched
    next digit =>
      split at fetched
      · cases fetched
      next fits =>
        refine le_rest ?_ fetched
        rw [Bool.not_eq_true', Bool.not_eq_false, isdigit, decide_eq_true_eq, UInt8.le_iff_toNat_le] at digit
        have low : 48 ≤ d.toNat := digit.1
        unfold PROP_MAX OFF_MAX
        unfold OFF_MAX at fits
        omega

theorem fetch_uidnext_le {uidnext : Option (List UInt8)} {c : Nat} (fetched : fetch_uidnext uidnext = some (.ok c)) :
    c ≤ PROP_MAX := by
  cases uidnext with
  | none =>
    cases fetched
    decide
  | some text => exact fetch_digits_le text (Nat.zero_le _) fetched

theorem fetch_stored {val : Nat} (small : val ≤ PROP_MAX) : fetch_uidnext (some (printLu val)) = some (.ok val) := by
  have value := decimal_printLu val
  rw [decimal] at value
  rw [fetch_uidnext, fetch_digits_ok _ (printLu_digits val) (by rw [value]; exact small), value]

theorem update_ok {uidnext : Option (List UInt8)} {newval c : Nat} (small : newval ≤ PROP_MAX)
    (fetched : fetch_uidnext uidnext = some (.ok c)) :
    ∃ uidnext', amd_update_uidnext uidnext newval = some (max newval c, uidnext') ∧
      fetch_uidnext uidnext' = some (.ok (max newval c)) := by
  rw [amd_update_uidnext, fetched]
  dsimp only
  by_cases below : newval < c
  · rw [if_pos below, Nat.max_eq_right (Nat.le_of_lt below)]
    exact ⟨uidnext, rfl, fetched⟩
  · rw [if_neg below, _amd_prop_store_off, if_pos (Nat.le_trans small (Nat.sub_le ..)),
      Nat.max_eq_left (Nat.le_of_not_lt below)]
    exact ⟨some (printLu newval), rfl, fetch_stored small⟩

theorem update_unreadable {uidnext : Option (List UInt8)} {newval : Nat} {updated : Nat × Option (List UInt8)}
    (unreadable : ∀ c, fetch_uidnext uidnext ≠ some (.ok c)) (update : amd_update_uidnext uidnext newval = some updated) :
    updated.2 = uidnext := by
  rw [amd_update_uidnext] at update
  split at update
  · cases update
  · cases update
    rfl
  next c fetched => exact absurd fetched (unreadable c)

/-- The state of the scan follows the rule: the counter is the next number, and the stored UIDNEXT
    raises it as `curval` does. -/
structure Follows (curval : Nat) (md : Scan) (next : Nat) (renumber : Bool) : Prop where
  next_eq : md.next_uid = next
  positive : 0 < next
  small : next ≤ PROP_MAX
  renumber_eq : (md.needs_uid_fixup || md.has_new) = renumber
  stored : ∃ c, fetch_uidnext md.uidnext = some (.ok c) ∧ max next c = max next curval
  raised : md.has_new = true → curval ≤ next

section
variable {mode : Mode} {curval next : Nat} {renumber : Bool} {md : Scan}

theorem Follows.before (follows : Follows curval md next renumber) (limit : curval ≤ PROP_MAX) (msg : Msg) :
    ∃ md', predict_next_uid md msg = some md' ∧
      Follows curval md' (if msg.subdir = .new then max next curval else next) renumber := by
  by_cases first : msg.subdir = .new ∧ md.has_new = false
  · obtain ⟨c, fetched, same⟩ := follows.stored
    obtain ⟨uidnext, update, fetched'⟩ := update_ok follows.small fetched
    rw [same] at update fetched'
    have raised : next ≤ max next curval := Nat.le_max_left ..
    refine ⟨{ md with next_uid := max next curval, uidnext := uidnext }, ?_, ?_⟩
    · rw [predict_next_uid, if_pos first, follows.next_eq, update]
      rfl
    · rw [if_pos first.1]
      refine ⟨rfl, Nat.lt_of_lt_of_le follows.positive raised, Nat.max_le.mpr ⟨follows.small, limit⟩, follows.renumber_eq,
        ⟨_, fetched', ?_⟩, fun _ => Nat.le_max_right ..⟩
      rw [Nat.max_self, Nat.max_assoc, Nat.max_self]
  · refine ⟨md, if_neg first, ?_⟩
    by_cases new : msg.subdir = .new
    · have has_new : md.has_new = true := Bool.of_not_eq_false fun unseen => first ⟨new, unseen⟩
      rw [if_pos new, Nat.max_eq_left (follows.raised has_new)]
      exact follows
    · rw [if_neg new]
      exact follows

theorem Follows.given (follows : Follows curval md next renumber) {md' : Scan} {n : Nat} {renumber' : Bool}
    (counter : md'.next_uid = (n + 1) % ulong) (kept : md'.uidnext = md.uidnext) (later : next ≤ n) (small : n < PROP_MAX)
    (renumbers : (md'.needs_uid_fixup || md'.has_new) = renumber') (raised : md'.has_new = true → curval ≤ n + 1) :
    Follows curval md' (n + 1) renumber' := by
  have below : n + 1 < ulong := Nat.lt_of_le_of_lt small (by decide)
  obtain ⟨c, fetched, same⟩ := follows.stored
  refine ⟨counter.trans (Nat.mod_eq_of_lt below), Nat.succ_pos n, small, renumbers, ⟨c, kept ▸ fetched, ?_⟩, raised⟩
  omega

theorem chattr_uid (renamed : Bool) (msg : Msg) : (chattr_subdir renamed msg).uid = msg.uid := by
  rw [chattr_subdir]
  split <;> rfl

/-- A message that is not taken as new keeps its UID, or it and all after it are renumbered. -/
theorem fixup_spec (mode : Mode) (renamed : Bool) (md : Scan) (msg : Msg) :
    let fixed := maildir_message_fixup mode renamed md msg
    let n := if md.needs_uid_fixup = true ∨ msg.uid = 0 ∨ msg.uid < md.next_uid then md.next_uid else msg.uid
    fixed.2.uid = n ∧ fixed.1.next_uid = (n + 1) % ulong ∧ fixed.1.has_new = md.has_new ∧
      fixed.1.uidnext = md.uidnext ∧
      (fixed.1.needs_uid_fixup = true ↔ md.needs_uid_fixup = true ∨ msg.uid = 0 ∨ msg.uid < md.next_uid) := by
  have uid_of_ite : ∀ (condition : Prop) [Decidable condition] (msg : Msg),
      (if condition then chattr_subdir renamed msg else msg).uid = msg.uid := by
    intro condition _ msg
    split
    · exact chattr_uid renamed msg
    · rfl
  simp only [maildir_message_fixup, uid_of_ite]
  by_cases below : msg.uid = 0 ∨ msg.uid < md.next_uid
  · simp [below]
  · cases needs : md.needs_uid_fixup with
    | true => simp [below, needs]
    | false => simp [below, needs]

/-- One message gets the number of the rule, and the scan follows the rule as long as this is small. -/
theorem Follows.step (follows : Follows curval md next renumber) (limit : curval ≤ PROP_MAX) (mode : Mode) (msg : Msg)
    (renamed : Bool) :
    let given := number mode.writable curval next renumber msg renamed
    ∃ md' msg', scan_message mode renamed md msg = some (md', msg') ∧ msg'.uid = given.1 ∧
      (given.1 < PROP_MAX → Follows curval md' (given.1 + 1) given.2) := by
  intro given
  obtain ⟨md₁, before, follows₁⟩ := follows.before limit msg
  have scanned : scan_message mode renamed md msg = some
      (if msg.subdir = .new ∧ mode.writable then
        ({ md₁ with next_uid := (md₁.next_uid + 1) % ulong, has_new := md₁.has_new || renamed },
          chattr_subdir renamed { msg with uid := md₁.next_uid })
      else
        maildir_message_fixup mode renamed (if md₁.has_new then { md₁ with needs_uid_fixup := true } else md₁) msg) := by
    rw [scan_message, before]
    rfl
  rw [scanned]
  simp only [given, number]
  by_cases taken : msg.subdir = .new ∧ mode.writable = true
  · rw [if_pos taken, if_pos taken, if_pos taken.1]
    rw [if_pos taken.1] at follows₁
    refine ⟨_, _, rfl, (chattr_uid ..).trans follows₁.next_eq, fun small => ?_⟩
    refine follows₁.given (congrArg (fun n => (n + 1) % ulong) follows₁.next_eq) rfl (Nat.le_refl _) small ?_ ?_
    · rw [← follows₁.renumber_eq, Bool.or_assoc]
    · exact fun _ => Nat.le_succ_of_le (Nat.le_max_right ..)
  · rw [if_neg taken, if_neg taken]
    generalize (if msg.subdir = .new then max next curval else next) = start at follows₁
    -- `has_new` makes the message be renumbered as `needs_uid_fixup` does.
    generalize fixing : (if md₁.has_new = true then { md₁ with needs_uid_fixup := true } else md₁) = md₂
    have same : md₂.next_uid = start ∧ md₂.uidnext = md₁.uidnext ∧ md₂.has_new = md₁.has_new ∧
        md₂.needs_uid_fixup = renumber := by
      have renumber_eq := follows₁.renumber_eq
      rw [← fixing]
      by_cases seen : md₁.has_new = true
      · rw [seen, Bool.or_true] at renumber_eq
        rw [if_pos seen]
        exact ⟨follows₁.next_eq, rfl, rfl, renumber_eq⟩
      · rw [Bool.eq_false_iff.mpr seen, Bool.or_false] at renumber_eq
        rw [if_neg seen]
        exact ⟨follows₁.next_eq, rfl, rfl, renumber_eq⟩
    obtain ⟨next_eq, uidnext_eq, has_new_eq, needs_eq⟩ := same
    obtain ⟨uid, counter, has_new, uidnext, needs⟩ := fixup_spec mode renamed md₂ msg
    have zero_below : renumber = true ∨ msg.uid = 0 ∨ msg.uid < start ↔ renumber = true ∨ msg.uid < start := by
      have positive := follows₁.positive
      exact or_congr_right ⟨fun low => by omega, .inr⟩
    rw [next_eq, needs_eq] at uid counter needs
    simp only [zero_below] at uid counter needs
    rw [uidnext_eq] at uidnext
    rw [has_new_eq] at has_new
    generalize maildir_message_fixup mode renamed md₂ msg = fixed at uid counter has_new uidnext needs
    obtain ⟨md', msg'⟩ := fixed
    have raised : ∀ {n : Nat}, start ≤ n → md'.has_new = true → curval ≤ n + 1 := by
      intro n later seen
      rw [has_new] at seen
      exact Nat.le_succ_of_le (Nat.le_trans (follows₁.raised seen) later)
    by_cases renumbered : renumber = true ∨ msg.uid < start
    · rw [if_pos renumbered] at uid counter ⊢
      refine ⟨md', msg', rfl, uid, fun small =>
        follows₁.given counter uidnext (Nat.le_refl _) small ?_ (raised (Nat.le_refl _))⟩
      rw [needs.mpr renumbered, Bool.true_or]
    · rw [if_neg renumbered] at uid counter ⊢
      have later : start ≤ msg.uid := Nat.le_of_not_lt fun below => renumbered (.inr below)
      refine ⟨md', msg', rfl, uid, fun small => follows₁.given counter uidnext later small ?_ (raised later)⟩
      have no_needs : md'.needs_uid_fixup ≠ true := fun needed => renumbered (needs.mp needed)
      have no_new : md₁.has_new ≠ true := by
        intro seen
        have renumber_eq := follows₁.renumber_eq
        rw [seen, Bool.or_true] at renumber_eq
        exact renumbered (.inl renumber_eq.symm)
      rw [Bool.eq_false_iff.mpr no_needs, has_new, Bool.eq_false_iff.mpr no_new]
      rfl

theorem Follows.scan (limit : curval ≤ PROP_MAX) (msgs : List (Msg × Bool)) :
    ∀ {md : Scan} {next : Nat} {renumber : Bool}, Follows curval md next renumber →
      (∀ n ∈ numbers mode.writable curval next renumber msgs, n < PROP_MAX) →
      ∃ md' msgs' next' renumber', scan_messages mode md msgs = some (md', msgs') ∧
        msgs'.map Msg.uid = numbers mode.writable curval next renumber msgs ∧ Follows curval md' next' renumber' ∧
        next ≤ next' ∧ ∀ n ∈ numbers mode.writable curval next renumber msgs, n < next' := by
  induction msgs with
  | nil =>
    intro md next renumber follows _
    exact ⟨md, [], next, renumber, rfl, rfl, follows, Nat.le_refl _, fun n member => by cases member⟩
  | cons head msgs scan_rest =>
    intro md next renumber follows small
    obtain ⟨msg, renamed⟩ := head
    obtain ⟨md₁, msg', scanned, uid, follows₁⟩ := follows.step limit mode msg renamed
    obtain ⟨md', msgs', next', renumber', rest, uids, follows', later, below⟩ :=
      scan_rest (follows₁ (small _ List.mem_cons_self)) (fun n member => small n (List.mem_cons_of_mem _ member))
    have first : next ≤ (number mode.writable curval next renumber msg renamed).1 := le_number msg renamed
    refine ⟨md', msg' :: msgs', next', renumber', ?_, ?_, follows', by omega, fun n member => ?_⟩
    · rw [scan_messages, scanned]
      dsimp only
      rw [rest]
      rfl
    · rw [List.map_cons, uid, uids, numbers]
    · rcases List.mem_cons.mp member with rfl | later
      · omega
      · exact below n later

theorem Follows.numbers_small (limit : curval ≤ PROP_MAX) (msgs : List (Msg × Bool)) :
    ∀ {md md' : Scan} {next : Nat} {renumber : Bool} {msgs' : List Msg}, Follows curval md next renumber →
      scan_messages mode md msgs = some (md', msgs') → (∀ msg ∈ msgs', msg.uid < PROP_MAX) →
      ∀ n ∈ numbers mode.writable curval next renumber msgs, n < PROP_MAX := by
  induction msgs with
  | nil =>
    intro md md' next renumber msgs' _ _ _ n member
    cases member
  | cons head msgs small_rest =>
    intro md md' next renumber msgs' follows scanned small n member
    obtain ⟨msg, renamed⟩ := head
    obtain ⟨md₁, msg', first, uid, follows₁⟩ := follows.step limit mode msg renamed
    rw [scan_messages, first] at scanned
    obtain ⟨⟨md₂, rest⟩, scanned_rest, pair⟩ := Option.map_eq_some_iff.mp scanned
    cases pair
    have first_small := small msg' List.mem_cons_self
    rw [uid] at first_small
    rcases List.mem_cons.mp member with rfl | later
    · exact first_small
    · exact small_rest (follows₁ first_small) scanned_rest (fun msg member => small msg (List.mem_cons_of_mem _ member))
        n later
end

section
variable {mode : Mode} {renamed : Bool} {md md' : Scan} {msg msg' : Msg}

theorem predict_spec (predicted : predict_next_uid md msg = some md') :
    md'.needs_uid_fixup = md.needs_uid_fixup ∧
    ((∀ c, fetch_uidnext md.uidnext ≠ some (.ok c)) → md'.uidnext = md.uidnext) := by
  rw [predict_next_uid] at predicted
  split at predicted
  · obtain ⟨updated, update, rfl⟩ := Option.map_eq_some_iff.mp predicted
    exact ⟨rfl, fun unreadable => update_unreadable unreadable update⟩
  · cases predicted
    exact ⟨rfl, fun _ => rfl⟩

/-- What is known of a scan, whatever its numbers are: once messages are to be renumbered this stays
    so, a message of `cur` gets another UID only then, and a stored UIDNEXT that is not a number is
    left as it is. -/
theorem scan_message_spec (scanned : scan_message mode renamed md msg = some (md', msg')) :
    (md.needs_uid_fixup = true → md'.needs_uid_fixup = true) ∧
    (msg.subdir = .cur → msg'.uid ≠ msg.uid → md'.needs_uid_fixup = true) ∧
    ((∀ c, fetch_uidnext md.uidnext ≠ some (.ok c)) → md'.uidnext = md.uidnext) := by
  obtain ⟨md₁, before, result⟩ := Option.map_eq_some_iff.mp scanned
  obtain ⟨needs_eq, unreadable⟩ := predict_spec before
  by_cases taken : msg.subdir = .new ∧ mode.writable = true
  · rw [if_pos taken] at result
    cases result
    refine ⟨fun needs => needs_eq.trans needs, fun cur => ?_, unreadable⟩
    rw [cur] at taken
    cases taken.1
  · rw [if_neg taken] at result
    generalize fixing : (if md₁.has_new = true then { md₁ with needs_uid_fixup := true } else md₁) = md₂ at result
    have kept : (md.needs_uid_fixup = true → md₂.needs_uid_fixup = true) ∧ md₂.uidnext = md₁.uidnext := by
      rw [← fixing]
      split
      · exact ⟨fun _ => rfl, rfl⟩
      · exact ⟨fun needs => needs_eq.trans needs, rfl⟩
    obtain ⟨uid, -, -, uidnext, needs⟩ := fixup_spec mode renamed md₂ msg
    rw [result] at uid uidnext needs
    refine ⟨fun before => needs.mpr (.inl (kept.1 before)), fun _ changed => needs.mpr ?_,
      fun bad => (uidnext.trans kept.2).trans (unreadable bad)⟩
    by_cases renumbered : md₂.needs_uid_fixup = true ∨ msg.uid = 0 ∨ msg.uid < md₂.next_uid
    · exact renumbered
    · rw [if_neg renumbered] at uid
      exact absurd uid changed

theorem scan_messages_spec (msgs : List (Msg × Bool)) : ∀ {md md' : Scan} {msgs' : List Msg},
    scan_messages mode md msgs = some (md', msgs') →
      msgs'.length = msgs.length ∧
      (md.needs_uid_fixup = true → md'.needs_uid_fixup = true) ∧
      (∀ pair ∈ msgs.zip msgs', pair.1.1.subdir = .cur → pair.2.uid ≠ pair.1.1.uid → md'.needs_uid_fixup = true) ∧
      ((∀ c, fetch_uidnext md.uidnext ≠ some (.ok c)) → md'.uidnext = md.uidnext) := by
  induction msgs with
  | nil =>
    intro md md' msgs' scanned
    cases scanned
    exact ⟨rfl, id, fun _ member => (List.not_mem_nil member).elim, fun _ => rfl⟩
  | cons head msgs spec_rest =>
    intro md md' msgs' scanned
    obtain ⟨msg, renamed⟩ := head
    rw [scan_messages] at scanned
    cases first : scan_message mode renamed md msg with
    | none =>
      rw [first] at scanned
      cases scanned
    | some result =>
      rw [first] at scanned
      obtain ⟨⟨md₂, rest⟩, scanned_rest, pair⟩ := Option.map_eq_some_iff.mp scanned
      cases pair
      obtain ⟨stays, changed, unreadable⟩ := scan_message_spec first
      obtain ⟨length, stays_rest, changed_rest, unreadable_rest⟩ := spec_rest scanned_rest
      refine ⟨congrArg (· + 1) length, fun needs => stays_rest (stays needs), fun pair member cur another => ?_,
        fun bad => ?_⟩
      · rw [List.zip_cons_cons] at member
        rcases List.mem_cons.mp member with rfl | later
        · exact stays_rest (changed cur another)
        · exact changed_rest pair later cur another
      · have same := unreadable bad
        exact (unreadable_rest (same ▸ bad)).trans same
end

section
variable {mode : Mode} {now : Nat} {files : List File} {uidnext uidvalidity : Option (List UInt8)}

theorem follows_start {curval : Nat} (fetched : fetch_uidnext uidnext = some (.ok curval)) :
    Follows curval { uidnext := uidnext } 1 false :=
  ⟨rfl, Nat.one_pos, by decide, rfl, ⟨curval, fetched, rfl⟩, nofun⟩

theorem reset_of_scan {md : Scan} {msgs : List Msg}
    (scanned : scan_messages mode { uidnext := uidnext } (array files) = some (md, msgs)) :
    ∀ pair ∈ files.zip msgs, pair.1.subdir = .cur → pair.2.uid ≠ pair.1.msg.uid → md.needs_uid_fixup = true := by
  intro pair member cur another
  obtain ⟨-, -, changed, -⟩ := scan_messages_spec _ scanned
  have in_array : (((pair.1.msg, pair.1.renamed), pair.2) : (Msg × Bool) × Msg) ∈ (array files).zip msgs := by
    rw [array, List.zip_map_left]
    exact List.mem_map.mpr ⟨pair, member, rfl⟩
  have subdir_eq : pair.1.msg.subdir = pair.1.subdir := rfl
  exact changed _ in_array (subdir_eq.trans cur) another

/-- A scan whose numbers stay small leaves UIDs as they should be. -/
theorem numbered_of_small {curval : Nat} (fetched : fetch_uidnext uidnext = some (.ok curval))
    (small : ∀ n ∈ numbers mode.writable curval 1 false (array files), n < PROP_MAX) :
    ∃ scanned, maildir_scan_unlocked mode now files uidnext uidvalidity = some scanned ∧ Numbered now files scanned := by
  obtain ⟨md, msgs, next, renumber, scanned, uids, follows, -, below⟩ :=
    Follows.scan (fetch_uidnext_le fetched) (array files) (follows_start fetched) small
  obtain ⟨c, fetched', -⟩ := follows.stored
  obtain ⟨uidnext', update, stored⟩ := update_ok follows.small fetched'
  refine ⟨⟨msgs, uidnext', if md.needs_uid_fixup then some (printLu now) else uidvalidity⟩, ?_, ?_⟩
  · rw [maildir_scan_unlocked, scanned]
    dsimp only
    rw [follows.next_eq, update]
    rfl
  · have uid_mem : ∀ msg ∈ msgs, msg.uid ∈ numbers mode.writable curval 1 false (array files) := by
      intro msg member
      rw [← uids]
      exact List.mem_map_of_mem member
    refine ⟨fun msg member => ?_, ?_, fun msg member => ?_, fun pair member cur _ another => ?_⟩
    · exact Nat.one_le_iff_ne_zero.mp (le_numbers _ _ (uid_mem msg member))
    · rw [uids]
      exact numbers_increasing _
    · have less : msg.uid < next := below _ (uid_mem msg member)
      exact ⟨max next c, stored, Nat.lt_of_lt_of_le less (Nat.le_max_left next c)⟩
    · exact if_pos (reset_of_scan scanned pair member cur another)

/-- The UIDs of a scan are as they should be exactly if the mailbox is empty, or the stored UIDNEXT
    is a number and the numbers of the rule stay below the largest that can be read; and reading the
    stored UIDNEXT must not overflow. -/
theorem scan_numbers_iff :
    (∃ scanned, maildir_scan_unlocked mode now files uidnext uidvalidity = some scanned ∧ Numbered now files scanned) ↔
    fetch_uidnext uidnext ≠ none ∧
      (files = [] ∨ ∃ curval, fetch_uidnext uidnext = some (.ok curval) ∧
        ∀ n ∈ numbers mode.writable curval 1 false (array files), n < PROP_MAX) := by
  constructor
  · rintro ⟨scanned, result, numbered⟩
    rw [maildir_scan_unlocked] at result
    cases ran : scan_messages mode { uidnext := uidnext } (array files) with
    | none =>
      rw [ran] at result
      cases result
    | some after =>
      obtain ⟨md, msgs⟩ := after
      rw [ran] at result
      obtain ⟨⟨next, updated⟩, update, rfl⟩ := Option.map_eq_some_iff.mp result
      obtain ⟨length, -, -, unreadable⟩ := scan_messages_spec _ ran
      cases fetched : fetch_uidnext uidnext with
      | none =>
        have same := unreadable (fun c => by rw [fetched]; exact nofun)
        rw [amd_update_uidnext, same, fetched] at update
        cases update
      | some number =>
        refine ⟨nofun, ?_⟩
        cases msgs with
        | nil =>
          rw [array, List.length_map] at length
          exact .inl (List.eq_nil_of_length_eq_zero length.symm)
        | cons msg msgs =>
          refine .inr ?_
          cases number with
          | error code =>
            have bad : ∀ c, fetch_uidnext uidnext ≠ some (.ok c) := fun c => by rw [fetched]; exact nofun
            have same : md.uidnext = uidnext := unreadable bad
            have kept : updated = uidnext := (update_unreadable (by rw [same]; exact bad) update).trans same
            obtain ⟨n, stored, -⟩ := numbered.next msg List.mem_cons_self
            rw [show fetch_uidnext _ = fetch_uidnext uidnext from congrArg fetch_uidnext kept] at stored
            exact absurd stored (bad n)
          | ok curval =>
            refine ⟨curval, rfl, Follows.numbers_small (fetch_uidnext_le fetched) _ (follows_start fetched) ran ?_⟩
            intro msg member
            obtain ⟨n, stored, below⟩ := numbered.next msg member
            exact Nat.lt_of_lt_of_le below (fetch_uidnext_le stored)
  · rintro ⟨readable, rfl | ⟨curval, fetched, small⟩⟩
    · have update : ∃ updated, amd_update_uidnext uidnext 1 = some updated := by
        rw [amd_update_uidnext]
        cases fetched : fetch_uidnext uidnext with
        | none => exact absurd fetched readable
        | some number =>
          cases number with
          | error code => exact ⟨_, rfl⟩
          | ok curval =>
            dsimp only
            split
            · exact ⟨_, rfl⟩
            · exact ⟨_, rfl⟩
      obtain ⟨updated, update⟩ := update
      refine ⟨⟨[], updated.2, uidvalidity⟩, ?_, ?_⟩
      · show (amd_update_uidnext uidnext 1).map _ = _
        rw [update]
        rfl
      · exact ⟨List.forall_mem_nil _, .nil, List.forall_mem_nil _, List.forall_mem_nil _⟩
    · exact numbered_of_small fetched small
end

/-- A message with the largest UID, and one without: the counter wraps, and the second gets 0. And one
    message in a mailbox whose UIDNEXT is not a number, which it stays. -/
theorem scan_misnumbers :
    (∃ scanned, maildir_scan_unlocked ⟨true, false⟩ 0
        [{ subdir := .cur, name := ascii "1.h,u=18446744073709551615:2," }, { subdir := .cur, name := ascii "2.h:2," }]
        none none = some scanned ∧ scanned.msgs.map Msg.uid = [18446744073709551615, 0] ∧
      ∀ now files, ¬ Numbered now files scanned) ∧
    ∃ scanned, maildir_scan_unlocked ⟨true, false⟩ 0 [{ subdir := .cur, name := ascii "1.h:2," }] (some (ascii "x"))
        none = some scanned ∧ scanned.uidnext = some (ascii "x") ∧ ∀ now files, ¬ Numbered now files scanned := by
  constructor
  · obtain ⟨scanned, result, uids⟩ := Option.map_eq_some_iff.mp (show (maildir_scan_unlocked ⟨true, false⟩ 0
      [{ subdir := .cur, name := ascii "1.h,u=18446744073709551615:2," }, { subdir := .cur, name := ascii "2.h:2," }]
      none none).map (fun scanned => scanned.msgs.map Msg.uid) = some [18446744073709551615, 0] by decide)
    refine ⟨scanned, result, uids, fun now files numbered => ?_⟩
    have increasing := numbered.increasing
    rw [uids] at increasing
    exact absurd increasing (by decide)
  · obtain ⟨scanned, result, shape⟩ := Option.map_eq_some_iff.mp (show (maildir_scan_unlocked ⟨true, false⟩ 0
      [{ subdir := .cur, name := ascii "1.h:2," }] (some (ascii "x")) none).map
        (fun scanned => (scanned.msgs.length, scanned.uidnext)) = some (1, some (ascii "x")) by decide)
    obtain ⟨length, uidnext⟩ := Prod.mk.inj shape
    refine ⟨scanned, result, uidnext, fun now files numbered => ?_⟩
    obtain ⟨msg, only⟩ := List.length_eq_one_iff.mp length
    obtain ⟨n, stored, _⟩ := numbered.next msg (only ▸ List.mem_singleton_self msg)
    rw [uidnext] at stored
    cases stored

end Mailutils.Maildir

import Mailutils.MaildirScan

/-!
The names that `maildir_chattr_msg` (`libproto/maildir/maildir.c`) gives to the file of a message. A name has the
unique part, the attributes and the info letters; it is read from its end. However often a message is renamed, the
unique part, the UID and the flags are read back from its name (`renaming_keeps_iff`). The one UID that may be lost is
the largest: `maildir_message_alloc` looks at an error code that may be from another call.
-/
namespace Mailutils.MaildirName
open Mailutils.Mailbox Mailutils.Text Mailutils.Maildir
open Mailutils.Mh (strtoul_decimal)

/-- `flags_to_info`. The older letter of answered messages is never written: `R` comes first, and the flag is then
    cleared. -/
def flags_to_info (flags : Attribute) : List UInt8 :=
  [(flags.draft, 68), (flags.flagged, 70), (flags.forwarded, 80), (flags.answered, 82), (flags.read, 83),
    (flags.deleted, 84)].filterMap fun (set, letter) => if set then some letter else none

def string_buffer_format_flags (flags : Attribute) : List UInt8 := ascii ":2," ++ flags_to_info flags

/-- The flags that no info letter has, and one that has. -/
def string_buffer_format_mu_flags (flags : Attribute) : List UInt8 :=
  let fb := mu_attribute_flags_to_string { flagged := flags.flagged, seen := flags.seen }
  if 0 < fb.length then ascii ",a=" ++ fb else []

/-- The digits of `string_buffer_format_long` in base 10, before they are reversed. -/
def long_digits (n : Nat) : List UInt8 :=
  if n / 10 = 0 then [(n % 10 + 48).toUInt8] else (n % 10 + 48).toUInt8 :: long_digits (n / 10)
termination_by n
decreasing_by omega

def string_buffer_format_long (n : Nat) : List UInt8 := (long_digits n).reverse

def string_buffer_format_message_name (msg : Msg) (flags : Attribute) : List UInt8 :=
  msg.file_name.take msg.uniq_len ++ string_buffer_format_mu_flags flags ++ ascii ",u=" ++
    string_buffer_format_long msg.uid ++ string_buffer_format_flags flags

example : string_buffer_format_long 1528 ++ flags_to_info { read := true, draft := true } = ascii "1528DS" := by
  decide +kernel

/-- `maildir_new_message_name`, without expunging: the file is in the subdirectory `cur` of the mailbox. -/
def maildir_new_message_name (dir : List UInt8) (msg : Msg) (flags : Attribute) : List UInt8 :=
  dir ++ ascii "/cur/" ++ string_buffer_format_message_name msg flags

/-- What follows the last slash (`strrchr (new_name, '/') + 1`). -/
def afterLastSlash (name : List UInt8) : List UInt8 := (name.reverse.takeWhile (· ≠ 47)).reverse

/-- `maildir_chattr_msg` for a message with the given flags, if the file can be renamed. -/
def maildir_chattr_msg (dir : List UInt8) (msg : Msg) (flags : Attribute) : Msg :=
  let file_name := afterLastSlash (maildir_new_message_name dir msg flags)
  { msg with
    subdir := .cur
    attr_flags := flags
    file_name := file_name
    uniq_len := (maildir_message_name_parse file_name []).1 }

/-- The flags of a message when it is renamed, and whether the error code is `ERANGE` when its new name is read. -/
structure Renaming where
  flags : Attribute
  erange : Bool := false

/-- Each renaming with the message after it. -/
def renamings (dir : List UInt8) : Msg → List Renaming → List (Renaming × Msg)
  | _, [] => []
  | msg, r :: rs => (r, maildir_chattr_msg dir msg r.flags) :: renamings dir (maildir_chattr_msg dir msg r.flags) rs

/-- The unique name, the UID and the flags are those that the message has. All flags but `MU_ATTRIBUTE_MODIFIED`
    have an info letter or are the seen flag. -/
structure Kept (uniq : List UInt8) (uid : Nat) (r : Renaming) (msg : Msg) : Prop where
  unique : msg.file_name.take msg.uniq_len = uniq
  uid : (maildir_message_alloc msg.subdir msg.file_name r.erange).uid = uid
  flags : (maildir_message_alloc msg.subdir msg.file_name r.erange).attr_flags = { r.flags with modified := false }

private theorem long_digits_eq (n : Nat) (positive : n ≠ 0) :
    long_digits n = (Nat.digits 10 n).map fun d => (d + 48).toUInt8 := by
  induction n using Nat.strongRecOn with
  | ind n ih =>
    rw [long_digits, Nat.digits_def' (by decide) (Nat.pos_of_ne_zero positive), List.map_cons]
    split
    · rename_i last
      rw [last]
      simp
    · rename_i more
      rw [ih (n / 10) (by omega) more]

private theorem format_long_eq (n : Nat) : string_buffer_format_long n = printLu n := by
  rw [string_buffer_format_long, printLu]
  split
  · rename_i zero
    subst zero
    rw [long_digits]
    rfl
  · rename_i positive
    rw [long_digits_eq n positive, List.map_reverse]

theorem attrib_uid_printLu {uid : Nat} (below : uid < ulong) (erange : Bool) :
    attrib_uid erange (printLu uid) = if uid = ulong - 1 ∧ erange = true then 0 else uid := by
  have read : strtoul (printLu uid) = (uid, []) := by
    rw [strtoul_decimal ⟨printLu_ne_nil uid, printLu_digits uid⟩, decimal_printLu, if_neg (by omega)]
  have small : strtoul_erange (printLu uid) = false := by
    obtain ⟨start, sign⟩ := @digits_start (printLu uid) [] (printLu_ne_nil uid) (printLu_digits uid)
    obtain ⟨taken, -⟩ := @takeWhile_digits (printLu uid) [] (printLu_digits uid) (by intro c stop; cases stop)
    rw [List.append_nil] at start sign taken
    rw [strtoul_erange, start, if_neg sign, taken, decimal_printLu, decide_eq_false_iff_not]
    omega
  simp [attrib_uid, read, small]

section
variable {attrnames : List (List UInt8)}

theorem char_at (before seg after : List UInt8) (c : UInt8) :
    (before ++ (seg ++ c :: after)).getD (before.length + seg.length) 0 = c := by
  rw [← List.append_assoc, ← List.length_append]
  simp

theorem stays {parse : NameParse} (kind : parse.state = 0 ∨ parse.state = 6 ∨ parse.state = 7)
    (before seg : List UInt8) : ∀ after : List UInt8,
    (∀ c ∈ seg, (transition.getD parse.state []).getD (alpha c) 0 = parse.state) →
    name_parse_loop (before ++ (seg ++ after)) attrnames (before.length + seg.length) parse =
      name_parse_loop (before ++ (seg ++ after)) attrnames before.length parse := by
  obtain ⟨state, endp, startval, endval, athead, f⟩ := parse
  dsimp only at kind ⊢
  induction seg using List.reverseRecOn with
  | nil => exact fun _ _ => rfl
  | append_singleton seg c ih =>
    intro after all
    have split : before ++ (seg ++ [c] ++ after) = before ++ (seg ++ c :: after) := by simp
    have same : (transition.getD state []).getD (alpha c) 0 = state := all c (by simp)
    have rest := ih (c :: after) fun d among => all d (by simp [among])
    rw [split, List.length_append, List.length_singleton, ← Nat.add_assoc, name_parse_loop, char_at, same]
    rcases kind with rfl | rfl | rfl
    · exact rest
    · exact rest
    · exact rest

theorem step_low {name : List UInt8} {p : Nat} {c : UInt8} {parse : NameParse} (char : name.getD p 0 = c)
    {k : Nat} (next : (transition.getD parse.state []).getD (alpha c) 0 = k) (low : k < 4) :
    name_parse_loop name attrnames (p + 1) parse = name_parse_loop name attrnames p { parse with state := k } := by
  rw [name_parse_loop, char, next]
  interval_cases k <;> rfl

theorem plain_codes : (∀ c : UInt8, c ≠ 44 → (transition.getD 0 []).getD (alpha c) 0 = 0) ∧
    (∀ c : UInt8, c ≠ 44 → c ≠ 61 → ∀ state ∈ [5, 6], (transition.getD state []).getD (alpha c) 0 = 6) ∧
    (∀ c : UInt8, c ≠ 44 → c ≠ 61 → (transition.getD 7 []).getD (alpha c) 0 = 7) := by
  refine ⟨byte_forall (by decide +kernel), byte_forall (by decide +kernel), byte_forall (by decide +kernel)⟩

theorem info_read (before info : List UInt8) (plain : 44 ∉ info) :
    name_parse_loop (before ++ (58 :: 50 :: 44 :: info)) attrnames (before ++ (58 :: 50 :: 44 :: info)).length
        { endp := (before ++ (58 :: 50 :: 44 :: info)).length } =
      name_parse_loop (before ++ (58 :: 50 :: 44 :: info)) attrnames before.length
        { state := 5, endp := before.length, endval := before.length, f := info_to_flags info } := by
  have letters := @stays attrnames { endp := (before ++ (58 :: 50 :: 44 :: info)).length } (.inl rfl)
    (before ++ [58, 50, 44]) info [] fun c among => plain_codes.1 c fun comma => plain (comma ▸ among)
  have name : before ++ [58, 50, 44] ++ (info ++ []) = before ++ (58 :: 50 :: 44 :: info) := by simp
  have whole : (before ++ [58, 50, 44]).length + info.length = (before ++ (58 :: 50 :: 44 :: info)).length := by
    simp only [List.length_append, List.length_cons, List.length_nil]
    omega
  have start : (before ++ [58, 50, 44]).length = before.length + 3 := by simp
  have comma := char_at before [58, 50] info 44
  have two := char_at before [58] (44 :: info) 50
  have colon := char_at before [] (50 :: 44 :: info) 58
  have rest : (before ++ (58 :: 50 :: 44 :: info)).drop (before.length + 3) = info := by simp [List.drop_append]
  simp only [List.length_cons, List.length_nil, List.nil_append, List.cons_append, Nat.add_zero, Nat.zero_add]
    at comma two colon
  rw [name, whole, start] at letters
  rw [letters, step_low comma (k := 1) rfl (by decide), step_low two (k := 3) rfl (by decide), name_parse_loop, colon,
    rest]
  rfl

/-- Neither a comma nor an equals sign -/
def Plain (text : List UInt8) : Prop := ∀ c ∈ text, c ≠ 44 ∧ c ≠ 61

theorem value_read (before val after : List UInt8) (plain : Plain val) (some_val : val ≠ []) {parse : NameParse}
    (state : parse.state = 5 ∨ parse.state = 6) (endval : parse.endval = before.length + val.length) :
    name_parse_loop (before ++ (val ++ after)) attrnames (before.length + val.length) parse =
      name_parse_loop (before ++ (val ++ after)) attrnames before.length { parse with state := 6 } := by
  obtain ⟨val, c, rfl⟩ := List.eq_nil_or_concat' val |>.resolve_left some_val
  have last : c ≠ 44 ∧ c ≠ 61 := plain c (by simp)
  have others : ∀ d ∈ val, (transition.getD 6 []).getD (alpha d) 0 = 6 := by
    intro d among
    obtain ⟨comma, equals⟩ := plain d (by simp [among])
    exact plain_codes.2.1 d comma equals 6 (by simp)
  have rest := @stays attrnames { parse with state := 6 } (.inr (.inl rfl)) before val (c :: after) others
  rw [show before ++ (val ++ [c] ++ after) = before ++ (val ++ c :: after) by simp, List.length_append,
    List.length_singleton, ← Nat.add_assoc, ← rest, name_parse_loop, char_at]
  rw [List.length_append, List.length_singleton, ← Nat.add_assoc] at endval
  rw [plain_codes.2.1 c last.1 last.2 parse.state (by simpa using state)]
  obtain ⟨st, endp, startval, endval', athead, f⟩ := parse
  dsimp only at state endval ⊢
  rcases state with rfl | rfl
  · rw [endval]
    rfl
  · rfl

theorem keyword_read (before attr after : List UInt8) (plain : Plain attr) {parse : NameParse}
    (state : parse.state = 6) :
    name_parse_loop (before ++ 44 :: (attr ++ 61 :: after)) attrnames (before.length + 1 + attr.length + 1) parse =
      name_parse_loop (before ++ 44 :: (attr ++ 61 :: after)) attrnames (before.length + 1)
        { parse with state := 7, startval := before.length + 1 + attr.length + 1 } := by
  have name : before ++ [44] ++ (attr ++ 61 :: after) = before ++ 44 :: (attr ++ 61 :: after) := by simp
  have front : (before ++ [44]).length = before.length + 1 := by simp
  have equals := char_at (before ++ [44]) attr after 61
  have same : ∀ c ∈ attr, (transition.getD 7 []).getD (alpha c) 0 = 7 := by
    intro c among
    obtain ⟨comma, equals⟩ := plain c among
    exact plain_codes.2.2 c comma equals
  have rest := @stays attrnames { parse with state := 7, startval := before.length + 1 + attr.length + 1 }
    (.inr (.inr rfl)) (before ++ [44]) attr (61 :: after) same
  rw [name, front] at equals rest
  rw [← rest, name_parse_loop, equals, state]
  rfl

theorem attribute_read (before attr val after : List UInt8) (attr_plain : Plain attr) (val_plain : Plain val)
    (some_val : val ≠ []) {parse : NameParse} (state : parse.state = 5 ∨ parse.state = 6)
    (endval : parse.endval = before.length + 1 + attr.length + 1 + val.length) :
    name_parse_loop (before ++ 44 :: (attr ++ 61 :: (val ++ after))) attrnames
        (before.length + 1 + attr.length + 1 + val.length) parse =
      name_parse_loop (before ++ 44 :: (attr ++ 61 :: (val ++ after))) attrnames before.length { parse with
        state := 6
        endp := before.length
        endval := before.length
        startval := before.length + 1 + attr.length + 1
        athead := if attr ∈ attrnames then (attr, val) :: parse.athead else parse.athead } := by
  have front : (before ++ 44 :: (attr ++ [61])).length = before.length + 1 + attr.length + 1 := by
    simp only [List.length_append, List.length_cons, List.length_nil]
    omega
  have name : before ++ 44 :: (attr ++ [61]) ++ (val ++ after) = before ++ 44 :: (attr ++ 61 :: (val ++ after)) := by
    simp
  have value := @value_read attrnames (before ++ 44 :: (attr ++ [61])) val after val_plain some_val parse state
    (by rw [front, endval])
  have comma := char_at before [] (attr ++ 61 :: (val ++ after)) 44
  have key : ((before ++ 44 :: (attr ++ 61 :: (val ++ after))).drop (before.length + 1)).take attr.length = attr := by
    have start : (before ++ [44]).length = before.length + 1 := by simp
    rw [show before ++ 44 :: (attr ++ 61 :: (val ++ after)) = before ++ [44] ++ (attr ++ 61 :: (val ++ after)) by simp,
      ← start, List.drop_left, List.take_left]
  have content : ((before ++ 44 :: (attr ++ 61 :: (val ++ after))).drop (before.length + 1 + attr.length + 1)).take
      val.length = val := by
    rw [← name, ← front, List.drop_left, List.take_left]
  rw [name, front] at value
  rw [List.length_nil, Nat.add_zero, List.nil_append] at comma
  rw [value, keyword_read before attr (val ++ after) attr_plain rfl, name_parse_loop, comma]
  have push : attrib_push (before ++ 44 :: (attr ++ 61 :: (val ++ after))) attrnames before.length
      { parse with state := 7, startval := before.length + 1 + attr.length + 1 } =
      if attr ∈ attrnames then (attr, val) :: parse.athead else parse.athead := by
    rw [attrib_push]
    dsimp only
    rw [show before.length + 1 + attr.length + 1 - before.length - 2 = attr.length by omega, key, endval,
      Nat.add_sub_cancel_left, content]
  rw [← push]
  rfl

theorem unique_read (name : List UInt8) (p : Nat) : ∀ {parse : NameParse}, (∀ k < p, name.getD k 0 ≠ 44) →
    parse.state = 6 ∨ parse.state = 7 → parse.endp = parse.endval →
    (name_parse_loop name attrnames p parse).endp = parse.endp ∧
    (name_parse_loop name attrnames p parse).f = parse.f ∧
    (name_parse_loop name attrnames p parse).athead = parse.athead := by
  induction p with
  | zero => exact fun _ _ _ => ⟨rfl, rfl, rfl⟩
  | succ p ih =>
    intro parse all state ends
    obtain ⟨st, endp, startval, endval, athead, f⟩ := parse
    have here := all p (by omega)
    have below : ∀ k < p, name.getD k 0 ≠ 44 := fun k less => all k (by omega)
    dsimp only at state ends
    rw [name_parse_loop]
    by_cases equals : name.getD p 0 = 61
    · rw [equals]
      rcases state with rfl | rfl
      · exact @ih ⟨7, endp, p + 1, endval, athead, f⟩ below (.inr rfl) ends
      · exact ⟨ends.symm, rfl, rfl⟩
    · rcases state with rfl | rfl
      · rw [plain_codes.2.1 _ here equals 6 (by simp)]
        exact @ih ⟨6, endp, startval, endval, athead, f⟩ below (.inl rfl) ends
      · rw [plain_codes.2.2 _ here equals]
        exact @ih ⟨7, endp, startval, endval, athead, f⟩ below (.inr rfl) ends

theorem uid_read (before digits info : List UInt8) (digits_plain : Plain digits) (some_digit : digits ≠ [])
    (info_plain : 44 ∉ info) (name : List UInt8)
    (shape : name = before ++ 44 :: ([117] ++ 61 :: (digits ++ 58 :: 50 :: 44 :: info))) :
    ∃ startval, name_parse_loop name attrnames name.length { endp := name.length } =
      name_parse_loop name attrnames before.length
        { state := 6, endp := before.length, endval := before.length, startval := startval, f := info_to_flags info
          athead := if [117] ∈ attrnames then [([117], digits)] else [] } := by
  have front : (before ++ 44 :: ([117] ++ 61 :: digits)).length = before.length + 1 + 1 + 1 + digits.length := by
    simp only [List.length_append, List.length_cons, List.length_nil]
    omega
  have letters := @info_read attrnames (before ++ 44 :: ([117] ++ 61 :: digits)) info info_plain
  have same : before ++ 44 :: ([117] ++ 61 :: digits) ++ 58 :: 50 :: 44 :: info = name := by simp [shape]
  rw [same, front] at letters
  have uid := @attribute_read attrnames before [117] digits (58 :: 50 :: 44 :: info) (by simp [Plain]) digits_plain
    some_digit
    { state := 5, endp := before.length + 1 + 1 + 1 + digits.length, endval := before.length + 1 + 1 + 1 + digits.length
      f := info_to_flags info } (.inl rfl) rfl
  rw [← shape] at uid
  exact ⟨_, letters.trans uid⟩

theorem unique_left {uniq name : List UInt8} (front : uniq <+: name) (plain : 44 ∉ uniq) {parse : NameParse}
    (state : parse.state = 6) (endp : parse.endp = uniq.length) (endval : parse.endval = uniq.length) :
    ((name_parse_loop name attrnames uniq.length parse).endp, (name_parse_loop name attrnames uniq.length parse).f,
      (name_parse_loop name attrnames uniq.length parse).athead) = (uniq.length, parse.f, parse.athead) := by
  obtain ⟨rest, rfl⟩ := front
  have no_comma : ∀ k < uniq.length, (uniq ++ rest).getD k 0 ≠ 44 := by
    intro k less comma
    rw [List.getD_eq_getElem?_getD, List.getElem?_append_left less, List.getElem?_eq_getElem less,
      Option.getD_some] at comma
    exact plain (comma ▸ List.getElem_mem less)
  obtain ⟨ends, f, athead⟩ :=
    @unique_read attrnames (uniq ++ rest) uniq.length parse no_comma (.inl state) (endp.trans endval.symm)
  rw [ends, f, athead, endp]

end

theorem name_parse_parts (attrnames : List (List UInt8)) {uniq letters digits info name : List UInt8}
    (uniq_plain : 44 ∉ uniq) (letters_plain : Plain letters) (digits_plain : Plain digits) (some_digit : digits ≠ [])
    (info_plain : 44 ∉ info)
    (shape : name = uniq ++ (if 0 < letters.length then ascii ",a=" ++ letters else []) ++ ascii ",u=" ++ digits ++
      (ascii ":2," ++ info)) :
    maildir_message_name_parse name attrnames = (uniq.length, info_to_flags info,
      (if 0 < letters.length ∧ [97] ∈ attrnames then [([97], letters)] else []) ++
        if [117] ∈ attrnames then [([117], digits)] else []) := by
  rw [show ascii ",a=" = [44, 97, 61] by decide, show ascii ",u=" = [44, 117, 61] by decide,
    show ascii ":2," = [58, 50, 44] by decide] at shape
  rw [maildir_message_name_parse]
  by_cases some_letter : 0 < letters.length
  · have whole : name = uniq ++ 44 :: ([97] ++ 61 :: letters) ++
        44 :: ([117] ++ 61 :: (digits ++ 58 :: 50 :: 44 :: info)) := by
      simp [shape, some_letter]
    obtain ⟨startval, read⟩ := @uid_read attrnames _ digits info digits_plain some_digit info_plain name whole
    have front : (uniq ++ 44 :: ([97] ++ 61 :: letters)).length = uniq.length + 1 + 1 + 1 + letters.length := by
      simp only [List.length_append, List.length_cons, List.length_nil]
      omega
    have regrouped : name = uniq ++ 44 :: ([97] ++ 61 :: (letters ++
        44 :: ([117] ++ 61 :: (digits ++ 58 :: 50 :: 44 :: info)))) := by
      simp [whole]
    have mark := @attribute_read attrnames uniq [97] letters
      (44 :: ([117] ++ 61 :: (digits ++ 58 :: 50 :: 44 :: info))) (by simp [Plain]) letters_plain
      (List.length_pos_iff.1 some_letter)
      { state := 6, endp := uniq.length + 1 + 1 + 1 + letters.length
        endval := uniq.length + 1 + 1 + 1 + letters.length, startval := startval, f := info_to_flags info
        athead := if [117] ∈ attrnames then [([117], digits)] else [] } (.inr rfl) rfl
    rw [← regrouped, List.length_singleton] at mark
    rw [front] at read
    rw [read, mark, unique_left ⟨_, regrouped.symm⟩ uniq_plain rfl rfl rfl]
    by_cases wanted : [97] ∈ attrnames
    · simp [wanted, some_letter]
    · simp [wanted]
  · have whole : name = uniq ++ 44 :: ([117] ++ 61 :: (digits ++ 58 :: 50 :: 44 :: info)) := by
      simp [shape, some_letter]
    obtain ⟨startval, read⟩ := @uid_read attrnames uniq digits info digits_plain some_digit info_plain name whole
    rw [read, unique_left ⟨_, whole.symm⟩ uniq_plain rfl rfl rfl]
    simp [some_letter]

/-- The letters of the attribute `a` -/
def letters (flags : Attribute) : List UInt8 :=
  mu_attribute_flags_to_string { flagged := flags.flagged, seen := flags.seen }

theorem flags_read (flags : Attribute) :
    mu_attribute_string_to_flags (letters flags) (info_to_flags (flags_to_info flags)) =
      { flags with modified := false } := by
  obtain ⟨answered, flagged, deleted, draft, seen, read, modified, forwarded⟩ := flags
  revert answered flagged deleted draft seen read modified forwarded
  decide

theorem flags_read_info (flags : Attribute) (none : letters flags = []) :
    info_to_flags (flags_to_info flags) = { flags with modified := false } := by
  have read := flags_read flags
  rwa [none] at read

theorem letters_plain (flags : Attribute) : Plain (letters flags) ∧ 47 ∉ letters flags := by
  have all (flagged seen : Bool) : (mu_attribute_flags_to_string { flagged := flagged, seen := seen }).all
      fun c => c ≠ 44 ∧ c ≠ 61 ∧ c ≠ 47 := by
    revert flagged seen
    decide
  have each := List.all_eq_true.1 (all flags.flagged flags.seen)
  refine ⟨fun c among => ?_, fun slash => ?_⟩
  · have plain := of_decide_eq_true (each c among)
    exact ⟨plain.1, plain.2.1⟩
  · exact (of_decide_eq_true (each 47 slash)).2.2 rfl

theorem info_plain (flags : Attribute) : 44 ∉ flags_to_info flags ∧ 47 ∉ flags_to_info flags := by
  obtain ⟨answered, flagged, deleted, draft, seen, read, modified, forwarded⟩ := flags
  revert answered flagged deleted draft seen read modified forwarded
  decide

theorem digits_plain (uid : Nat) : Plain (printLu uid) ∧ 47 ∉ printLu uid := by
  refine ⟨fun c among => ⟨fun comma => ?_, fun equals => ?_⟩, fun slash => ?_⟩
  · have digit := printLu_digits uid c among
    rw [comma] at digit
    exact absurd digit (by decide)
  · have digit := printLu_digits uid c among
    rw [equals] at digit
    exact absurd digit (by decide)
  · exact absurd (printLu_digits uid 47 slash) (by decide)

section
variable {uniq : List UInt8} {uid : Nat}

theorem format_name_eq {msg : Msg} (unique : msg.file_name.take msg.uniq_len = uniq) (flags : Attribute) :
    string_buffer_format_message_name msg flags =
      uniq ++ (if 0 < (letters flags).length then ascii ",a=" ++ letters flags else []) ++ ascii ",u=" ++
        printLu msg.uid ++ (ascii ":2," ++ flags_to_info flags) := by
  rw [string_buffer_format_message_name, unique, format_long_eq]
  rfl

theorem after_slash {dir name : List UInt8} (plain : 47 ∉ name) :
    afterLastSlash (dir ++ ascii "/cur/" ++ name) = name := by
  have none : ∀ c ∈ name.reverse, decide (c ≠ 47) = true := by
    intro c among
    rw [decide_eq_true_eq]
    rintro rfl
    exact plain (List.mem_reverse.1 among)
  have cut : (dir ++ ascii "/cur/").reverse = 47 :: (dir ++ ascii "/cur").reverse := by
    rw [List.reverse_append, List.reverse_append]
    rfl
  rw [afterLastSlash, List.reverse_append, List.takeWhile_append_of_pos none, cut]
  simp

theorem chattr_spec (dir : List UInt8) (no_comma : 44 ∉ uniq) (no_slash : 47 ∉ uniq) {msg : Msg}
    (unique : msg.file_name.take msg.uniq_len = uniq) (below : msg.uid < ulong) (flags : Attribute) :
    (maildir_chattr_msg dir msg flags).file_name.take (maildir_chattr_msg dir msg flags).uniq_len = uniq ∧
    ∀ subdir erange,
      (maildir_message_alloc subdir (maildir_chattr_msg dir msg flags).file_name erange).attr_flags =
        { flags with modified := false } ∧
      (maildir_message_alloc subdir (maildir_chattr_msg dir msg flags).file_name erange).uid =
        if msg.uid = ulong - 1 ∧ erange = true then 0 else msg.uid := by
  have format := format_name_eq unique flags
  have no_directory : 47 ∉ string_buffer_format_message_name msg flags := by
    rw [format]
    have mark : 47 ∉ (if 0 < (letters flags).length then ascii ",a=" ++ letters flags else []) := by
      split
      · rw [List.mem_append, not_or]
        exact ⟨by decide, (letters_plain flags).2⟩
      · exact List.not_mem_nil
    simp only [List.mem_append, not_or]
    exact ⟨⟨⟨⟨no_slash, mark⟩, by decide⟩, (digits_plain msg.uid).2⟩, by decide, (info_plain flags).2⟩
  have name : (maildir_chattr_msg dir msg flags).file_name = string_buffer_format_message_name msg flags :=
    after_slash no_directory
  have parse (attrnames : List (List UInt8)) := name_parse_parts attrnames no_comma (letters_plain flags).1
    (digits_plain msg.uid).1 (printLu_ne_nil msg.uid) (info_plain flags).1 format
  have length : (maildir_chattr_msg dir msg flags).uniq_len = uniq.length := by
    have read := congrArg Prod.fst (parse [])
    rwa [← name] at read
  refine ⟨?_, fun subdir erange => ?_⟩
  · rw [name, length, format]
    simp
  · rw [name, maildir_message_alloc, parse]
    have uid := attrib_uid_printLu below erange
    by_cases some_letter : 0 < (letters flags).length
    · simp [some_letter, show ascii "a" = [97] by decide, show ascii "u" = [117] by decide, uid, flags_read,
        List.lookup_cons]
    · have none : letters flags = [] := List.length_eq_zero_iff.1 (by omega)
      simp [none, show ascii "a" = [97] by decide, show ascii "u" = [117] by decide, uid, flags_read_info]

end

/-- However often a message is renamed, its unique name, its UID and its flags are kept, unless the UID is the
    largest and the error code is `ERANGE` when it is read. -/
theorem renaming_keeps_iff (dir : List UInt8) {uniq : List UInt8} (no_comma : 44 ∉ uniq) (no_slash : 47 ∉ uniq)
    {msg : Msg} (unique : msg.file_name.take msg.uniq_len = uniq) (below : msg.uid < ulong) (rs : List Renaming) :
    (∀ done ∈ renamings dir msg rs, Kept uniq msg.uid done.1 done.2) ↔
      (msg.uid = ulong - 1 → ∀ r ∈ rs, r.erange = false) := by
  induction rs generalizing msg with
  | nil => simp [renamings]
  | cons r rs ih =>
    obtain ⟨again, alloc⟩ := chattr_spec dir no_comma no_slash unique below r.flags
    have rest := @ih (maildir_chattr_msg dir msg r.flags) again below
    obtain ⟨flags, uid⟩ := alloc .cur r.erange
    have first : Kept uniq msg.uid r (maildir_chattr_msg dir msg r.flags) ↔
        (msg.uid = ulong - 1 → r.erange = false) := by
      constructor
      · intro kept largest
        by_contra stale
        rw [Bool.not_eq_false] at stale
        rw [if_pos ⟨largest, stale⟩] at uid
        have zero : 0 = msg.uid := uid.symm.trans kept.uid
        rw [largest] at zero
        exact absurd zero (by decide)
      · intro fine
        rw [if_neg fun both => by simp [fine both.1] at both] at uid
        exact ⟨again, uid, flags⟩
    rw [renamings, List.forall_mem_cons, List.forall_mem_cons, first, imp_and]
    exact and_congr_right' rest

theorem renaming_keeps_twice :
    44 ∉ ascii "15.M2P3Q4.h=t" ∧ 47 ∉ ascii "15.M2P3Q4.h=t" ∧
    ∀ done ∈ renamings (ascii "/var/mail/x") ⟨.new, ascii "15.M2P3Q4.h=t", 13, {}, 27⟩
      [⟨{ read := true, seen := true }, true⟩, ⟨{ answered := true, deleted := true }, false⟩],
      Kept (ascii "15.M2P3Q4.h=t") 27 done.1 done.2 := by
  refine ⟨by decide, by decide, ?_⟩
  exact (renaming_keeps_iff (ascii "/var/mail/x") (by decide) (by decide) (by decide) (by decide) _).2 (by decide)

/-- The largest UID is read as none if an earlier call left the error code. -/
theorem largest_uid_lost :
    (maildir_message_alloc .cur
      (maildir_chattr_msg (ascii "/m") ⟨.cur, ascii "15.M2P3Q4.host", 14, {}, 18446744073709551615⟩ {}).file_name
      true).uid = 0 ∧
    ¬ Kept (ascii "15.M2P3Q4.host") 18446744073709551615 ⟨{}, true⟩
      (maildir_chattr_msg (ascii "/m") ⟨.cur, ascii "15.M2P3Q4.host", 14, {}, 18446744073709551615⟩ {}) := by
  refine ⟨by decide +kernel, fun kept => ?_⟩
  exact absurd kept.uid (by decide +kernel)

end Mailutils.MaildirName

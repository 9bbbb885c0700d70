import Mailutils.AmdSave

/-!
What `amd_scan_message` (`libmailutils/base/amd.c`) finds in a message file whose header is ended by an empty line or
by a line of dashes. The machine is right from the second byte on: the first byte only takes it to the beginning of
a line, so that it takes the first line for what is left of it without this byte (`scan_finds_iff`).
-/
namespace Mailutils.AmdScan
open Mailutils.Filter Mailutils.AmdSave
open Mailutils.Mailbox (Attribute setLetter mu_attribute_string_to_flags)

/-- The end of a header: an empty line, or one of dashes. -/
def delimiter (capa : Capabilities) (line : List UInt8) : Bool :=
  line = [] ∨ capa.dashdelim = true ∧ line.all (· = 45) = true

/-- The flags with those of a header line, if it begins with `Status:`. -/
def addStatus (flags : Attribute) (line : List UInt8) : Attribute :=
  if (line.take 7).map tolower = expect then mu_attribute_string_to_flags (cstring (line.drop 7)) flags else flags

/-- A file with a header, which its first delimiter ends, and a body. -/
structure MessageFile (capa : Capabilities) where
  header : List (List UInt8)
  last : List UInt8
  body : List UInt8
  lines : ∀ line ∈ header, LF ∉ line ∧ delimiter capa line = false
  last_line : LF ∉ last
  ends : delimiter capa last = true

/-- Lines with their newlines. -/
def joined (lines : List (List UInt8)) : List UInt8 := lines.flatMap (· ++ [LF])

def MessageFile.text {capa : Capabilities} (f : MessageFile capa) : List UInt8 :=
  joined f.header ++ (f.last ++ LF :: f.body)

/-- What is to be found in the file of a message that had `flags`. -/
structure Found {capa : Capabilities} (f : MessageFile capa) (flags : Attribute) (after : Message) : Prop where
  body_start : after.body_start = (joined f.header).length + f.last.length + 1
  body_end : after.body_end = f.text.length
  body_lines : after.body_lines = f.body.count LF
  header_lines : after.header_lines = f.header.length + 1
  attr_flags : capa.status = false → after.attr_flags = f.header.foldl addStatus flags

/-- The flags of two sets. -/
def union (f g : Attribute) : Attribute where
  answered := f.answered || g.answered
  flagged := f.flagged || g.flagged
  deleted := f.deleted || g.deleted
  draft := f.draft || g.draft
  seen := f.seen || g.seen
  read := f.read || g.read
  modified := f.modified || g.modified
  forwarded := f.forwarded || g.forwarded

theorem union_empty (f : Attribute) : union f {} = f := by simp [union]

private theorem setLetter_union (f g : Attribute) (c : UInt8) : setLetter (union f g) c = union f (setLetter g c) := by
  unfold setLetter
  split_ifs <;> simp [union]

theorem string_to_flags_union (buffer : List UInt8) (f g : Attribute) :
    mu_attribute_string_to_flags buffer (union f g) = union f (mu_attribute_string_to_flags buffer g) := by
  rw [mu_attribute_string_to_flags, mu_attribute_string_to_flags]
  generalize (if (buffer.take 7).map tolower = ascii "status:" then buffer.drop 7 else buffer) = letters
  induction letters generalizing g with
  | nil => rfl
  | cons c letters ih => rw [List.foldl_cons, List.foldl_cons, setLetter_union, ih]

theorem addStatus_union (lines : List (List UInt8)) (f g : Attribute) :
    lines.foldl addStatus (union f g) = union f (lines.foldl addStatus g) := by
  induction lines generalizing g with
  | nil => rfl
  | cons line lines ih =>
    rw [List.foldl_cons, List.foldl_cons, ← ih]
    congr 1
    rw [addStatus, addStatus]
    split
    · exact string_to_flags_union _ f g
    · rfl

/-- The machine is at the beginning of a line of the header. -/
structure AtLine (s : Scanner) (pos : Nat) (mhm : Message) : Prop where
  state : s.state = .header_newline
  pos : s.pos = pos
  mhm : s.mhm = mhm

section
variable {capa : Capabilities}

theorem header_rest (t : List UInt8) : ∀ {s : Scanner}, s.state = .header → LF ∉ t →
    AtLine ((t ++ [LF]).foldl (scan_byte capa) s) (s.pos + t.length + 1) s.mhm := by
  induction t with
  | nil =>
    intro s state _
    exact ⟨by simp [scan_byte, state], by simp [scan_byte, state], by simp [scan_byte, state]⟩
  | cons c t ih =>
    intro s state line
    obtain ⟨here, line⟩ : LF ≠ c ∧ LF ∉ t := by simpa using line
    have next : scan_byte capa s c = { s with pos := s.pos + 1 } := by simp [scan_byte, state, here.symm]
    have rest := @ih { s with pos := s.pos + 1 } state line
    rw [List.cons_append, List.foldl_cons, next, List.length_cons]
    exact ⟨rest.state, by rw [rest.pos]; dsimp only; omega, rest.mhm⟩

private theorem getline_rest (t : List UInt8) : ∀ {s : Scanner}, s.state = .getline → LF ∉ t →
    AtLine ((t ++ [LF]).foldl (scan_byte capa) s) (s.pos + t.length + 1)
      { s.mhm with attr_flags := mu_attribute_string_to_flags (cstring (s.line ++ t)) s.mhm.attr_flags } := by
  induction t with
  | nil =>
    intro s state _
    have only_added := string_to_flags_union (cstring s.line) s.mhm.attr_flags {}
    rw [union_empty] at only_added
    have kept : { mu_attribute_string_to_flags (cstring s.line) s.mhm.attr_flags with
        deleted := (mu_attribute_string_to_flags (cstring s.line) s.mhm.attr_flags).deleted ||
          s.mhm.attr_flags.deleted } = mu_attribute_string_to_flags (cstring s.line) s.mhm.attr_flags := by
      rw [only_added]
      cases deleted : s.mhm.attr_flags.deleted <;> simp [union, deleted]
    exact ⟨by simp [scan_byte, state, scan_status], by simp [scan_byte, state, scan_status],
      by simp [scan_byte, state, scan_status, kept]⟩
  | cons c t ih =>
    intro s state line
    obtain ⟨here, line⟩ : LF ≠ c ∧ LF ∉ t := by simpa using line
    have next : scan_byte capa s c = { s with pos := s.pos + 1, line := s.line ++ [c] } := by
      simp [scan_byte, state, here.symm]
    have rest := @ih { s with pos := s.pos + 1, line := s.line ++ [c] } state line
    rw [List.cons_append, List.foldl_cons, next, List.length_cons]
    exact ⟨rest.state, by rw [rest.pos]; dsimp only; omega, by simpa using rest.mhm⟩

theorem expect_drop : ∀ i ≤ 6, expect.drop i = expect[i]?.getD 0 :: expect.drop (i + 1) ∧
    (expect[i]?.getD 0 = COLON ↔ i = 6) ∧ (i < 6 → expect[i + 1]?.getD 0 ≠ 0) := by decide

theorem expect_rest (t : List UInt8) : ∀ {s : Scanner} {i : Nat}, s.state = .header_expect → s.i = i → i ≤ 6 → LF ∉ t →
    AtLine ((t ++ [LF]).foldl (scan_byte capa) s) (s.pos + t.length + 1)
      { s.mhm with attr_flags := if (t.take (7 - i)).map tolower = expect.drop i then
        mu_attribute_string_to_flags (cstring (t.drop (7 - i))) s.mhm.attr_flags else s.mhm.attr_flags } := by
  induction t with
  | nil =>
    intro s i state index small _
    obtain ⟨split, -⟩ := expect_drop i small
    exact ⟨by simp [scan_byte, state, scan_expect], by simp [scan_byte, state, scan_expect],
      by simp [scan_byte, state, scan_expect, split]⟩
  | cons c t ih =>
    intro s i state index small line
    obtain ⟨here, line⟩ : LF ≠ c ∧ LF ∉ t := by simpa using line
    obtain ⟨split, colon, more⟩ := expect_drop i small
    obtain ⟨k, length⟩ : ∃ k, 7 - i = k + 1 := ⟨6 - i, by omega⟩
    rw [List.cons_append, List.foldl_cons, List.length_cons, length, split]
    by_cases same : expect[i]?.getD 0 = tolower c
    · by_cases last : tolower c = COLON
      · have next : scan_byte capa s c = { s with pos := s.pos + 1, state := .getline, line := [] } := by
          simp [scan_byte, state, scan_expect, here.symm, index, same, last]
        have rest := @getline_rest capa t { s with pos := s.pos + 1, state := .getline, line := [] } rfl line
        obtain rfl : i = 6 := colon.1 (same.trans last)
        obtain rfl : k = 0 := by omega
        rw [next]
        refine ⟨rest.state, by rw [rest.pos]; dsimp only; omega, ?_⟩
        rw [rest.mhm]
        simp [same, show expect.drop 7 = [] from rfl]
      · have less : i < 6 := by
          have : i ≠ 6 := fun six => last (same.symm.trans (colon.2 six))
          omega
        have next : scan_byte capa s c = { s with pos := s.pos + 1, i := i + 1 } := by
          simp [scan_byte, state, scan_expect, here.symm, index, same, last, more less]
        have rest := @ih { s with pos := s.pos + 1, i := i + 1 } (i + 1) state rfl (by omega) line
        rw [next]
        refine ⟨rest.state, by rw [rest.pos]; dsimp only; omega, ?_⟩
        rw [rest.mhm, show 7 - (i + 1) = k by omega]
        simp [same]
    · have next : scan_byte capa s c = { s with pos := s.pos + 1, state := .header } := by
        simp [scan_byte, state, scan_expect, here.symm, index, same]
      have rest := @header_rest capa t { s with pos := s.pos + 1, state := .header } rfl line
      rw [next]
      refine ⟨rest.state, by rw [rest.pos]; dsimp only; omega, ?_⟩
      rw [rest.mhm]
      simp [Ne.symm same]

theorem dash_rest (t : List UInt8) : ∀ {s : Scanner}, s.state = .header_dash → LF ∉ t → t.all (· = 45) = false →
    AtLine ((t ++ [LF]).foldl (scan_byte capa) s) (s.pos + t.length + 1) s.mhm := by
  induction t with
  | nil => simp
  | cons c t ih =>
    intro s state line other
    obtain ⟨here, line⟩ : LF ≠ c ∧ LF ∉ t := by simpa using line
    rw [List.cons_append, List.foldl_cons, List.length_cons]
    by_cases dash : c = 45
    · have next : scan_byte capa s c = { s with pos := s.pos + 1, ndash := s.ndash + 1 } := by
        subst dash
        simp [scan_byte, state, scan_dash, here.symm]
      have rest := @ih { s with pos := s.pos + 1, ndash := s.ndash + 1 } state line (by simpa [dash] using other)
      rw [next]
      exact ⟨rest.state, by rw [rest.pos]; dsimp only; omega, rest.mhm⟩
    · have next : scan_byte capa s c = { s with pos := s.pos + 1, state := .header } := by
        simp [scan_byte, state, scan_dash, here.symm, dash]
      have rest := @header_rest capa t { s with pos := s.pos + 1, state := .header } rfl line
      rw [next]
      exact ⟨rest.state, by rw [rest.pos]; dsimp only; omega, rest.mhm⟩

theorem expect_split : expect = 115 :: expect.drop 1 := rfl

theorem expect_first : expect[0]?.getD 0 = 115 := rfl

theorem addStatus_other {flags : Attribute} {c : UInt8} {t : List UInt8} (other : tolower c ≠ 115) :
    addStatus flags (c :: t) = flags := by
  rw [addStatus, expect_split]
  simp [other]

/-- A header line with what it adds to the flags, if the mailbox keeps them in the header. -/
def withLine (capa : Capabilities) (mhm : Message) (line : List UInt8) : Message :=
  { mhm with
    header_lines := mhm.header_lines + 1
    attr_flags := if capa.status then mhm.attr_flags else addStatus mhm.attr_flags line }

variable {s : Scanner}

theorem dash_begins (delim : capa.dashdelim = true) (state : s.state = .header_newline) :
    scan_byte capa s 45 = { s with
      pos := s.pos + 1, state := .header_dash, ndash := 1
      mhm := { s.mhm with header_lines := s.mhm.header_lines + 1 } } := by
  simp [scan_byte, state, scan_newline, delim, show (45 : UInt8) ≠ LF by decide]

variable {line : List UInt8} {mhm : Message} {pos : Nat}

theorem header_line (whole : LF ∉ line) (inside : delimiter capa line = false)
    (start : AtLine s pos mhm) :
    AtLine ((line ++ [LF]).foldl (scan_byte capa) s) (pos + line.length + 1) (withLine capa mhm line) := by
  cases line with
  | nil => simp [delimiter] at inside
  | cons c t =>
    obtain ⟨here, below⟩ : LF ≠ c ∧ LF ∉ t := by simpa using whole
    obtain ⟨state, rfl, rfl⟩ := start
    rw [List.cons_append, List.foldl_cons, List.length_cons]
    by_cases dash : capa.dashdelim = true ∧ c = 45
    · obtain ⟨delim, rfl⟩ := dash
      have next := dash_begins delim state
      have mixed : t.all (· = 45) = false := by simpa [delimiter, delim] using inside
      have rest := @dash_rest capa t (scan_byte capa s 45) (by rw [next]) below mixed
      have unread : addStatus s.mhm.attr_flags (45 :: t) = s.mhm.attr_flags := addStatus_other (by decide)
      exact ⟨rest.state, by rw [rest.pos, next]; dsimp only; omega, by rw [rest.mhm, next, withLine, unread, ite_self]⟩
    · by_cases reads : capa.status = false ∧ tolower c = 115
      · have next : scan_byte capa s c = { s with
            pos := s.pos + 1, state := .header_expect, i := 1
            mhm := { s.mhm with header_lines := s.mhm.header_lines + 1 } } := by
          simp [scan_byte, state, scan_newline, here.symm, dash, reads, expect_first]
        have rest := @expect_rest capa t (scan_byte capa s c) 1 (by rw [next]) (by rw [next]) (by omega) below
        refine ⟨rest.state, by rw [rest.pos, next]; dsimp only; omega, ?_⟩
        rw [rest.mhm, next, withLine, addStatus, expect_split]
        simp [reads]
      · have next : scan_byte capa s c = { s with
            pos := s.pos + 1, state := .header, i := if capa.status then s.i else 0
            mhm := { s.mhm with header_lines := s.mhm.header_lines + 1 } } := by
          cases status : capa.status
          · have other : tolower c ≠ 115 := fun same => reads ⟨status, same⟩
            simp [scan_byte, state, scan_newline, here.symm, dash, status, expect_first, other.symm]
          · simp [scan_byte, state, scan_newline, here.symm, dash, status]
        have rest := @header_rest capa t (scan_byte capa s c) (by rw [next]) below
        refine ⟨rest.state, by rw [rest.pos, next]; dsimp only; omega, ?_⟩
        rw [rest.mhm, next, withLine]
        cases status : capa.status
        · rw [addStatus_other fun same => reads ⟨status, same⟩]
          rfl
        · rfl

theorem dashes_end (t : List UInt8) : ∀ {s : Scanner}, s.state = .header_dash → t.all (· = 45) = true →
    (t ++ [LF]).foldl (scan_byte capa) s =
      ({ s with pos := s.pos + t.length + 1, ndash := s.ndash + t.length } : Scanner).enter (s.ndash + t.length) := by
  induction t with
  | nil =>
    intro s state _
    simp [scan_byte, state, scan_dash, Scanner.enter]
  | cons c t ih =>
    intro s state all
    obtain ⟨rfl, all⟩ : c = 45 ∧ t.all (· = 45) = true := by simpa using all
    have next : scan_byte capa s 45 = { s with pos := s.pos + 1, ndash := s.ndash + 1 } := by
      simp [scan_byte, state, scan_dash, show (45 : UInt8) ≠ LF by decide]
    rw [List.cons_append, List.foldl_cons, next, @ih { s with pos := s.pos + 1, ndash := s.ndash + 1 } state all]
    simp only [List.length_cons, Nat.add_assoc, Nat.add_comm 1]

theorem last_line (whole : LF ∉ line) (ends : delimiter capa line = true)
    (start : AtLine s pos mhm) :
    ((line ++ [LF]).foldl (scan_byte capa) s).state = .body ∧
    ((line ++ [LF]).foldl (scan_byte capa) s).mhm = { mhm with
      header_lines := mhm.header_lines + 1
      body_start := pos + line.length + 1
      body_end := pos + line.length + 1
      header_size := pos + 1 } := by
  obtain ⟨state, rfl, rfl⟩ := start
  cases line with
  | nil => simp [scan_byte, state, scan_newline, Scanner.enter]
  | cons c t =>
    obtain ⟨dashes, rfl, rest⟩ : capa.dashdelim = true ∧ c = 45 ∧ t.all (· = 45) = true := by
      simpa [delimiter] using ends
    rw [List.cons_append, List.foldl_cons, dash_begins dashes state, dashes_end t rfl rest]
    refine ⟨rfl, ?_⟩
    simp only [Scanner.enter, List.length_cons]
    congr 1 <;> omega

theorem body_rest (body : List UInt8) : ∀ {s : Scanner}, s.state = .body →
    (body.foldl (scan_byte capa) s).state = .body ∧
    (body.foldl (scan_byte capa) s).mhm = { s.mhm with
      body_end := s.mhm.body_end + body.length
      body_lines := s.mhm.body_lines + body.count LF } := by
  induction body with
  | nil => simp
  | cons c body ih =>
    intro s state
    have next : scan_byte capa s c = { s with
        pos := s.pos + 1
        mhm := { s.mhm with
          body_end := s.mhm.body_end + 1
          body_lines := if c = LF then s.mhm.body_lines + 1 else s.mhm.body_lines } } := by
      simp [scan_byte, state]
    have rest := @ih (scan_byte capa s c) (by rw [next]; exact state)
    rw [List.foldl_cons]
    refine ⟨rest.1, ?_⟩
    rw [rest.2, next]
    by_cases newline : c = LF
    · simp [newline, Nat.add_assoc, Nat.add_comm 1]
    · simp [newline, Nat.add_assoc, Nat.add_comm 1]

theorem header_lines (lines : List (List UInt8)) : ∀ {s : Scanner} {pos : Nat} {mhm : Message},
    (∀ line ∈ lines, LF ∉ line ∧ delimiter capa line = false) → AtLine s pos mhm →
    AtLine ((joined lines).foldl (scan_byte capa) s) (pos + (joined lines).length)
      (lines.foldl (withLine capa) mhm) := by
  induction lines with
  | nil => simp [joined]
  | cons line lines ih =>
    intro s pos mhm all start
    rw [List.forall_mem_cons] at all
    have first := header_line all.1.1 all.1.2 start
    have rest := ih all.2 first
    have split : joined (line :: lines) = line ++ [LF] ++ joined lines := by simp [joined]
    rw [split, List.foldl_append, List.length_append, List.length_append, List.foldl_cons, ← Nat.add_assoc,
      ← Nat.add_assoc]
    exact rest

theorem rest_found (f : MessageFile capa) (start : AtLine s pos mhm) :
    (f.text.foldl (scan_byte capa) s).state = .body ∧
    (f.text.foldl (scan_byte capa) s).mhm = { f.header.foldl (withLine capa) mhm with
      header_lines := (f.header.foldl (withLine capa) mhm).header_lines + 1
      body_start := pos + (joined f.header).length + f.last.length + 1
      body_end := pos + f.text.length
      body_lines := (f.header.foldl (withLine capa) mhm).body_lines + f.body.count LF
      header_size := pos + (joined f.header).length + 1 } := by
  have header := header_lines f.header f.lines start
  obtain ⟨state, mhm⟩ := last_line f.last_line f.ends header
  obtain ⟨body_state, body_mhm⟩ := @body_rest capa f.body _ state
  have split : f.text = joined f.header ++ (f.last ++ [LF]) ++ f.body := by simp [MessageFile.text]
  rw [split, List.foldl_append, List.foldl_append]
  refine ⟨body_state, ?_⟩
  rw [body_mhm, mhm]
  simp only [List.length_append, List.length_singleton]
  congr 1
  omega

theorem withLine_lines (lines : List (List UInt8)) (mhm : Message) :
    (lines.foldl (withLine capa) mhm).header_lines = mhm.header_lines + lines.length ∧
    (lines.foldl (withLine capa) mhm).body_lines = mhm.body_lines ∧
    (capa.status = false → (lines.foldl (withLine capa) mhm).attr_flags = lines.foldl addStatus mhm.attr_flags) := by
  induction lines generalizing mhm with
  | nil => simp
  | cons line lines ih =>
    obtain ⟨header, body, flags⟩ := ih (withLine capa mhm line)
    rw [List.foldl_cons, header, body, List.foldl_cons, List.length_cons]
    refine ⟨by rw [withLine]; dsimp only; omega, rfl, fun off => ?_⟩
    rw [flags off, withLine]
    simp [off]

theorem scan_begins (c : UInt8) (text : List UInt8) (mhm : Message) : ∃ s : Scanner,
    AtLine s 1 { mhm with header_lines := 0, body_lines := 0 } ∧
    (c :: text).foldl (scan_byte capa) { mhm := { mhm with header_lines := 0, body_lines := 0 } } =
      text.foldl (scan_byte capa) s := by
  refine ⟨scan_byte capa { mhm := { mhm with header_lines := 0, body_lines := 0 } } c, ⟨?_, ?_, ?_⟩, rfl⟩
  · simp [scan_byte]
  · simp [scan_byte]
  · simp [scan_byte]

/-- The scan of a file is that of the file without its first byte, whatever the byte is. -/
theorem scan_file_rest (c : UInt8) (f : MessageFile capa) (mhm : Message) :
    (scan_file capa (c :: f.text) mhm).body_start = 1 + (joined f.header).length + f.last.length + 1 ∧
    (scan_file capa (c :: f.text) mhm).body_end = 1 + f.text.length ∧
    (scan_file capa (c :: f.text) mhm).body_lines = f.body.count LF ∧
    (scan_file capa (c :: f.text) mhm).header_lines = f.header.length + 1 ∧
    (capa.status = false →
      (scan_file capa (c :: f.text) mhm).attr_flags = f.header.foldl addStatus mhm.attr_flags) := by
  obtain ⟨s, start, same⟩ := @scan_begins capa c f.text mhm
  obtain ⟨state, found⟩ := rest_found f start
  obtain ⟨header, body, flags⟩ := @withLine_lines capa f.header { mhm with header_lines := 0, body_lines := 0 }
  rw [scan_file, same, if_neg (by rw [state]; decide), found]
  refine ⟨rfl, rfl, ?_, ?_, flags⟩
  · dsimp only
    rw [body, Nat.zero_add]
  · dsimp only
    rw [header, Nat.zero_add]

theorem scan_byte_body_start (s : Scanner) (c : UInt8) :
    (scan_byte capa s c).mhm.body_start = s.mhm.body_start ∨ (scan_byte capa s c).mhm.body_start = s.pos + 1 := by
  rw [scan_byte]
  cases s.state with
  | header_newline =>
    simp only [scan_newline, Scanner.enter]
    split_ifs <;> simp
  | header_dash =>
    simp only [scan_dash, Scanner.enter]
    split_ifs <;> simp
  | header_expect =>
    simp only [scan_expect]
    split_ifs <;> simp
  | getline =>
    simp only [scan_status]
    split_ifs <;> simp
  | _ => simp

theorem body_start_later (text : List UInt8) : ∀ {s : Scanner}, 1 ≤ s.pos → s.mhm.body_start ≠ 1 →
    (text.foldl (scan_byte capa) s).mhm.body_start ≠ 1 := by
  induction text with
  | nil => exact fun _ later => later
  | cons c text ih =>
    intro s pos later
    refine ih (by rw [scan_byte_pos]; omega) ?_
    rcases @scan_byte_body_start capa s c with same | here
    · rwa [same]
    · omega

theorem first_newline_missed (body : List UInt8) {mhm : Message} (unknown : mhm.body_start ≠ 1) :
    (scan_file capa (LF :: body) mhm).body_start ≠ 1 := by
  obtain ⟨s, start, same⟩ := @scan_begins capa LF body mhm
  have later := @body_start_later capa body s (by rw [start.pos]) (by rw [start.mhm]; exact unknown)
  rw [scan_file, same]
  split
  · exact later
  · exact later

/-- The first byte matters: it is a newline, or the only one of its line before a delimiter, or the line adds
    other flags without it. -/
def Misread (f : MessageFile capa) : Prop :=
  match f.header with
  | [] => f.last = []
  | first :: rest => delimiter capa first.tail = true ∨
    capa.status = false ∧ (first :: rest).foldl addStatus {} ≠ (first.tail :: rest).foldl addStatus {}

theorem foldl_flags_iff (lines others : List (List UInt8)) :
    (∀ flags, lines.foldl addStatus flags = others.foldl addStatus flags) ↔
      lines.foldl addStatus {} = others.foldl addStatus {} := by
  refine ⟨fun same => same {}, fun same flags => ?_⟩
  rw [← union_empty flags, addStatus_union, addStatus_union, same]

theorem delimiter_tail (ends : delimiter capa line = true) : delimiter capa line.tail = true := by
  cases line with
  | nil => rfl
  | cons c t =>
    have dashes : capa.dashdelim = true ∧ c = 45 ∧ t.all (· = 45) = true := by simpa [delimiter] using ends
    simp [delimiter, dashes.1, dashes.2.2]

theorem dashes_found (f : MessageFile capa) (mhm : Message) (none : f.header = []) (line : f.last ≠ []) :
    Found f mhm.attr_flags (scan_file capa f.text mhm) := by
  obtain ⟨c, t, last⟩ := List.exists_cons_of_ne_nil line
  have below : LF ∉ t := by
    have whole := f.last_line
    rw [last] at whole
    exact fun newline => whole (List.mem_cons_of_mem c newline)
  have ends : delimiter capa t = true := by
    have tail := delimiter_tail f.ends
    rwa [last] at tail
  have text : f.text = c :: (⟨[], t, f.body, by simp, below, ends⟩ : MessageFile capa).text := by
    simp [MessageFile.text, none, last, joined]
  obtain ⟨body_start, body_end, body_lines, header_lines, flags⟩ :=
    scan_file_rest c (⟨[], t, f.body, by simp, below, ends⟩ : MessageFile capa) mhm
  rw [← text] at body_start body_end body_lines header_lines flags
  refine ⟨?_, ?_, body_lines, ?_, ?_⟩
  · rw [body_start, none, last]
    simp [joined]
    omega
  · rw [body_end, text, List.length_cons, Nat.add_comm]
  · rw [header_lines, none]
  · rw [none]
    exact flags

variable {rest : List (List UInt8)} {first : List UInt8}

theorem first_line_below (f : MessageFile capa)
    (lines : f.header = first :: rest) : LF ∉ first.tail :=
  fun newline => (f.lines first (by simp [lines])).1 (List.mem_of_mem_tail newline)

theorem header_split (f : MessageFile capa)
    (lines : f.header = first :: rest) : ∃ c, joined f.header = c :: (first.tail ++ LF :: joined rest) := by
  cases first with
  | nil => simpa [delimiter] using (f.lines [] (by simp [lines])).2
  | cons c t => exact ⟨c, by simp [lines, joined]⟩

theorem one_byte_lost (f : MessageFile capa) (mhm : Message)
    (lines : f.header = first :: rest) (ends : delimiter capa first.tail = true) :
    ¬ Found f mhm.attr_flags (scan_file capa f.text mhm) := by
  intro found
  obtain ⟨c, split⟩ := header_split f lines
  have text : f.text = c :: (⟨[], first.tail, joined rest ++ (f.last ++ LF :: f.body), by simp,
      first_line_below f lines, ends⟩ : MessageFile capa).text := by
    rw [MessageFile.text, split]
    simp [MessageFile.text, joined]
  have body_start := (scan_file_rest c (⟨[], first.tail, joined rest ++ (f.last ++ LF :: f.body), by simp,
    first_line_below f lines, ends⟩ : MessageFile capa) mhm).1
  rw [← text, found.body_start, split] at body_start
  simp [joined] at body_start
  omega

/-- What is left of the first line is one of the header. -/
theorem first_line_found_iff (f : MessageFile capa) (mhm : Message)
    (lines : f.header = first :: rest) (inside : delimiter capa first.tail = false) :
    Found f mhm.attr_flags (scan_file capa f.text mhm) ↔ (capa.status = false →
      (first :: rest).foldl addStatus mhm.attr_flags = (first.tail :: rest).foldl addStatus mhm.attr_flags) := by
  obtain ⟨c, split⟩ := header_split f lines
  have all : ∀ line ∈ first.tail :: rest, LF ∉ line ∧ delimiter capa line = false := by
    rw [List.forall_mem_cons]
    exact ⟨⟨first_line_below f lines, inside⟩, fun line among => f.lines line (by simp [lines, among])⟩
  have text : f.text =
      c :: (⟨first.tail :: rest, f.last, f.body, all, f.last_line, f.ends⟩ : MessageFile capa).text := by
    rw [MessageFile.text, split]
    simp [MessageFile.text, joined]
  obtain ⟨body_start, body_end, body_lines, header_lines, flags⟩ :=
    scan_file_rest c (⟨first.tail :: rest, f.last, f.body, all, f.last_line, f.ends⟩ : MessageFile capa) mhm
  rw [← text] at body_start body_end body_lines header_lines flags
  constructor
  · intro found off
    rw [← flags off, found.attr_flags off, lines]
  · intro same
    refine ⟨?_, ?_, body_lines, ?_, ?_⟩
    · rw [body_start, split]
      simp [joined]
      omega
    · rw [body_end, text, List.length_cons, Nat.add_comm]
    · rw [header_lines, lines]
      simp
    · intro off
      rw [flags off, lines, same off]

end

/-- The header and the body are found, unless the first byte of the file matters. -/
theorem scan_finds_iff (capa : Capabilities) (f : MessageFile capa) (st_mtime : Nat) :
    (∀ mhm : Message, st_mtime ≠ mhm.mtime →
      Found f mhm.attr_flags (amd_scan_message capa st_mtime f.text mhm)) ↔ ¬ Misread f := by
  constructor
  · intro found misread
    -- a message that has not been scanned yet
    have scanned : Found f {} (scan_file capa f.text { mtime := st_mtime }) := by
      have new : st_mtime ≠ ({ mtime := st_mtime + 1 } : Message).mtime := by simp
      have all := found { mtime := st_mtime + 1 } new
      rwa [amd_scan_message, if_neg new] at all
    rw [Misread] at misread
    split at misread
    · rename_i none
      have text : f.text = LF :: f.body := by simp [MessageFile.text, none, misread, joined]
      have missed := @first_newline_missed capa f.body { mtime := st_mtime } (by simp)
      have start := scanned.body_start
      rw [text, none, misread] at start
      exact missed start
    · rename_i first rest lines
      rcases misread with ends | ⟨off, differ⟩
      · exact one_byte_lost f { mtime := st_mtime } lines ends scanned
      · cases tail : delimiter capa first.tail
        · exact differ ((first_line_found_iff f { mtime := st_mtime } lines tail).1 scanned off)
        · exact one_byte_lost f { mtime := st_mtime } lines tail scanned
  · intro read mhm new
    rw [amd_scan_message, if_neg new]
    rw [Misread] at read
    split at read
    · rename_i none
      exact dashes_found f { mhm with mtime := st_mtime } none read
    · rename_i first rest lines
      rw [not_or, not_and, not_not, Bool.not_eq_true] at read
      refine (first_line_found_iff f { mhm with mtime := st_mtime } lines read.1).2 fun off => ?_
      exact (foldl_flags_iff _ _).2 (read.2 off) _

/-- An empty header, a first line of one byte and a first line with the flags are misread. -/
theorem first_byte_misread :
    (∃ f : MessageFile {}, f.text = ascii "x\nSubject: hi\n\nHello\n" ∧
      ¬ Found f {} (amd_scan_message {} 1 f.text {})) ∧
    (amd_scan_message {} 1 (ascii "\nHello\n\nthere\n") {}).body_start = 8 ∧
    (amd_scan_message {} 1 (ascii "x\nSubject: hi\n\nHello\n") {}).body_start = 2 ∧
    (amd_scan_message {} 1 (ascii "Status: RO\n\nHello\n") {}).attr_flags = {} ∧
    (amd_scan_message {} 1 (ascii "xStatus: RO\n\nHello\n") {}).attr_flags.read = true := by
  refine ⟨⟨⟨[ascii "x", ascii "Subject: hi"], [], ascii "Hello\n", by decide, by decide, by decide⟩, by decide,
    fun found => ?_⟩, by decide⟩
  exact absurd found.body_start (by decide)

end Mailutils.AmdScan

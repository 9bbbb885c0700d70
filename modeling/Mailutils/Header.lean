import Mailutils.Stream
import Mathlib.Algebra.GroupWithZero.Nat
import Mathlib.Data.List.DropRight

/-!
Header objects and their streams (`libmailutils/mailbox/header.c`). The names and values of
the fields are in a spool to which text is only ever added; an entry of the field list says
where in the spool they are. The stream of a header renders its list from the spool, putting
the colon and the newline of an entry in for the time of the copy. The size and the numbers
of fields and lines are kept from one question to the next, until a flag says that they are
not valid any more. A write to the stream goes to a copy of the spool, which is parsed when
the header is looked at again.
-/
namespace Mailutils.Header
open Mailutils.Filter Mailutils.Stream

/-- A string of C. -/
abbrev CString := { bytes : List UInt8 // 0 ∉ bytes }


inductive Errno
  | einval | noent | exist | espipe
  /-- An error of the callback that provides the text of the header. -/
  | fill (code : Nat)
  deriving DecidableEq, Repr

/-- `struct mu_hdrent` -/
structure Ent where
  fn : Nat
  nlen : Nat
  fv : Nat
  vlen : Nat
  nlines : Nat
  deriving DecidableEq, Repr

def MU_STR_SIZE (nlen vlen : Nat) : Nat := nlen + 2 + vlen + 1

def Ent.strsize (ent : Ent) : Nat := MU_STR_SIZE ent.nlen ent.vlen

/-- `struct _mu_header`, with the spool as far as it is used and the list from `head` to
    `tail`. -/
structure Hdr where
  spool : List UInt8 := []
  spool_size : Nat := 0
  list : List Ent := []
  numhdr : Nat := 0
  numlines : Nat := 0
  size : Nat := 0
  /-- `HEADER_MODIFIED`, `HEADER_INVALIDATE` and `HEADER_STREAMMOD` -/
  modified : Bool := false
  invalidate : Bool := false
  streammod : Bool := false
  mstream : Option (List UInt8) := none
  /-- What the callback gives, if there is one. -/
  _fill : Option (Except Nat (List UInt8)) := none
  deriving DecidableEq

def HEADER_SET_MODIFIED (hdr : Hdr) : Hdr := { hdr with modified := true, invalidate := true }

/-- `MU_HDRENT_NAME`, a string that ends with the null byte. -/
def MU_HDRENT_NAME (hdr : Hdr) (ent : Ent) : List UInt8 := (hdr.spool.drop ent.fn).takeWhile (· ≠ 0)

/-- The index of the `n`th entry that matches, counted from one. -/
def nth_match (p : Ent → Bool) : List Ent → Nat → Option Nat
  | [], _ => none
  | ent :: rest, n =>
    if p ent then if n = 1 then some 0 else (nth_match p rest (n - 1)).map (· + 1)
    else (nth_match p rest n).map (· + 1)

/-- The index of the entry; a negative position counts from the end of the list, and no name
    stands for any. -/
def mu_hdrent_find (hdr : Hdr) (name : Option CString) (pos : Int) : Option Nat :=
  let p := fun ent => name.all fun name => mu_c_strcasecmp (MU_HDRENT_NAME hdr ent) name.1 = 0
  if pos > 0 then nth_match p hdr.list pos.toNat
  else if pos < 0 then (nth_match p hdr.list.reverse (-pos).toNat).map (hdr.list.length - 1 - ·)
  else none

def SPOOLBLKSIZ : Nat := 1024

/-- The new entry, and the header with its text in the spool. -/
def mu_hdrent_create (hdr : Hdr) (name value : List UInt8) : Ent × Hdr :=
  let strsize := MU_STR_SIZE name.length value.length
  let sizeleft := hdr.spool_size - hdr.spool.length
  let spool_size :=
    if sizeleft < strsize then
      hdr.spool_size + (strsize - sizeleft + SPOOLBLKSIZ - 1) / SPOOLBLKSIZ * SPOOLBLKSIZ
    else hdr.spool_size
  ({ fn := hdr.spool.length
     nlen := name.length
     fv := hdr.spool.length + name.length + 2
     vlen := value.length
     nlines := 1 + value.count LF },
    { hdr with spool := hdr.spool ++ (name ++ [0, SP] ++ value ++ [0]), spool_size := spool_size })

def mu_hdrent_free_list (hdr : Hdr) : Hdr := { hdr with list := [], spool := [] }

/-- The new entry before or after the one that is named. -/
def mu_hdrent_insert (hdr : Hdr) (ent : Ent) (name : Option CString) (pos : Int) (before : Bool) :
    Option Errno × Hdr :=
  match mu_hdrent_find hdr name pos with
  | none => (some .noent, hdr)
  | some i => (none, { hdr with list := hdr.list.insertIdx (if before then i else i + 1) ent })

def ISLWSP (c : UInt8) : Bool := c = SP ∨ c = TAB

/-- The second loop of `header_parse`: the text of a field with the lines that continue it,
    and what follows its newline. -/
def take_field : List UInt8 → List UInt8 × List UInt8
  | [] => ([], [])
  | c :: rest =>
    if c = LF ∧ !rest.head?.any ISLWSP then ([], rest)
    else (c :: (take_field rest).1, (take_field rest).2)

/-- The name and the value of a field; `none` where there is no colon. The blanks before the colon and behind it are
    skipped inside of the text: for bytes outside see `overruns`. -/
def split_field (field : List UInt8) : Option (List UInt8 × List UInt8) :=
  if field.length ≥ 5 ∧ field.take 5 = ascii "From " then some (field.take 5, field.drop 5)
  else if COLON ∈ field then
    let colon := field.idxOf COLON
    some ((field.take colon).rdropWhile ISLWSP, (field.drop (colon + 1)).dropWhile ISLWSP)
  else none

/-- The first loop of `header_parse`, at most one round for each byte. -/
def parse_loop : Nat → List UInt8 → Hdr → Hdr
  | 0, _, hdr => hdr
  | fuel + 1, text, hdr =>
    if text = [] ∨ text.head?.any fun c => ISLWSP c ∨ c = LF then hdr
    else
      match split_field (take_field text).1 with
      | none => hdr
      | some (name, value) =>
        let (ent, hdr) := mu_hdrent_create hdr name value
        parse_loop fuel (take_field text).2 { hdr with list := hdr.list ++ [ent] }

def header_parse (hdr : Hdr) (blurb : List UInt8) : Hdr :=
  parse_loop blurb.length blurb (mu_hdrent_free_list { hdr with invalidate := true })

def mu_header_invalidate (hdr : Hdr) : Hdr := mu_hdrent_free_list hdr

def mu_header_fill (hdr : Hdr) : Option Errno × Hdr :=
  match hdr.mstream, hdr.streammod with
  | some blurb, true => (none, { header_parse (mu_header_invalidate hdr) blurb with streammod := false })
  | _, _ =>
    if hdr.spool ≠ [] then (none, hdr)
    else
      match hdr._fill with
      | none => (none, hdr)
      | some (.error code) => (some (.fill code), hdr)
      | some (.ok blurb) => (none, header_parse hdr blurb)

def mu_header_create (blurb : Option (List UInt8)) : Hdr :=
  match blurb with
  | none => {}
  | some blurb => header_parse {} blurb

def mu_header_set_value (hdr : Hdr) (fn fv : Option CString) (replace : Bool) : Option Errno × Hdr :=
  match fn with
  | none => (some .einval, hdr)
  | some fn =>
    match mu_header_fill hdr with
    | (some code, hdr) => (some code, hdr)
    | (none, hdr) =>
      if fv.isNone ∧ !replace then (some .einval, hdr)
      else
        match mu_hdrent_find hdr (some fn) 1, fv with
        | some i, none => (none, { hdr with list := hdr.list.eraseIdx i })
        | some i, some fv =>
          if replace then
            let (ent, hdr) := mu_hdrent_create hdr fn.1 fv.1
            (none, HEADER_SET_MODIFIED { hdr with list := hdr.list.set i ent })
          else (some .exist, hdr)
        | none, none => (none, hdr)
        | none, some fv =>
          let (ent, hdr) := mu_hdrent_create hdr fn.1 fv.1
          (none, HEADER_SET_MODIFIED { hdr with list := hdr.list ++ [ent] })

def mu_header_remove (hdr : Hdr) (fn : Option CString) (n : Int) : Option Errno × Hdr :=
  match mu_header_fill hdr with
  | (some code, hdr) => (some code, hdr)
  | (none, hdr) =>
    match mu_hdrent_find hdr fn n with
    | none => (some .noent, hdr)
    | some i => (none, HEADER_SET_MODIFIED { hdr with list := hdr.list.eraseIdx i })

def mu_header_append (hdr : Hdr) (fn fv : Option CString) : Option Errno × Hdr :=
  match fn, fv with
  | some fn, some fv =>
    match mu_header_fill hdr with
    | (some code, hdr) => (some code, hdr)
    | (none, hdr) =>
      let (ent, hdr) := mu_hdrent_create hdr fn.1 fv.1
      (none, HEADER_SET_MODIFIED { hdr with list := hdr.list ++ [ent] })
  | _, _ => (some .einval, hdr)

def mu_header_prepend (hdr : Hdr) (fn fv : Option CString) : Option Errno × Hdr :=
  match fn, fv with
  | some fn, some fv =>
    match mu_header_fill hdr with
    | (some code, hdr) => (some code, hdr)
    | (none, hdr) =>
      let (ent, hdr) := mu_hdrent_create hdr fn.1 fv.1
      (none, HEADER_SET_MODIFIED { hdr with list := ent :: hdr.list })
  | _, _ => (some .einval, hdr)

/-- The flags are `MU_HEADER_BEFORE` and `MU_HEADER_REPLACE`. An entry that replaces none is
    created and forgotten. -/
def mu_header_insert (hdr : Hdr) (fn fv ref : Option CString) (n : Int) (before replace : Bool) :
    Option Errno × Hdr :=
  match fn, fv with
  | some fn, some fv =>
    match mu_header_fill hdr with
    | (some code, hdr) => (some code, hdr)
    | (none, hdr) =>
      if replace then
        let found := mu_hdrent_find hdr (some (ref.getD fn)) n
        let (ent, hdr) := mu_hdrent_create hdr fn.1 fv.1
        match found with
        | some i => (none, HEADER_SET_MODIFIED { hdr with list := hdr.list.set i ent })
        | none => (none, HEADER_SET_MODIFIED hdr)
      else
        let (ent, hdr) := mu_hdrent_create hdr fn.1 fv.1
        match ref with
        | some ref => mu_hdrent_insert hdr ent (some ref) n before
        | none => (none, HEADER_SET_MODIFIED { hdr with list := ent :: hdr.list })
  | _, _ => (some .einval, hdr)

def mu_hdrent_count (hdr : Hdr) : Hdr :=
  if hdr.invalidate then
    { hdr with
      numhdr := hdr.list.length
      numlines := (hdr.list.map Ent.nlines).sum
      size := (hdr.list.map Ent.strsize).sum
      invalidate := false }
  else hdr

/-- The family of questions about the numbers that are kept. -/
def counted (answer : Hdr → Nat) (hdr : Hdr) : Except Errno Nat × Hdr :=
  match mu_header_fill hdr with
  | (some code, hdr) => (.error code, hdr)
  | (none, hdr) => (.ok (answer (mu_hdrent_count hdr)), mu_hdrent_count hdr)

def mu_header_get_field_count : Hdr → Except Errno Nat × Hdr := counted Hdr.numhdr

def mu_header_lines : Hdr → Except Errno Nat × Hdr := counted fun hdr => hdr.numlines + 1

def mu_header_size : Hdr → Except Errno Nat × Hdr := counted fun hdr => hdr.size + 1

def mu_header_is_modified (hdr : Hdr) : Bool := hdr.modified

/-- `struct _mu_header_stream` -/
structure HeaderStream where
  hdr : Hdr
  off : Nat := 0

def mu_hdrent_fixup (spool : List UInt8) (ent : Ent) : List UInt8 :=
  (spool.set (ent.fn + ent.nlen) COLON).set (ent.fv + ent.vlen) LF

def mu_hdrent_unroll_fixup (spool : List UInt8) (ent : Ent) : List UInt8 :=
  (spool.set (ent.fn + ent.nlen) 0).set (ent.fv + ent.vlen) 0

/-- The loop of `mu_hdrent_find_stream_pos` with `x` bytes before: the list from the entry on
    and the place in it, or the size of all entries. -/
def find_pos (pos : Nat) : List Ent → Nat → Except Nat (List Ent × Nat)
  | [], x => .error x
  | ent :: rest, x =>
    if x ≤ pos ∧ pos < x + ent.strsize then .ok (ent :: rest, pos - x) else find_pos pos rest (x + ent.strsize)

/-- The last newline of the last entry also serves as the empty line. -/
def mu_hdrent_find_stream_pos (hdr : Hdr) (pos : Nat) : Option (List Ent × Nat) :=
  match find_pos pos hdr.list 0 with
  | .ok found => some found
  | .error x => if x = pos then hdr.list.getLast?.map fun ent => ([ent], ent.strsize - 1) else none

/-- The loop of `header_read`: what is copied, and the spool. -/
def read_loop : List Ent → Nat → Nat → List UInt8 → List UInt8 × List UInt8
  | [], _, _, spool => ([], spool)
  | ent :: rest, ent_off, buflen, spool =>
    if buflen = 0 then ([], spool)
    else
      let n := min buflen (ent.strsize - ent_off)
      let fixed := mu_hdrent_fixup spool ent
      let (more, spool) := read_loop rest 0 (buflen - n) (mu_hdrent_unroll_fixup fixed ent)
      ((fixed.drop (ent.fn + ent_off)).take n ++ more, spool)

def header_read (str : HeaderStream) (buflen : Nat) : Except Errno (List UInt8) × HeaderStream :=
  match mu_header_fill str.hdr with
  | (some code, hdr) => (.error code, { str with hdr := hdr })
  | (none, hdr) =>
    if hdr.spool_size = 0 then
      if str.off = 0 ∧ buflen > 0 then (.ok [LF], { hdr := hdr, off := str.off + 1 })
      else (.ok [], { str with hdr := hdr })
    else
      match mu_hdrent_find_stream_pos hdr str.off with
      | none => (.ok [], { str with hdr := hdr })
      | some (ents, ent_off) =>
        let (data, spool) := read_loop ents ent_off buflen hdr.spool
        (.ok data, { hdr := { hdr with spool := spool }, off := str.off + data.length })

/-- The copy of the spool that `header_write` works on. -/
def materialize (hdr : Hdr) : List UInt8 :=
  let file : File := ⟨hdr.mstream.getD [], 0⟩
  if hdr.spool ≠ [] then (file.put (hdr.list.foldl mu_hdrent_fixup hdr.spool)).truncate hdr.spool.length
  else file.content

def header_write (str : HeaderStream) (buf : List UInt8) : Option Errno × HeaderStream :=
  let (rc, str) :=
    if str.hdr.streammod then (none, str)
    else
      match mu_header_fill str.hdr with
      | (some code, hdr) => (some code, { str with hdr := hdr })
      | (none, hdr) =>
        (none,
          { hdr := { hdr with mstream := some (materialize hdr), streammod := true }
            off := if hdr.spool ≠ [] then min str.off hdr.spool.length else str.off })
  if rc.isSome then (rc, str)
  else
    let file : File := ⟨str.hdr.mstream.getD [], str.off⟩
    (none, { str with hdr := { str.hdr with mstream := some (file.put buf).content } })
end Mailutils.Header

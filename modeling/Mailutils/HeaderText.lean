import Mailutils.Header
import Mathlib.Algebra.GroupWithZero.Nat

/-!
What a header object says about itself, and the text of its stream. After any calls that
change a header, the numbers it gives are those of its list of fields and its stream has the
text of that list (`header_shows_fields`), unless one of three things happens. A field deleted
with `mu_header_set_value` and one inserted next to another are not noted as changes. And once
there was a field, a header without fields has no text at all, not even the empty line.
-/
namespace Mailutils.Header
open Mailutils.Filter

/-- The name and the value of an entry. -/
def field (spool : List UInt8) (ent : Ent) : List UInt8 × List UInt8 :=
  ((spool.drop ent.fn).take ent.nlen, (spool.drop ent.fv).take ent.vlen)

def fields (hdr : Hdr) : List (List UInt8 × List UInt8) := hdr.list.map (field hdr.spool)

/-- A field as it is written out. -/
def line (f : List UInt8 × List UInt8) : List UInt8 := f.1 ++ [COLON, SP] ++ f.2 ++ [LF]

/-- The lines of the fields and the empty line. -/
def text (fs : List (List UInt8 × List UInt8)) : List UInt8 := (fs.map line).flatten ++ [LF]

/-- The lines of the values, and the empty line. -/
def lineCount (fs : List (List UInt8 × List UInt8)) : Nat := (fs.map fun f => 1 + f.2.count LF).sum + 1

/-- The field is in the spool where the entry says. -/
def Stored (spool : List UInt8) (ent : Ent) (f : List UInt8 × List UInt8) : Prop :=
  ∃ before after : List UInt8, spool = before ++ (f.1 ++ [0, SP] ++ f.2 ++ [0]) ++ after ∧
    ent = ⟨before.length, f.1.length, before.length + f.1.length + 2, f.2.length, 1 + f.2.count LF⟩

section
variable {spool : List UInt8} {ent : Ent} {f : List UInt8 × List UInt8}

theorem Stored.append (stored : Stored spool ent f) (more : List UInt8) : Stored (spool ++ more) ent f := by
  obtain ⟨before, after, rfl, rfl⟩ := stored
  exact ⟨before, after ++ more, by simp, rfl⟩

theorem Stored.field (stored : Stored spool ent f) : field spool ent = f := by
  obtain ⟨before, after, rfl, rfl⟩ := stored
  have name : before ++ (f.1 ++ [0, SP] ++ f.2 ++ [0]) ++ after = before ++ (f.1 ++ ([0, SP] ++ f.2 ++ [0] ++ after)) := by
    simp
  have value : before ++ (f.1 ++ [0, SP] ++ f.2 ++ [0]) ++ after =
      (before ++ (f.1 ++ [0, SP])) ++ (f.2 ++ ([0] ++ after)) := by
    simp
  have skip : before.length + f.1.length + 2 = (before ++ (f.1 ++ [0, SP])).length := by
    simp [Nat.add_assoc]
  refine Prod.ext ?_ ?_
  · show List.take f.1.length (List.drop before.length _) = f.1
    rw [name, List.drop_left, List.take_left]
  · show List.take f.2.length (List.drop (before.length + f.1.length + 2) _) = f.2
    rw [value, skip, List.drop_left, List.take_left]

theorem Stored.strsize (stored : Stored spool ent f) : ent.strsize = (line f).length := by
  obtain ⟨before, after, -, rfl⟩ := stored
  simp [Ent.strsize, MU_STR_SIZE, line]
  omega

theorem Stored.nlines (stored : Stored spool ent f) : ent.nlines = 1 + f.2.count LF := by
  obtain ⟨before, after, -, rfl⟩ := stored
  rfl

theorem set_middle {α : Type*} (left right : List α) (a b : α) :
    (left ++ a :: right).set left.length b = left ++ b :: right := by
  rw [List.set_append_right _ _ (Nat.le_refl _), Nat.sub_self]
  rfl

theorem set_ends (before name value after : List UInt8) (a b c d : UInt8) :
    ((before ++ (name ++ [a, SP] ++ value ++ [b]) ++ after).set (before.length + name.length) c).set
        (before.length + name.length + 2 + value.length) d =
      before ++ (name ++ [c, SP] ++ value ++ [d]) ++ after := by
  have first := set_middle (before ++ name) (SP :: value ++ [b] ++ after) a c
  have second := set_middle (before ++ name ++ [c, SP] ++ value) after b d
  simp only [List.length_append, List.length_cons, List.length_nil] at first second
  simp only [List.append_assoc, List.cons_append, List.nil_append] at first second ⊢
  rw [first]
  exact second

/-- With the colon and the newline the spool has the line of the field, and then it is as before. -/
theorem Stored.fixup (stored : Stored spool ent f) :
    (∃ after, (mu_hdrent_fixup spool ent).drop ent.fn = line f ++ after) ∧
      mu_hdrent_unroll_fixup (mu_hdrent_fixup spool ent) ent = spool := by
  obtain ⟨before, after, rfl, rfl⟩ := stored
  have fixed : mu_hdrent_fixup (before ++ (f.1 ++ [0, SP] ++ f.2 ++ [0]) ++ after)
      ⟨before.length, f.1.length, before.length + f.1.length + 2, f.2.length, 1 + f.2.count LF⟩ =
        before ++ line f ++ after := set_ends ..
  refine ⟨⟨after, ?_⟩, ?_⟩
  · rw [fixed, List.append_assoc]
    exact List.drop_left
  · rw [fixed]
    exact set_ends ..

theorem Stored.name (stored : Stored spool ent f) : (spool.drop ent.fn).takeWhile (· ≠ 0) = f.1.takeWhile (· ≠ 0) := by
  obtain ⟨before, after, rfl, rfl⟩ := stored
  have shape : before ++ (f.1 ++ [0, SP] ++ f.2 ++ [0]) ++ after = before ++ (f.1 ++ 0 :: (SP :: f.2 ++ [0] ++ after)) := by
    simp
  show (List.drop before.length _).takeWhile _ = _
  rw [shape, List.drop_left, List.takeWhile_append]
  split
  next whole =>
    rw [List.takeWhile_cons_of_neg (by simp), List.append_nil]
    exact ((List.takeWhile_prefix _).eq_of_length whole).symm
  next => rfl
end

section
variable {spool : List UInt8}

/-- The text of some entries. -/
def lines (spool : List UInt8) (ents : List Ent) : List UInt8 := (ents.map fun ent => line (field spool ent)).flatten

/-- Every entry is in the spool. -/
def AllStored (spool : List UInt8) (ents : List Ent) : Prop := ∀ ent ∈ ents, Stored spool ent (field spool ent)

theorem lines_cons (spool : List UInt8) (ent : Ent) (ents : List Ent) :
    lines spool (ent :: ents) = line (field spool ent) ++ lines spool ents := rfl

private theorem lines_length {ents : List Ent} (stored : AllStored spool ents) :
    (lines spool ents).length = (ents.map Ent.strsize).sum := by
  induction ents with
  | nil => rfl
  | cons ent ents ih =>
    rw [lines_cons, List.length_append, ih fun e member => stored e (List.mem_cons_of_mem ent member), List.map_cons,
      List.sum_cons, (stored ent List.mem_cons_self).strsize]

private theorem take_append_min {α : Type*} (left right : List α) (n : Nat) :
    left.take (min n left.length) ++ right.take (n - min n left.length) = (left ++ right).take n := by
  rw [List.take_append]
  rcases Nat.le_total n left.length with short | long
  · rw [Nat.min_eq_left short, Nat.sub_self, Nat.sub_eq_zero_of_le short]
  · rw [Nat.min_eq_right long, List.take_length, List.take_of_length_le long]

theorem read_loop_lines (ents : List Ent) : ∀ (ent_off buflen : Nat), AllStored spool ents →
    (∀ ent ∈ ents.head?, ent_off ≤ ent.strsize) →
    read_loop ents ent_off buflen spool = (((lines spool ents).drop ent_off).take buflen, spool) := by
  induction ents with
  | nil => exact fun ent_off buflen _ _ => by simp [read_loop, lines]
  | cons ent ents ih =>
    intro ent_off buflen stored within
    have here := stored ent List.mem_cons_self
    have bound : ent_off ≤ (line (field spool ent)).length := here.strsize ▸ within ent rfl
    obtain ⟨⟨after, fixed⟩, unrolled⟩ := here.fixup
    rw [read_loop]
    by_cases none_left : buflen = 0
    · rw [if_pos none_left, none_left, List.take_zero]
    rw [if_neg none_left]
    dsimp only
    rw [unrolled, ih 0 _ (fun e member => stored e (List.mem_cons_of_mem ent member)) fun _ _ => Nat.zero_le _]
    refine Prod.ext ?_ rfl
    have size : ent.strsize - ent_off = ((line (field spool ent)).drop ent_off).length := by
      rw [List.length_drop, ← here.strsize]
    show List.take _ (List.drop (ent.fn + ent_off) _) ++ List.take _ _ = List.take _ _
    rw [← List.drop_drop, fixed, List.drop_append_of_le_length bound, lines_cons, List.drop_append_of_le_length bound,
      List.drop_zero, size, List.take_append_of_le_length (Nat.min_le_right ..), take_append_min]

theorem find_pos_lines (pos : Nat) (ents : List Ent) : ∀ (x : Nat), AllStored spool ents → x ≤ pos →
    (pos < x + (lines spool ents).length → ∃ found ent_off, find_pos pos ents x = .ok (found, ent_off) ∧
      AllStored spool found ∧ (∀ ent ∈ found.head?, ent_off ≤ ent.strsize) ∧
      (lines spool found).drop ent_off = (lines spool ents).drop (pos - x)) ∧
    (x + (lines spool ents).length ≤ pos → find_pos pos ents x = .error (x + (lines spool ents).length)) := by
  induction ents with
  | nil => exact fun x _ before => ⟨fun inside => absurd inside (Nat.not_lt.mpr before), fun _ => rfl⟩
  | cons ent ents ih =>
    intro x stored before
    have here := stored ent List.mem_cons_self
    rw [find_pos, lines_cons, List.length_append, ← here.strsize]
    by_cases inside : pos < x + ent.strsize
    · rw [if_pos ⟨before, inside⟩]
      refine ⟨fun _ => ⟨ent :: ents, pos - x, rfl, stored, ?_, rfl⟩, fun outside => absurd inside (by omega)⟩
      intro e head
      cases head
      omega
    · rw [if_neg fun both => inside both.2]
      obtain ⟨found, absent⟩ :=
        ih (x + ent.strsize) (fun e member => stored e (List.mem_cons_of_mem ent member)) (by omega)
      refine ⟨fun inside' => ?_, fun outside => ?_⟩
      · obtain ⟨rest, ent_off, result, stored', within, same⟩ := found (by omega)
        refine ⟨rest, ent_off, result, stored', within, ?_⟩
        have passed : (line (field spool ent)).length ≤ pos - x := by
          rw [← here.strsize]
          omega
        rw [same, List.drop_append, List.drop_of_length_le passed, List.nil_append, ← here.strsize, Nat.sub_sub]
      · rw [absent (by omega), Nat.add_assoc]
end

/-- The numbers that a header keeps are those of its list. -/
structure Counted (hdr : Hdr) : Prop where
  numhdr : hdr.numhdr = hdr.list.length
  numlines : hdr.numlines = (hdr.list.map Ent.nlines).sum
  size : hdr.size = (hdr.list.map Ent.strsize).sum

/-- The entries are in the spool, and the numbers are those of the list unless they are
    marked as invalid. There is nothing to be parsed. -/
structure Orderly (hdr : Hdr) : Prop where
  stored : AllStored hdr.spool hdr.list
  spool : hdr.spool.length ≤ hdr.spool_size
  numbers : hdr.invalidate = false → Counted hdr
  streammod : hdr.streammod = false
  fill : hdr._fill = none
  /-- A header without fields has never had any. -/
  shown : hdr.list = [] → hdr.spool_size = 0

section
variable {hdr : Hdr}

theorem Orderly.filled (orderly : Orderly hdr) : mu_header_fill hdr = (none, hdr) := by
  unfold mu_header_fill
  rw [orderly.streammod, orderly.fill]
  cases hdr.mstream with
  | none => simp
  | some content => simp

theorem fields_lines (hdr : Hdr) : ((fields hdr).map line).flatten = lines hdr.spool hdr.list := by
  rw [fields, List.map_map]
  rfl

theorem header_read_piece (orderly : Orderly hdr) {off : Nat} (within : off ≤ (text (fields hdr)).length) (buflen : Nat) :
    ∃ data rest, header_read ⟨hdr, off⟩ buflen = (.ok data, ⟨hdr, off + data.length⟩) ∧
      (text (fields hdr)).drop off = data ++ rest ∧ (0 < buflen → data = [] → rest = []) := by
  unfold header_read
  rw [orderly.filled]
  unfold text at *
  rw [fields_lines] at *
  dsimp only
  by_cases empty : hdr.spool_size = 0
  · -- a header that never had a field: only the empty line
    have none_stored : hdr.list = [] := by
      by_contra some_entry
      obtain ⟨ent, rest, list⟩ := List.exists_cons_of_ne_nil some_entry
      obtain ⟨before, after, spool, -⟩ := orderly.stored ent (by rw [list]; exact List.mem_cons_self)
      have := congrArg List.length spool
      have := orderly.spool
      simp at *
      omega
    rw [if_pos empty, none_stored] at *
    by_cases first : off = 0 ∧ buflen > 0
    · obtain ⟨rfl, more⟩ := first
      rw [if_pos ⟨rfl, more⟩]
      exact ⟨[LF], [], rfl, rfl, fun _ h => by cases h⟩
    · rw [if_neg first]
      refine ⟨[], _, rfl, rfl, fun more _ => ?_⟩
      have : 0 < off := by omega
      rw [List.drop_eq_nil_iff]
      exact this
  rw [if_neg empty]
  have some_entry : hdr.list ≠ [] := fun none_stored => empty (orderly.shown none_stored)
  obtain ⟨found, absent⟩ := find_pos_lines off hdr.list 0 orderly.stored (Nat.zero_le _)
  rw [Nat.zero_add, Nat.sub_zero] at *
  by_cases inside : off < (lines hdr.spool hdr.list).length
  · obtain ⟨ents, ent_off, result, stored, offset, same⟩ := found inside
    have place : mu_hdrent_find_stream_pos hdr off = some (ents, ent_off) := by
      unfold mu_hdrent_find_stream_pos
      rw [result]
    rw [place]
    dsimp only
    rw [read_loop_lines ents ent_off buflen stored offset, same]
    refine ⟨_, ((lines hdr.spool hdr.list).drop off).drop buflen ++ [LF], rfl, ?_, fun more none_read => ?_⟩
    · rw [List.drop_append_of_le_length (Nat.le_of_lt inside), ← List.append_assoc, List.take_append_drop]
    · rw [List.take_eq_nil_iff, List.drop_eq_nil_iff] at none_read
      omega
  · have nowhere := absent (Nat.not_lt.mp inside)
    by_cases last : off = (lines hdr.spool hdr.list).length
    · -- the newline of the last entry once more
      have member := List.getLast_mem some_entry
      have stored := orderly.stored _ member
      have place : mu_hdrent_find_stream_pos hdr off =
          some ([hdr.list.getLast some_entry], (hdr.list.getLast some_entry).strsize - 1) := by
        unfold mu_hdrent_find_stream_pos
        rw [nowhere]
        dsimp only
        rw [if_pos last.symm, List.getLast?_eq_some_getLast some_entry]
        rfl
      have newline : (lines hdr.spool [hdr.list.getLast some_entry]).drop
          ((hdr.list.getLast some_entry).strsize - 1) = [LF] := by
        rw [stored.strsize, lines_cons]
        simp [line, lines]
      rw [place]
      dsimp only
      rw [read_loop_lines _ _ buflen (by simpa [AllStored] using stored) (by simp), newline]
      refine ⟨_, [LF].drop buflen, rfl, ?_, fun more none_read => ?_⟩
      · rw [last, List.drop_left, List.take_append_drop]
      · rw [List.take_eq_nil_iff] at none_read
        rcases none_read with zero | h
        · omega
        · cases h
    · have place : mu_hdrent_find_stream_pos hdr off = none := by
        unfold mu_hdrent_find_stream_pos
        rw [nowhere]
        exact if_neg fun h => last h.symm
      rw [place]
      refine ⟨[], _, rfl, rfl, fun _ _ => ?_⟩
      rw [List.drop_eq_nil_iff, List.length_append, List.length_singleton]
      omega

/-- Some reads of a stream: what they return, and the stream after them. -/
def reads : List Nat → HeaderStream → List (Except Errno (List UInt8)) × HeaderStream
  | [], str => ([], str)
  | buflen :: sizes, str =>
    ((header_read str buflen).1 :: (reads sizes (header_read str buflen).2).1, (reads sizes (header_read str buflen).2).2)

/-- Reads with any buffers return pieces of the text, and nothing only at its end. -/
def Yields (str : HeaderStream) (text : List UInt8) : Prop :=
  ∀ sizes, ∃ (pieces : List (List UInt8)) (rest : List UInt8), (reads sizes str).1 = pieces.map .ok ∧
    text = pieces.flatten ++ rest ∧
    ∀ buflen > 0, (header_read (reads sizes str).2 buflen).1 = .ok [] ↔ rest = []

theorem Orderly.yields (orderly : Orderly hdr) : Yields ⟨hdr, 0⟩ (text (fields hdr)) := by
  have from_place : ∀ sizes off, off ≤ (text (fields hdr)).length → ∃ (pieces : List (List UInt8)) (rest : List UInt8),
      (reads sizes ⟨hdr, off⟩).1 = pieces.map .ok ∧ (text (fields hdr)).drop off = pieces.flatten ++ rest ∧
      ∀ buflen > 0, (header_read (reads sizes ⟨hdr, off⟩).2 buflen).1 = .ok [] ↔ rest = [] := by
    intro sizes
    induction sizes with
    | nil =>
      intro off within
      refine ⟨[], _, rfl, rfl, fun buflen more => ?_⟩
      obtain ⟨data, rest, read, piece, ended⟩ := header_read_piece orderly within buflen
      rw [reads, read, piece]
      constructor
      · intro nothing
        obtain rfl : data = [] := Except.ok.inj nothing
        exact ended more rfl
      · intro nothing
        exact congrArg Except.ok (List.append_eq_nil_iff.mp nothing).1
    | cons n sizes ih =>
      intro off within
      obtain ⟨data, rest, read, piece, -⟩ := header_read_piece orderly within n
      have length := congrArg List.length piece
      rw [List.length_drop, List.length_append] at length
      obtain ⟨pieces, rest', results, parts, ended⟩ := ih (off + data.length) (by omega)
      rw [reads, read]
      refine ⟨data :: pieces, rest', congrArg _ results, ?_, ended⟩
      rw [← List.drop_drop, piece, List.drop_left] at parts
      rw [piece, parts, List.flatten_cons, List.append_assoc]
  exact fun sizes => from_place sizes 0 (Nat.zero_le _)

/-- The answers of a header are those of its fields, and its stream has their text. -/
structure Shows (hdr : Hdr) : Prop where
  count : (mu_header_get_field_count hdr).1 = .ok (fields hdr).length
  size : (mu_header_size hdr).1 = .ok (text (fields hdr)).length
  lines : (mu_header_lines hdr).1 = .ok (lineCount (fields hdr))
  stream : Yields ⟨hdr, 0⟩ (text (fields hdr))

theorem Orderly.count (orderly : Orderly hdr) : Counted (mu_hdrent_count hdr) := by
  unfold mu_hdrent_count
  split
  next => exact ⟨rfl, rfl, rfl⟩
  next valid => exact orderly.numbers ((Bool.not_eq_true _).mp valid)

theorem count_list (hdr : Hdr) : (mu_hdrent_count hdr).list = hdr.list := by
  unfold mu_hdrent_count
  split
  · rfl
  · rfl

theorem Orderly.shows (orderly : Orderly hdr) : Shows hdr := by
  obtain ⟨numhdr, numlines, size⟩ := orderly.count
  rw [count_list] at *
  have answer : ∀ ask, (counted ask hdr).1 = .ok (ask (mu_hdrent_count hdr)) := by
    intro ask
    unfold counted
    rw [orderly.filled]
  refine ⟨?_, ?_, ?_, orderly.yields⟩
  · rw [mu_header_get_field_count, answer, numhdr, fields, List.length_map]
  · rw [mu_header_size, answer, size, text, fields_lines, List.length_append, lines_length orderly.stored]
    rfl
  · rw [mu_header_lines, answer, numlines, lineCount, fields, List.map_map]
    congr 3
    exact List.map_congr_left fun ent member => (orderly.stored ent member).nlines
end

/-- A call of a function that changes a header, or asks it something. -/
inductive Op
  | set_value (fn fv : Option CString) (replace : Bool)
  | append (fn fv : Option CString)
  | prepend (fn fv : Option CString)
  | insert (fn fv ref : Option CString) (n : Int) (before replace : Bool)
  | remove (fn : Option CString) (n : Int)
  | get_field_count
  | size
  | lines

def step (hdr : Hdr) : Op → Hdr
  | .set_value fn fv replace => (mu_header_set_value hdr fn fv replace).2
  | .append fn fv => (mu_header_append hdr fn fv).2
  | .prepend fn fv => (mu_header_prepend hdr fn fv).2
  | .insert fn fv ref n before replace => (mu_header_insert hdr fn fv ref n before replace).2
  | .remove fn n => (mu_header_remove hdr fn n).2
  | .get_field_count => (mu_header_get_field_count hdr).2
  | .size => (mu_header_size hdr).2
  | .lines => (mu_header_lines hdr).2

def run (hdr : Hdr) (ops : List Op) : Hdr := ops.foldl step hdr

/-- A call that deletes no field with `mu_header_set_value`, inserts none next to another,
    and does not leave a header empty that has, or then had, a spool. -/
def Careful (hdr : Hdr) : Op → Prop
  | .set_value (some fn) none true => mu_hdrent_find hdr (some fn) 1 = none
  | .insert (some _) (some _) (some ref) n _ false => mu_hdrent_find hdr (some ref) n = none ∧ hdr.list ≠ []
  | .insert (some fn) (some _) ref n _ true => mu_hdrent_find hdr (some (ref.getD fn)) n = none → hdr.list ≠ []
  | .remove fn n => mu_hdrent_find hdr fn n ≠ none → hdr.list.length ≠ 1
  | _ => True

def CarefulRun : Hdr → List Op → Prop
  | _, [] => True
  | hdr, op :: ops => Careful hdr op ∧ CarefulRun (step hdr op) ops

section
variable {hdr hdr' : Hdr}

theorem nth_match_lt {p : Ent → Bool} {ents : List Ent} : ∀ {n i : Nat}, nth_match p ents n = some i → i < ents.length := by
  induction ents with
  | nil => exact fun found => by cases found
  | cons ent ents ih =>
    intro n i found
    have later : ∀ {k}, (nth_match p ents k).map (· + 1) = some i → i < (ent :: ents).length := by
      intro k found
      obtain ⟨j, earlier, rfl⟩ := Option.map_eq_some_iff.mp found
      exact Nat.succ_lt_succ (ih earlier)
    rw [nth_match] at found
    split at found
    next =>
      split at found
      next =>
        cases found
        exact Nat.zero_lt_succ _
      next => exact later found
    next => exact later found

theorem mu_hdrent_find_lt {name : Option CString} {pos : Int} {i : Nat} (found : mu_hdrent_find hdr name pos = some i) :
    i < hdr.list.length := by
  unfold mu_hdrent_find at found
  split at found
  next => exact nth_match_lt found
  next =>
    split at found
    next =>
      obtain ⟨j, from_end, rfl⟩ := Option.map_eq_some_iff.mp found
      have := nth_match_lt from_end
      rw [List.length_reverse] at this
      omega
    next => cases found

theorem AllStored.append {spool : List UInt8} {ents : List Ent} (stored : AllStored spool ents) (more : List UInt8) :
    AllStored (spool ++ more) ents ∧ ents.map (field (spool ++ more)) = ents.map (field spool) := by
  have same : ∀ ent ∈ ents, field (spool ++ more) ent = field spool ent :=
    fun ent member => ((stored ent member).append more).field
  refine ⟨fun ent member => ?_, List.map_congr_left same⟩
  rw [same ent member]
  exact (stored ent member).append more

theorem create_stored (orderly : Orderly hdr) (name value : List UInt8) :
    Stored (mu_hdrent_create hdr name value).2.spool (mu_hdrent_create hdr name value).1 (name, value) ∧
      AllStored (mu_hdrent_create hdr name value).2.spool hdr.list ∧
      hdr.list.map (field (mu_hdrent_create hdr name value).2.spool) = fields hdr ∧
      (mu_hdrent_create hdr name value).2.spool.length ≤ (mu_hdrent_create hdr name value).2.spool_size := by
  refine ⟨⟨hdr.spool, [], (List.append_nil _).symm, rfl⟩, ?_, ?_, ?_⟩
  · exact (orderly.stored.append _).1
  · exact (orderly.stored.append _).2
  · have before := orderly.spool
    have length : (mu_hdrent_create hdr name value).2.spool.length =
        hdr.spool.length + MU_STR_SIZE name.length value.length := by
      simp [mu_hdrent_create, MU_STR_SIZE]
      omega
    rw [length]
    show _ ≤ if hdr.spool_size - hdr.spool.length < MU_STR_SIZE name.length value.length then _ else _
    generalize MU_STR_SIZE name.length value.length = strsize
    unfold SPOOLBLKSIZ
    split <;> omega

theorem Orderly.changed (orderly : Orderly hdr) (name value : List UInt8) {list : List Ent} (nonempty : list ≠ [])
    (members : ∀ ent ∈ list, ent = (mu_hdrent_create hdr name value).1 ∨ ent ∈ hdr.list) :
    Orderly (HEADER_SET_MODIFIED { (mu_hdrent_create hdr name value).2 with list := list }) := by
  obtain ⟨new, old, -, room⟩ := create_stored orderly name value
  refine
    { stored := fun ent member => ?_
      spool := room
      numbers := fun valid => by cases valid
      streammod := orderly.streammod
      fill := orderly.fill
      shown := fun empty => absurd empty nonempty }
  rcases members ent member with rfl | before
  · exact new.field.symm ▸ new
  · exact old ent before

theorem Orderly.forgotten (orderly : Orderly hdr) (name value : List UInt8) (nonempty : hdr.list ≠ []) :
    Orderly (mu_hdrent_create hdr name value).2 ∧ fields (mu_hdrent_create hdr name value).2 = fields hdr := by
  obtain ⟨-, old, same, room⟩ := create_stored orderly name value
  refine ⟨?_, same⟩
  exact
    { stored := old
      spool := room
      numbers := fun valid => ⟨(orderly.numbers valid).1, (orderly.numbers valid).2, (orderly.numbers valid).3⟩
      streammod := orderly.streammod
      fill := orderly.fill
      shown := fun empty => absurd empty nonempty }

theorem find_create (all : AllStored hdr.spool hdr.list) (name value : List UInt8) (ref : Option CString) (pos : Int) :
    mu_hdrent_find (mu_hdrent_create hdr name value).2 ref pos = mu_hdrent_find hdr ref pos := by
  have names : ∀ ent ∈ hdr.list, MU_HDRENT_NAME (mu_hdrent_create hdr name value).2 ent = MU_HDRENT_NAME hdr ent := by
    intro ent member
    have stored := all ent member
    exact (stored.append _).name.trans stored.name.symm
  have same : ∀ ents, (∀ ent ∈ ents, ent ∈ hdr.list) → ∀ n,
      nth_match (fun ent => ref.all fun ref =>
        mu_c_strcasecmp (MU_HDRENT_NAME (mu_hdrent_create hdr name value).2 ent) ref.1 = 0) ents n =
      nth_match (fun ent => ref.all fun ref => mu_c_strcasecmp (MU_HDRENT_NAME hdr ent) ref.1 = 0) ents n := by
    intro ents
    induction ents with
    | nil => exact fun _ _ => rfl
    | cons ent ents ih =>
      intro members n
      have later := ih fun e member => members e (List.mem_cons_of_mem ent member)
      simp only [nth_match, names ent (members ent List.mem_cons_self), later]
  unfold mu_hdrent_find
  dsimp only
  rw [show (mu_hdrent_create hdr name value).2.list = hdr.list from rfl, same _ fun _ => id,
    same _ fun ent member => List.mem_reverse.mp member]

/-- A call leaves the header in good order, and a change of its fields is noted. -/
structure Kept (hdr hdr' : Hdr) : Prop where
  orderly : Orderly hdr'
  noted : hdr.modified = true ∨ fields hdr' ≠ fields hdr → hdr'.modified = true

theorem Kept.refl (orderly : Orderly hdr) : Kept hdr hdr := ⟨orderly, fun noted => noted.resolve_right (absurd rfl)⟩

theorem Kept.changed (orderly : Orderly hdr') (modified : hdr'.modified = true) : Kept hdr hdr' :=
  ⟨orderly, fun _ => modified⟩

theorem step_append (orderly : Orderly hdr) (fn fv : Option CString) : Kept hdr (mu_header_append hdr fn fv).2 := by
  unfold mu_header_append
  cases fn with
  | none => exact .refl orderly
  | some fn =>
    cases fv with
    | none => exact .refl orderly
    | some fv =>
      dsimp only
      rw [orderly.filled]
      refine .changed (orderly.changed fn.1 fv.1 (by simp) fun ent member => ?_) rfl
      exact (List.mem_append.mp member).symm.imp List.mem_singleton.mp id

theorem step_prepend (orderly : Orderly hdr) (fn fv : Option CString) : Kept hdr (mu_header_prepend hdr fn fv).2 := by
  unfold mu_header_prepend
  cases fn with
  | none => exact .refl orderly
  | some fn =>
    cases fv with
    | none => exact .refl orderly
    | some fv =>
      dsimp only
      rw [orderly.filled]
      exact .changed (orderly.changed fn.1 fv.1 (List.cons_ne_nil _ _) fun ent member => List.mem_cons.mp member) rfl

theorem Orderly.replaced (orderly : Orderly hdr) (name value : List UInt8) {i : Nat} (inside : i < hdr.list.length) :
    Kept hdr (HEADER_SET_MODIFIED { (mu_hdrent_create hdr name value).2 with
      list := (mu_hdrent_create hdr name value).2.list.set i (mu_hdrent_create hdr name value).1 }) := by
  refine .changed (orderly.changed name value ?_ fun ent member => ?_) rfl
  · rw [← List.length_pos_iff, List.length_set]
    exact Nat.lt_of_le_of_lt (Nat.zero_le i) inside
  · exact (List.mem_or_eq_of_mem_set member).symm

theorem step_set_value (orderly : Orderly hdr) (fn fv : Option CString) (replace : Bool)
    (careful : Careful hdr (.set_value fn fv replace)) : Kept hdr (mu_header_set_value hdr fn fv replace).2 := by
  unfold mu_header_set_value
  cases fn with
  | none => exact .refl orderly
  | some fn =>
    dsimp only
    rw [orderly.filled]
    dsimp only
    split
    next => exact .refl orderly
    next known =>
      cases found : mu_hdrent_find hdr (some fn) 1 with
      | none =>
        cases fv with
        | none => exact .refl orderly
        | some fv =>
          refine .changed (orderly.changed fn.1 fv.1 (by simp) fun ent member => ?_) rfl
          exact (List.mem_append.mp member).symm.imp List.mem_singleton.mp id
      | some i =>
        cases fv with
        | none =>
          obtain rfl : replace = true := by simpa using known
          have absent : mu_hdrent_find hdr (some fn) 1 = none := careful
          rw [found] at absent
          cases absent
        | some fv =>
          dsimp only
          split
          next => exact orderly.replaced fn.1 fv.1 (mu_hdrent_find_lt found)
          next => exact .refl orderly

theorem step_insert (orderly : Orderly hdr) (fn fv ref : Option CString) (n : Int) (before replace : Bool)
    (careful : Careful hdr (.insert fn fv ref n before replace)) :
    Kept hdr (mu_header_insert hdr fn fv ref n before replace).2 := by
  unfold mu_header_insert
  cases fn with
  | none => exact .refl orderly
  | some fn =>
    cases fv with
    | none => exact .refl orderly
    | some fv =>
      dsimp only
      rw [orderly.filled]
      dsimp only
      cases replace with
      | true =>
        have nonempty : mu_hdrent_find hdr (some (ref.getD fn)) n = none → hdr.list ≠ [] := by
          cases ref <;> exact careful
        rw [if_pos rfl]
        cases found : mu_hdrent_find hdr (some (ref.getD fn)) n with
        | none =>
          exact .changed (orderly.changed fn.1 fv.1 (nonempty found) fun ent member => .inr member) rfl
        | some i => exact orderly.replaced fn.1 fv.1 (mu_hdrent_find_lt found)
      | false =>
        rw [if_neg Bool.false_ne_true]
        cases ref with
        | none =>
          exact .changed (orderly.changed fn.1 fv.1 (List.cons_ne_nil _ _) fun ent member => List.mem_cons.mp member) rfl
        | some ref =>
          obtain ⟨absent, nonempty⟩ := careful
          obtain ⟨orderly', same⟩ := orderly.forgotten fn.1 fv.1 nonempty
          dsimp only
          unfold mu_hdrent_insert
          rw [find_create orderly.stored, absent]
          exact ⟨orderly', fun noted => noted.resolve_right (absurd same)⟩

theorem step_remove (orderly : Orderly hdr) (fn : Option CString) (n : Int) (careful : Careful hdr (.remove fn n)) :
    Kept hdr (mu_header_remove hdr fn n).2 := by
  unfold mu_header_remove
  rw [orderly.filled]
  dsimp only
  cases found : mu_hdrent_find hdr fn n with
  | none => exact .refl orderly
  | some i =>
    have inside := mu_hdrent_find_lt found
    have several : hdr.list.length ≠ 1 := careful (by rw [found]; exact Option.some_ne_none i)
    refine .changed ?_ rfl
    exact
      { stored := fun ent member => orderly.stored ent (List.mem_of_mem_eraseIdx member)
        spool := orderly.spool
        numbers := fun valid => by cases valid
        streammod := orderly.streammod
        fill := orderly.fill
        shown := fun empty => by
          have := congrArg List.length empty
          change (hdr.list.eraseIdx i).length = 0 at this
          rw [List.length_eraseIdx_of_lt inside] at this
          omega }

theorem step_counted (orderly : Orderly hdr) (answer : Hdr → Nat) : Kept hdr (counted answer hdr).2 := by
  unfold counted
  rw [orderly.filled]
  show Kept hdr (mu_hdrent_count hdr)
  unfold mu_hdrent_count
  split
  next =>
    exact ⟨{ orderly with numbers := fun _ => ⟨rfl, rfl, rfl⟩ }, fun noted => noted.resolve_right (absurd rfl)⟩
  next => exact .refl orderly

theorem step_kept (orderly : Orderly hdr) (op : Op) (careful : Careful hdr op) : Kept hdr (step hdr op) := by
  cases op with
  | set_value fn fv replace => exact step_set_value orderly fn fv replace careful
  | append fn fv => exact step_append orderly fn fv
  | prepend fn fv => exact step_prepend orderly fn fv
  | insert fn fv ref n before replace => exact step_insert orderly fn fv ref n before replace careful
  | remove fn n => exact step_remove orderly fn n careful
  | get_field_count => exact step_counted orderly _
  | size => exact step_counted orderly _
  | lines => exact step_counted orderly _

theorem run_kept (ops : List Op) : ∀ {hdr : Hdr}, Orderly hdr → CarefulRun hdr ops → Orderly (run hdr ops) ∧
    (hdr.modified = true → (run hdr ops).modified = true) ∧
    ∀ before op after, ops = before ++ op :: after → fields (run hdr before) ≠ fields (run hdr (before ++ [op])) →
      (run hdr ops).modified = true := by
  induction ops with
  | nil =>
    refine fun orderly _ => ⟨orderly, id, fun before op after parts => ?_⟩
    simp at parts
  | cons op ops ih =>
    intro hdr orderly careful
    have kept := step_kept orderly op careful.1
    obtain ⟨orderly', lasting, noted⟩ := ih kept.orderly careful.2
    refine ⟨orderly', fun modified => lasting (kept.noted (.inl modified)), fun before op' after parts different => ?_⟩
    cases before with
    | nil =>
      obtain ⟨rfl, rfl⟩ : op = op' ∧ ops = after := by simpa using parts
      exact lasting (kept.noted (.inr fun same => different same.symm))
    | cons first before =>
      obtain ⟨rfl, rest⟩ : op = first ∧ ops = before ++ op' :: after := by simpa using parts
      exact noted before op' after rest different

theorem parse_loop_orderly (fuel : Nat) : ∀ (text : List UInt8) {hdr : Hdr}, Orderly hdr → hdr.invalidate = true →
    Orderly (parse_loop fuel text hdr) := by
  induction fuel with
  | zero => exact fun text hdr orderly _ => orderly
  | succ fuel ih =>
    intro text hdr orderly invalid
    rw [parse_loop]
    split
    next => exact orderly
    next =>
      split
      next => exact orderly
      next name value _ =>
        have changed : Orderly (HEADER_SET_MODIFIED { (mu_hdrent_create hdr name value).2 with
            list := hdr.list ++ [(mu_hdrent_create hdr name value).1] }) :=
          orderly.changed name value (by simp) fun ent member =>
            (List.mem_append.mp member).symm.imp List.mem_singleton.mp id
        exact ih _ { changed with numbers := fun valid => by rw [invalid] at valid; cases valid } invalid

theorem create_orderly (blurb : Option (List UInt8)) : Orderly (mu_header_create blurb) := by
  have empty : ∀ invalidate, Orderly ({ invalidate := invalidate } : Hdr) := fun _ =>
    { stored := fun ent member => by cases member
      spool := Nat.le_refl _
      numbers := fun _ => ⟨rfl, rfl, rfl⟩
      streammod := rfl
      fill := rfl
      shown := fun _ => rfl }
  cases blurb with
  | none => exact empty false
  | some blurb => exact parse_loop_orderly blurb.length blurb (empty true) rfl

/-- In every run of careful calls on a parsed header, the header shows its fields, and it is
    marked as modified if any call has changed them. -/
theorem header_shows_fields (blurb : Option (List UInt8)) (ops : List Op)
    (careful : CarefulRun (mu_header_create blurb) ops) :
    Shows (run (mu_header_create blurb) ops) ∧
      ∀ before op after, ops = before ++ op :: after →
        fields (run (mu_header_create blurb) before) ≠ fields (run (mu_header_create blurb) (before ++ [op])) →
        mu_header_is_modified (run (mu_header_create blurb) ops) = true := by
  obtain ⟨orderly, -, noted⟩ := run_kept ops (create_orderly blurb) careful
  exact ⟨orderly.shows, noted⟩
end

/-- Two fields, of which the first is removed after another was put before it. -/
theorem header_shows_fields_two :
    let a : CString := ⟨ascii "A", by decide⟩
    let ops : List Op := [.prepend (some a) (some a), .size, .remove (some a) (-1)]
    CarefulRun (mu_header_create (some (ascii "A: b\nC: d\n\n"))) ops ∧
      Shows (run (mu_header_create (some (ascii "A: b\nC: d\n\n"))) ops) := by
  intro a ops
  have careful : CarefulRun (mu_header_create (some (ascii "A: b\nC: d\n\n"))) ops :=
    ⟨trivial, trivial, fun _ => by decide, trivial⟩
  exact ⟨careful, (header_shows_fields (some (ascii "A: b\nC: d\n\n")) ops careful).1⟩

/-- A field is deleted, and one is inserted, without it being noted: the number of fields is
    that of before. And when its only field is removed, a header has one byte and shows none. -/
theorem header_forgets_changes :
    let a : CString := ⟨ascii "A", by decide⟩
    let hdr := mu_header_create (some (ascii "A: b\n\n"))
    let deleted := run hdr [.get_field_count, .set_value (some a) none true]
    let inserted := run hdr [.get_field_count, .insert (some a) (some a) (some a) 1 false false]
    let removed := run hdr [.remove (some a) 1]
    fields deleted = [] ∧ (mu_header_get_field_count deleted).1 = .ok 1 ∧ mu_header_is_modified deleted = false ∧
      fields inserted = [(ascii "A", ascii "b"), (ascii "A", ascii "A")] ∧
      (mu_header_get_field_count inserted).1 = .ok 1 ∧ mu_header_is_modified inserted = false ∧
      fields removed = [] ∧ (mu_header_size removed).1 = .ok 1 ∧ (header_read ⟨removed, 0⟩ 9).1 = .ok [] := by
  exact ⟨rfl, rfl, rfl, rfl, rfl, rfl, rfl, rfl, rfl⟩
end Mailutils.Header

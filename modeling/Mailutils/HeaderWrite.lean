import Mailutils.HeaderText

/-!
Writing to the stream of a header. What is written goes into a copy of the spool, and the
copy is parsed when the header is looked at again. The spool has the fields in the order in
which they were created, also those that were replaced or removed since. So the copy is the
text of the header only if every new field was put behind the others and none was ever taken
away. The copy that is parsed is not terminated, and blanks are skipped without looking where it
begins and ends (`header_write_edits`).
-/
namespace Mailutils.Header
open Mailutils.Filter Mailutils.Stream

/-- The fields of a text, in at most so many rounds. -/
def parseFields : Nat → List UInt8 → List (List UInt8 × List UInt8)
  | 0, _ => []
  | fuel + 1, text =>
    if text = [] ∨ text.head?.any fun c => ISLWSP c ∨ c = LF then []
    else
      match split_field (take_field text).1 with
      | none => []
      | some f => f :: parseFields fuel (take_field text).2

private theorem parse_loop_fields (fuel : Nat) : ∀ (text : List UInt8) {hdr : Hdr}, AllStored hdr.spool hdr.list →
    fields (parse_loop fuel text hdr) = fields hdr ++ parseFields fuel text := by
  induction fuel with
  | zero => exact fun text hdr _ => (List.append_nil _).symm
  | succ fuel ih =>
    intro text hdr stored
    rw [parse_loop, parseFields]
    split
    next => exact (List.append_nil _).symm
    next =>
      cases split_field (take_field text).1 with
      | none => exact (List.append_nil _).symm
      | some f =>
        obtain ⟨name, value⟩ := f
        obtain ⟨old, same⟩ := stored.append (name ++ [0, SP] ++ value ++ [0])
        have new : Stored (mu_hdrent_create hdr name value).2.spool (mu_hdrent_create hdr name value).1 (name, value) :=
          ⟨hdr.spool, [], (List.append_nil _).symm, rfl⟩
        have all : AllStored (mu_hdrent_create hdr name value).2.spool
            (hdr.list ++ [(mu_hdrent_create hdr name value).1]) := by
          intro ent member
          rcases List.mem_append.mp member with before | last
          · exact old ent before
          · obtain rfl := List.mem_singleton.mp last
            exact new.field.symm ▸ new
        dsimp only
        rw [ih _ all, fields, List.map_append, List.map_singleton, new.field, List.append_assoc]
        exact congrArg (· ++ _) same

theorem header_parse_fields (hdr : Hdr) (blurb : List UInt8) :
    fields (header_parse hdr blurb) = parseFields blurb.length blurb := by
  unfold header_parse
  rw [parse_loop_fields _ _ fun ent member => by cases member]
  rfl

theorem take_field_shorter : ∀ {text : List UInt8}, text ≠ [] → (take_field text).2.length < text.length
  | [], nonempty => absurd rfl nonempty
  | c :: rest, _ => by
    rw [take_field]
    split
    next => exact Nat.lt_succ_self _
    next =>
      by_cases more : rest = []
      · subst more
        exact Nat.zero_lt_succ _
      · exact Nat.lt_succ_of_lt (take_field_shorter more)

private theorem take_field_newline (text : List UInt8) :
    (take_field (text ++ [LF])).1 = (take_field text).1 ∧
      ((take_field (text ++ [LF])).2 = (take_field text).2 ++ [LF] ∨
        (take_field (text ++ [LF])).2 = [] ∧ (take_field text).2 = []) := by
  induction text with
  | nil => exact ⟨rfl, .inr ⟨rfl, rfl⟩⟩
  | cons c rest ih =>
    have head : (rest ++ [LF]).head?.any ISLWSP = rest.head?.any ISLWSP := by
      cases rest with
      | nil => rfl
      | cons _ _ => rfl
    rw [List.cons_append, take_field, take_field, head]
    split
    next => exact ⟨rfl, .inl rfl⟩
    next => exact ⟨congrArg (c :: ·) ih.1, ih.2⟩

theorem parseFields_newline (fuel : Nat) : ∀ (fuel' : Nat) (text : List UInt8), text.length < fuel →
    text.length ≤ fuel' → parseFields fuel (text ++ [LF]) = parseFields fuel' text := by
  induction fuel with
  | zero => exact fun _ _ no_fuel => absurd no_fuel (Nat.not_lt_zero _)
  | succ fuel ih =>
    intro fuel' text enough enough'
    cases text with
    | nil =>
      cases fuel' with
      | zero => rfl
      | succ fuel' => rfl
    | cons c rest =>
      obtain ⟨fuel', rfl⟩ : ∃ k, fuel' = k + 1 := ⟨fuel' - 1, by simp at enough'; omega⟩
      have shorter := take_field_shorter (List.cons_ne_nil c rest)
      obtain ⟨first, later⟩ := take_field_newline (c :: rest)
      -- what is left after the field, with the newline and without it
      have same : parseFields fuel (take_field (c :: rest ++ [LF])).2 = parseFields fuel' (take_field (c :: rest)).2 := by
        rcases later with more | ⟨none_left, none_left'⟩
        · rw [more]
          exact ih fuel' _ (by omega) (by omega)
        · rw [none_left, none_left']
          cases fuel <;> cases fuel' <;> rfl
      have head : (c :: rest ++ [LF]).head? = (c :: rest).head? := rfl
      have nonempty : ¬c :: rest ++ [LF] = [] := List.cons_ne_nil _ _
      have nonempty' : ¬c :: rest = [] := List.cons_ne_nil _ _
      rw [parseFields, parseFields, first, same, head]
      simp only [nonempty, nonempty', false_or]

/-- A field in the spool. -/
def raw (f : List UInt8 × List UInt8) : List UInt8 := f.1 ++ [0, SP] ++ f.2 ++ [0]

/-- The entries of fields that follow each other in the spool. -/
def entries : Nat → List (List UInt8 × List UInt8) → List Ent
  | _, [] => []
  | pos, f :: fs =>
    ⟨pos, f.1.length, pos + f.1.length + 2, f.2.length, 1 + f.2.count LF⟩ :: entries (pos + (raw f).length) fs

/-- The spool has the fields of the list, one behind the other, and nothing else, and there
    is no other text. -/
structure Packed (hdr : Hdr) (fs : List (List UInt8 × List UInt8)) : Prop where
  spool : hdr.spool = (fs.map raw).flatten
  list : hdr.list = entries 0 fs
  mstream : hdr.mstream = none
  streammod : hdr.streammod = false
  fill : hdr._fill = none

theorem entries_append (fs : List (List UInt8 × List UInt8)) (f : List UInt8 × List UInt8) : ∀ pos,
    entries pos (fs ++ [f]) = entries pos fs ++ entries (pos + (fs.map raw).flatten.length) [f] := by
  induction fs with
  | nil => exact fun _ => rfl
  | cons g fs ih =>
    intro pos
    rw [List.cons_append, entries, ih, List.map_cons, List.flatten_cons, List.length_append, ← Nat.add_assoc pos]
    rfl

theorem entries_stored (fs : List (List UInt8 × List UInt8)) : ∀ before after : List UInt8,
    AllStored (before ++ (fs.map raw).flatten ++ after) (entries before.length fs) ∧
      (entries before.length fs).map (field (before ++ (fs.map raw).flatten ++ after)) = fs := by
  induction fs with
  | nil => exact fun _ _ => ⟨fun _ member => absurd member List.not_mem_nil, rfl⟩
  | cons f fs ih =>
    intro before after
    have shape : before ++ ((f :: fs).map raw).flatten ++ after = (before ++ raw f) ++ (fs.map raw).flatten ++ after := by
      simp
    have first : Stored (before ++ ((f :: fs).map raw).flatten ++ after)
        ⟨before.length, f.1.length, before.length + f.1.length + 2, f.2.length, 1 + f.2.count LF⟩ f :=
      ⟨before, (fs.map raw).flatten ++ after, by simp [raw], rfl⟩
    obtain ⟨stored, later⟩ := ih (before ++ raw f) after
    rw [← shape, List.length_append] at stored later
    refine ⟨fun ent member => ?_, ?_⟩
    · rcases List.mem_cons.mp member with rfl | member
      · exact first.field.symm ▸ first
      · exact stored ent member
    · rw [entries, List.map_cons, first.field, later]

theorem fixup_entries (fs : List (List UInt8 × List UInt8)) : ∀ before : List UInt8,
    (entries before.length fs).foldl mu_hdrent_fixup (before ++ (fs.map raw).flatten) =
      before ++ (fs.map line).flatten := by
  induction fs with
  | nil => exact fun _ => rfl
  | cons f fs ih =>
    intro before
    have shape : before ++ ((f :: fs).map raw).flatten =
        before ++ (f.1 ++ [0, SP] ++ f.2 ++ [0]) ++ (fs.map raw).flatten := by
      simp [raw]
    have fixed : mu_hdrent_fixup (before ++ ((f :: fs).map raw).flatten)
        ⟨before.length, f.1.length, before.length + f.1.length + 2, f.2.length, 1 + f.2.count LF⟩ =
        before ++ line f ++ (fs.map raw).flatten := by
      rw [shape]
      refine (set_ends ..).trans ?_
      simp [line]
    have length : before.length + (raw f).length = (before ++ line f).length := by
      simp [raw, line]
    rw [entries, List.foldl_cons, fixed, length, ih (before ++ line f)]
    simp

theorem lines_length_raw (fs : List (List UInt8 × List UInt8)) :
    (fs.map line).flatten.length = (fs.map raw).flatten.length := by
  induction fs with
  | nil => rfl
  | cons f fs ih =>
    rw [List.map_cons, List.map_cons, List.flatten_cons, List.flatten_cons, List.length_append, List.length_append, ih]
    simp [line, raw]

section
variable {hdr : Hdr} {fs : List (List UInt8 × List UInt8)}

theorem Packed.stored (packed : Packed hdr fs) : AllStored hdr.spool hdr.list ∧ fields hdr = fs := by
  have all := entries_stored fs [] []
  rw [List.nil_append, List.append_nil] at all
  rw [fields, packed.spool, packed.list]
  exact all

theorem Packed.filled (packed : Packed hdr fs) : mu_header_fill hdr = (none, hdr) := by
  unfold mu_header_fill
  rw [packed.mstream, packed.fill]
  dsimp only
  split <;> rfl

theorem Packed.materialize (packed : Packed hdr fs) : materialize hdr = (fs.map line).flatten := by
  have fixed := fixup_entries fs []
  have length := lines_length_raw fs
  rw [List.nil_append, List.nil_append] at fixed
  unfold Header.materialize
  rw [packed.mstream, packed.list, packed.spool]
  dsimp only
  split
  next =>
    change List.foldl mu_hdrent_fixup _ (entries 0 fs) = _ at fixed
    rw [fixed, ← length, File.put, File.truncate]
    simp only [Option.getD_none, List.takeD_zero, List.nil_append, List.drop_nil, List.append_nil]
    rw [List.takeD_eq_take _ (Nat.le_refl _), List.take_length]
  next empty =>
    rw [not_not] at empty
    rw [empty, List.length_nil, List.length_eq_zero_iff] at length
    rw [length]
    rfl

theorem Packed.appended (packed : Packed hdr fs) (name value : List UInt8) :
    Packed { (mu_hdrent_create hdr name value).2 with list := hdr.list ++ [(mu_hdrent_create hdr name value).1] }
      (fs ++ [(name, value)]) := by
  refine { packed with spool := ?_, list := ?_ }
  · change hdr.spool ++ raw (name, value) = _
    rw [packed.spool]
    simp
  · rw [entries_append, Nat.zero_add, ← packed.spool, packed.list]
    rfl

theorem Packed.noted (packed : Packed hdr fs) : Packed (HEADER_SET_MODIFIED hdr) fs := { packed with }

theorem Packed.first (packed : Packed hdr fs) (name value : List UInt8) (empty : hdr.list = []) :
    Packed (HEADER_SET_MODIFIED { (mu_hdrent_create hdr name value).2 with
      list := (mu_hdrent_create hdr name value).1 :: hdr.list }) (fs ++ [(name, value)]) := by
  have appended := (packed.appended name value).noted
  rw [empty] at appended ⊢
  exact appended

/-- A call that puts a new field behind the others, or changes nothing. -/
def AtEnd (hdr : Hdr) : Op → Prop
  | .set_value (some fn) _ true => mu_hdrent_find hdr (some fn) 1 = none
  | .prepend (some _) (some _) => hdr.list = []
  | .insert (some _) (some _) (some ref) n before false =>
    before = false ∧ mu_hdrent_find hdr (some ref) n = some (hdr.list.length - 1)
  | .insert (some _) (some _) none _ _ false => hdr.list = []
  | .insert (some _) (some _) _ _ _ true => False
  | .remove fn n => mu_hdrent_find hdr fn n = none
  | _ => True

def AtEndRun : Hdr → List Op → Prop
  | _, [] => True
  | hdr, op :: ops => AtEnd hdr op ∧ AtEndRun (step hdr op) ops

theorem Packed.set_value (packed : Packed hdr fs) (fn fv : Option CString) (replace : Bool)
    (atEnd : AtEnd hdr (.set_value fn fv replace)) : ∃ fs', Packed (mu_header_set_value hdr fn fv replace).2 fs' := by
  unfold mu_header_set_value
  rw [packed.filled]
  cases fn with
  | none => exact ⟨fs, packed⟩
  | some fn =>
    dsimp only
    split
    next => exact ⟨fs, packed⟩
    next kept =>
      cases found : mu_hdrent_find hdr (some fn) 1 with
      | none =>
        cases fv with
        | none => exact ⟨fs, packed⟩
        | some fv => exact ⟨_, (packed.appended fn.1 fv.1).noted⟩
      | some i =>
        cases replace with
        | true => rw [AtEnd, found] at atEnd; cases atEnd
        | false =>
          cases fv with
          | none => exact absurd ⟨rfl, rfl⟩ kept
          | some fv => exact ⟨fs, packed⟩

theorem Packed.append (packed : Packed hdr fs) (fn fv : Option CString) :
    ∃ fs', Packed (mu_header_append hdr fn fv).2 fs' := by
  unfold mu_header_append
  rw [packed.filled]
  split
  next fn fv => exact ⟨_, (packed.appended fn.1 fv.1).noted⟩
  next => exact ⟨fs, packed⟩

theorem Packed.prepend (packed : Packed hdr fs) (fn fv : Option CString) (atEnd : AtEnd hdr (.prepend fn fv)) :
    ∃ fs', Packed (mu_header_prepend hdr fn fv).2 fs' := by
  unfold mu_header_prepend
  rw [packed.filled]
  split
  next fn fv => exact ⟨_, packed.first fn.1 fv.1 atEnd⟩
  next => exact ⟨fs, packed⟩

theorem Packed.insert (packed : Packed hdr fs) (fn fv ref : Option CString) (n : Int) (before replace : Bool)
    (atEnd : AtEnd hdr (.insert fn fv ref n before replace)) :
    ∃ fs', Packed (mu_header_insert hdr fn fv ref n before replace).2 fs' := by
  unfold mu_header_insert
  rw [packed.filled]
  split
  next fn fv =>
    cases replace with
    | true => cases ref <;> exact atEnd.elim
    | false =>
      dsimp only
      rw [if_neg Bool.false_ne_true]
      cases ref with
      | none => exact ⟨_, packed.first fn.1 fv.1 atEnd⟩
      | some ref =>
        obtain ⟨rfl, last⟩ := atEnd
        have inside := mu_hdrent_find_lt last
        refine ⟨fs ++ [(fn.1, fv.1)], ?_⟩
        dsimp only
        unfold mu_hdrent_insert
        rw [find_create packed.stored.1, last]
        dsimp only
        rw [show (mu_hdrent_create hdr fn.1 fv.1).2.list = hdr.list from rfl, if_neg Bool.false_ne_true,
          Nat.sub_add_cancel (by omega), List.insertIdx_length_self]
        exact packed.appended fn.1 fv.1
  next => exact ⟨fs, packed⟩

theorem Packed.counted (packed : Packed hdr fs) (answer : Hdr → Nat) : Packed (counted answer hdr).2 fs := by
  unfold Header.counted
  rw [packed.filled]
  show Packed (mu_hdrent_count hdr) fs
  unfold mu_hdrent_count
  split
  next => exact { packed with }
  next => exact packed

theorem Packed.step (packed : Packed hdr fs) (op : Op) (atEnd : AtEnd hdr op) : ∃ fs', Packed (step hdr op) fs' := by
  cases op with
  | set_value fn fv replace => exact packed.set_value fn fv replace atEnd
  | append fn fv => exact packed.append fn fv
  | prepend fn fv => exact packed.prepend fn fv atEnd
  | insert fn fv ref n before replace => exact packed.insert fn fv ref n before replace atEnd
  | remove fn n =>
    refine ⟨fs, ?_⟩
    rw [Header.step, mu_header_remove, packed.filled]
    dsimp only
    rw [show mu_hdrent_find hdr fn n = none from atEnd]
    exact packed
  | get_field_count => exact ⟨fs, packed.counted _⟩
  | size => exact ⟨fs, packed.counted _⟩
  | lines => exact ⟨fs, packed.counted _⟩

theorem Packed.run (ops : List Op) : ∀ {hdr : Hdr} {fs : List (List UInt8 × List UInt8)}, Packed hdr fs →
    AtEndRun hdr ops → ∃ fs', Packed (run hdr ops) fs' := by
  induction ops with
  | nil => exact fun packed _ => ⟨_, packed⟩
  | cons op ops ih =>
    intro hdr fs packed atEnd
    obtain ⟨fs', packed'⟩ := packed.step op atEnd.1
    exact ih packed' atEnd.2
end

theorem parse_loop_packed (fuel : Nat) : ∀ (text : List UInt8) {hdr : Hdr} {fs : List (List UInt8 × List UInt8)},
    Packed hdr fs → ∃ fs', Packed (parse_loop fuel text hdr) fs' := by
  induction fuel with
  | zero => exact fun text hdr fs packed => ⟨fs, packed⟩
  | succ fuel ih =>
    intro text hdr fs packed
    rw [parse_loop]
    split
    next => exact ⟨fs, packed⟩
    next =>
      split
      next => exact ⟨fs, packed⟩
      next name value _ => exact ih _ (packed.appended name value)

theorem create_packed (blurb : Option (List UInt8)) : ∃ fs, Packed (mu_header_create blurb) fs := by
  have empty : ∀ invalidate, Packed ({ invalidate := invalidate } : Hdr) [] := fun _ => ⟨rfl, rfl, rfl, rfl, rfl⟩
  cases blurb with
  | none => exact ⟨[], empty false⟩
  | some blurb => exact parse_loop_packed blurb.length blurb (empty true)

/-- The text with the bytes in it at the offset. -/
def overwrite (text : List UInt8) (off : Nat) (buf : List UInt8) : List UInt8 :=
  text.take off ++ buf ++ text.drop (off + buf.length)

/-- Whether the loops of `header_parse` that skip the blanks before a colon and behind it run into a blank outside of
    the text. `prev` is the byte before the field, `after` the one behind the text. -/
def overruns (after : UInt8) : Nat → UInt8 → List UInt8 → Bool
  | 0, _, _ => false
  | fuel + 1, prev, text =>
    if text = [] ∨ text.head?.any fun c => ISLWSP c ∨ c = LF then false
    else
      let field := (take_field text).1
      if field.length ≥ 5 ∧ field.take 5 = ascii "From " then overruns after fuel LF (take_field text).2
      else if COLON ∈ field then
        -- a field that is as long as the text has no newline at its end
        field.head? = some COLON ∧ ISLWSP prev ∨
          (field.drop (field.idxOf COLON + 1)).all ISLWSP ∧ field.length = text.length ∧ ISLWSP after ∨
          overruns after fuel LF (take_field text).2
      else false

/-- A blank outside of the text is skipped: the value or the name gets a negative length. -/
def Overruns (before after : UInt8) (text : List UInt8) : Prop := overruns after text.length before text = true

instance (before after : UInt8) (text : List UInt8) : Decidable (Overruns before after text) :=
  inferInstanceAs (Decidable (_ = true))

/-- What the header is when it is looked at after bytes were written to its stream, unless a length is negative;
    `before` and `after` are the bytes around the copy that is parsed. -/
def afterWrite (before after : UInt8) (hdr : Hdr) (off : Nat) (buf : List UInt8) : Option Hdr :=
  let hdr := (header_write ⟨hdr, off⟩ buf).2.hdr
  if Overruns before after (hdr.mstream.getD []) then none else some (mu_header_fill hdr).2

/-- A text without the empty line at its end has the same fields with bytes written to it. -/
theorem parse_overwrite (text buf : List UInt8) {off : Nat} (within : off ≤ text.length) :
    parseFields (overwrite (text ++ [LF]) off buf).length (overwrite (text ++ [LF]) off buf) =
      parseFields (overwrite text off buf).length (overwrite text off buf) := by
  have start : (text ++ [LF]).take off = text.take off := List.take_append_of_le_length within
  by_cases inside : off + buf.length ≤ text.length
  · have more : overwrite (text ++ [LF]) off buf = overwrite text off buf ++ [LF] := by
      rw [overwrite, overwrite, start, List.drop_append_of_le_length inside, List.append_assoc]
      simp
    rw [more]
    exact parseFields_newline _ _ _ (by simp) (Nat.le_refl _)
  · have same : overwrite (text ++ [LF]) off buf = overwrite text off buf := by
      rw [overwrite, overwrite, start, List.drop_eq_nil_of_le (by simp; omega), List.drop_eq_nil_of_le (by omega)]
    rw [same]

theorem Packed.afterWrite {hdr : Hdr} {fs : List (List UInt8 × List UInt8)} (packed : Packed hdr fs) {off : Nat}
    (within : off ≤ (fs.map line).flatten.length) (buf : List UInt8) (before after : UInt8) :
    (afterWrite before after hdr off buf).map fields =
      if Overruns before after (overwrite (fs.map line).flatten off buf) then none
      else some (parseFields (overwrite (fs.map line).flatten off buf).length (overwrite (fs.map line).flatten off buf)) := by
  have length : hdr.spool.length = (fs.map line).flatten.length := by rw [packed.spool, lines_length_raw]
  have off_kept : (if hdr.spool ≠ [] then min off hdr.spool.length else off) = off := by
    rw [length, Nat.min_eq_left within, ite_self]
  have written : (header_write ⟨hdr, off⟩ buf).2.hdr =
      { hdr with mstream := some (overwrite (fs.map line).flatten off buf), streammod := true } := by
    unfold header_write
    rw [packed.streammod, packed.filled]
    dsimp only
    rw [if_neg Bool.false_ne_true, packed.materialize, off_kept]
    dsimp only
    rw [if_neg (by simp), Option.getD_some, File.put, List.takeD_eq_take _ within]
    rfl
  rw [Header.afterWrite, written]
  dsimp only
  rw [Option.getD_some]
  split
  · rfl
  · exact congrArg some (header_parse_fields _ _)

/-- In every header reached by changes at the end of its list, writing bytes to the stream
    gives the fields of the text with these bytes in it, exactly if no blank outside of the
    copy is skipped. -/
theorem header_write_edits (blurb : Option (List UInt8)) (ops : List Op)
    (atEnd : AtEndRun (mu_header_create blurb) ops) (off : Nat) (buf : List UInt8)
    (within : off < (text (fields (run (mu_header_create blurb) ops))).length) (before after : UInt8) :
    (∃ hdr, afterWrite before after (run (mu_header_create blurb) ops) off buf = some hdr ∧ fields hdr =
      fields (mu_header_create (some (overwrite (text (fields (run (mu_header_create blurb) ops))) off buf)))) ↔
    ¬ Overruns before after (overwrite (text (fields (run (mu_header_create blurb) ops))).dropLast off buf) := by
  obtain ⟨fs₀, created⟩ := create_packed blurb
  obtain ⟨fs, packed⟩ := created.run ops atEnd
  rw [packed.stored.2] at within ⊢
  have within' : off ≤ (fs.map line).flatten.length := by
    rw [text, List.length_append, List.length_singleton] at within
    omega
  have lines : (text fs).dropLast = (fs.map line).flatten := List.dropLast_concat
  have parsed := (parse_overwrite _ buf within').symm.trans
    (header_parse_fields {} (overwrite (text fs) off buf)).symm
  rw [lines, ← Option.map_eq_some_iff, packed.afterWrite within' buf, parsed]
  split
  next skipped => exact iff_of_false (by simp) (not_not.mpr skipped)
  next safe => exact iff_of_true rfl safe

/-- A value is changed after a field was appended. -/
theorem header_write_edits_value :
    let c : CString := ⟨ascii "C", by decide⟩
    let start := run (mu_header_create (some (ascii "A: b\n\n"))) [.append (some c) (some c)]
    ∃ hdr, afterWrite SP SP start 3 (ascii "e") = some hdr ∧ fields hdr =
      fields (mu_header_create (some (overwrite (text (fields start)) 3 (ascii "e")))) :=
  (header_write_edits (some (ascii "A: b\n\n")) [.append (some ⟨ascii "C", by decide⟩) (some ⟨ascii "C", by decide⟩)]
    ⟨trivial, trivial⟩ 3 (ascii "e") (by decide) SP SP).mpr (by decide)

/-- After a field was put before another, or one was removed, the bytes get into the wrong
    field, or what is left of the field that was removed gets into the text. Blanks written
    to the end of the text can make a length negative. -/
theorem header_write_misses :
    let c : CString := ⟨ascii "C", by decide⟩
    let put := run (mu_header_create (some (ascii "A: b\n\n"))) [.prepend (some c) (some c)]
    let removed := run (mu_header_create (some (ascii "A: b\nC: d\n\n"))) [.remove (some c) 1]
    fields put = [(ascii "C", ascii "C"), (ascii "A", ascii "b")] ∧
      (afterWrite 0 0 put 3 (ascii "e")).map fields = some [(ascii "A", ascii "e"), (ascii "C", ascii "C")] ∧
      fields (mu_header_create (some (overwrite (text (fields put)) 3 (ascii "e")))) =
        [(ascii "C", ascii "e"), (ascii "A", ascii "b")] ∧
      fields removed = [(ascii "A", ascii "b")] ∧
      (afterWrite 0 0 removed 4 (ascii "e")).map fields = some [(ascii "A", ascii "beC\x00 d\x00")] ∧
      fields (mu_header_create (some (overwrite (text (fields removed)) 4 (ascii "e")))) =
        [(ascii "A", ascii "be")] ∧
      (afterWrite 0 SP (mu_header_create (some (ascii "A: b\n\n"))) 3 (ascii "  ")).map fields = none := by
  exact ⟨rfl, rfl, rfl, rfl, rfl, rfl, rfl⟩
end Mailutils.Header

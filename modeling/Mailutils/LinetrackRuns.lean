import Mailutils.Linetrack

/-!
The line tracker as a text position: what it reports after any calls, and the ranges that
`mu_linetrack_advance` gives.
-/
namespace Mailutils.Linetrack

/-- Another character. -/
def consume (c : UInt8) : List Entry → List Entry
  | [] => []
  | e :: es =>
    if c = LF then ⟨0, e.line + 1, e.file, false⟩ :: { e with len := e.len + 1 } :: es
    else { e with len := e.len + 1 } :: es

/-- Another origin. -/
def setOrigin (file : List UInt8) (line : Nat) : List Entry → List Entry
  | [] => []
  | e :: es => if e.len ≠ 0 then ⟨0, line, file, true⟩ :: e :: es else ⟨0, line, file, true⟩ :: es

/-- A character that was consumed, or an origin that was set. -/
inductive Item where
  | char (c : UInt8)
  | origin (file : List UInt8) (line : Nat)
  deriving DecidableEq, Repr

/-- The stack of all that was consumed, the latest item first. -/
def entries (file : List UInt8) : List Item → List Entry
  | [] => [⟨0, 1, file, true⟩]
  | .char c :: items => consume c (entries file items)
  | .origin f line :: items => setOrigin f line (entries file items)

/-- The latest character, and the origins behind it, are taken back. -/
def dropChar : List Item → List Item
  | [] => []
  | .char _ :: items => items
  | .origin _ _ :: items => dropChar items

/-- The line of the latest origin plus the newlines since. -/
def lineOf : List Item → Nat
  | [] => 1
  | .char c :: items => if c = LF then lineOf items + 1 else lineOf items
  | .origin _ line :: _ => line

/-- The characters since the latest newline or origin. -/
def columnOf : List Item → Nat
  | [] => 0
  | .char c :: items => if c = LF then 0 else columnOf items + 1
  | .origin _ _ :: _ => 0

/-- The number of characters. -/
def charCount : List Item → Nat
  | [] => 0
  | .char _ :: items => charCount items + 1
  | .origin _ _ :: items => charCount items

theorem entries_cons (file : List UInt8) (items : List Item) :
    ∃ e es, entries file items = e :: es ∧ e.line = lineOf items ∧ e.len = columnOf items := by
  induction items with
  | nil => exact ⟨_, _, rfl, rfl, rfl⟩
  | cons item items ih =>
    obtain ⟨e, es, eq, line, column⟩ := ih
    cases item with
    | char c =>
      rw [entries, eq, consume, lineOf, columnOf]
      split_ifs
      · exact ⟨_, _, rfl, by simp [line], rfl⟩
      · exact ⟨_, _, rfl, line, by simp [column]⟩
    | origin f l =>
      rw [entries, eq, setOrigin]
      split_ifs
      · exact ⟨_, _, rfl, rfl, rfl⟩
      · exact ⟨_, _, rfl, rfl, rfl⟩

private theorem sum_entries (file : List UInt8) (items : List Item) :
    ((entries file items).map Entry.len).sum = charCount items := by
  induction items with
  | nil => rfl
  | cons item items ih =>
    obtain ⟨e, es, eq, -⟩ := entries_cons file items
    rw [eq] at ih
    cases item with
    | char c =>
      rw [entries, eq, consume, charCount, ← ih]
      split_ifs <;> simp <;> omega
    | origin f l =>
      rw [entries, eq, setOrigin, charCount, ← ih]
      split_ifs with nonempty
      · simp
      · simp [not_not.mp nonempty]

private theorem entries_dropChar (file : List UInt8) {items : List Item} (some_char : charCount items ≠ 0) :
    entries file (dropChar items) = unstep (entries file items) := by
  induction items with
  | nil => simp [charCount] at some_char
  | cons item items ih =>
    obtain ⟨e, es, eq, -⟩ := entries_cons file items
    cases item with
    | char c =>
      rw [dropChar, entries, eq, consume]
      split_ifs <;> simp [unstep]
    | origin f l =>
      rw [dropChar, ih some_char, entries, eq, setOrigin]
      by_cases nonempty : e.len = 0
      · simp [unstep, nonempty]
      · simp [unstep, nonempty]

theorem charCount_dropChar (items : List Item) : charCount (dropChar items) = charCount items - 1 := by
  induction items with
  | nil => rfl
  | cons item items ih =>
    cases item with
    | char c => simp [dropChar, charCount]
    | origin f l => simpa [dropChar, charCount] using ih

theorem entries_dropChars (file : List UInt8) {items : List Item} {n : Nat} (le : n ≤ charCount items) :
    entries file (dropChar^[n] items) = unstep^[n] (entries file items) := by
  induction n generalizing items with
  | zero => rfl
  | succ n ih =>
    rw [Function.iterate_succ_apply, Function.iterate_succ_apply, ih (by rw [charCount_dropChar]; omega),
      entries_dropChar file (by omega)]

variable {e : Entry} {c : UInt8}

theorem fits_consume_len {es : List Entry} (fits : Fits (consume c (e :: es))) :
    e.len + 1 < 4294967296 :=
  (fits.entry { e with len := e.len + 1 } (by rw [consume]; split_ifs <;> simp)).1

theorem fits_consume {es : List Entry} (fits : Fits (consume c es)) : Fits es := by
  cases es with
  | nil => exact fits
  | cons e es =>
    obtain ⟨entry, total⟩ := fits
    have longer : e.len + 1 < 4294967296 ∧ e.line < 4294967296 := entry { e with len := e.len + 1 } (by
      rw [consume]; split_ifs <;> simp)
    refine ⟨fun x mem => ?_, ?_⟩
    · rcases List.mem_cons.mp mem with rfl | mem
      · omega
      · exact entry x (by rw [consume]; split_ifs <;> simp [mem])
    · rw [consume] at total
      split_ifs at total <;> simp at total ⊢ <;> omega

/-- A whole text. -/
def consumeAll (text : List UInt8) (es : List Entry) : List Entry := text.foldl (fun es c => consume c es) es

theorem consumeAll_cons (c : UInt8) (text : List UInt8) (es : List Entry) :
    consumeAll (c :: text) es = consumeAll text (consume c es) := rfl

theorem consumeAll_concat (c : UInt8) (text : List UInt8) (es : List Entry) :
    consumeAll (text ++ [c]) es = consume c (consumeAll text es) := by simp [consumeAll]

theorem entries_append (file text : List UInt8) (items : List Item) :
    entries file ((text.map Item.char).reverse ++ items) = consumeAll text (entries file items) := by
  induction text generalizing items with
  | nil => rfl
  | cons c text ih => simpa [consumeAll_cons, entries] using ih (.char c :: items)

theorem fits_consumeAll {text : List UInt8} {es : List Entry} (fits : Fits (consumeAll text es)) : Fits es := by
  induction text generalizing es with
  | nil => exact fits
  | cons c text ih => exact fits_consume (ih fits)

theorem length_consume_le (c : UInt8) (es : List Entry) : es.length ≤ (consume c es).length := by
  cases es with
  | nil => simp
  | cons e es => rw [consume]; split_ifs <;> simp

theorem length_consumeAll_le (text : List UInt8) (es : List Entry) : es.length ≤ (consumeAll text es).length := by
  induction text generalizing es with
  | nil => exact le_rfl
  | cons c text ih => exact (length_consume_le c es).trans (ih _)

section
variable {trk : MuLinetrack} {es : List Entry} {lost : Nat}

/-- The entries that are lost are those below the latest ones, counted from the greatest height ever reached. -/
def LostBelow (n lost height far : Nat) : Prop := height ≤ far ∧ lost = far - n

theorem lostBelow_push {n height far : Nat} (below : LostBelow n lost height far) (le : height ≤ lost + n) :
    LostBelow n (lostAfter n lost height) (height + 1) (max far (height + 1)) := by
  obtain ⟨high, eq⟩ := below
  refine ⟨le_max_right _ _, ?_⟩
  unfold lostAfter
  split_ifs <;> omega

theorem Represents.char {far : Nat} (rep : Represents trk (e :: es) lost) (c : UInt8)
    (fits : Fits (consume c (e :: es))) (below : LostBelow trk.max_lines lost (es.length + 1) far) :
    ∃ trk₁ trk' lost', Linetrack.store trk trk.tos (unsigned (e.len + 1)) = some trk₁ ∧
      (if c = LF then Linetrack.push trk₁ else some trk₁) = some trk' ∧ trk'.max_lines = trk.max_lines ∧
      Represents trk' (consume c (e :: es)) lost' ∧ lost' ≤ es.length ∧
      LostBelow trk.max_lines lost' (consume c (e :: es)).length (max far (consume c (e :: es)).length) := by
  have lost_lt := rep.lost_lt
  simp only [List.length_cons] at lost_lt
  have two_le := rep.two_le
  have small := fits_consume_len fits
  obtain ⟨trk₁, stored, rep₁, same₁⟩ := rep.store (unsigned (e.len + 1))
  rw [unsigned, Nat.mod_eq_of_lt small] at rep₁
  by_cases newline : c = LF
  · have lines : ∀ x ∈ { e with len := e.len + 1 } :: es, x.line < 4294967296 := fun x mem =>
      (fits.entry x (by rw [consume, if_pos newline]; exact List.mem_cons_of_mem _ mem)).2
    obtain ⟨trk', pushed, same', rep'⟩ := rep₁.push lines (by simp)
    have le := rep₁.length_le
    rw [same₁] at rep' le same'
    refine ⟨trk₁, trk', _, stored, by rw [if_pos newline, pushed], same', by rwa [consume, if_pos newline], ?_, ?_⟩
    · unfold lostAfter
      split_ifs <;> omega
    · rw [consume, if_pos newline]
      exact lostBelow_push below le
  · refine ⟨trk₁, trk₁, lost, stored, if_neg newline, same₁, by rwa [consume, if_neg newline], by omega, ?_⟩
    rw [consume, if_neg newline, List.length_cons, max_eq_left below.1]
    exact below

theorem advance_loop_cons {trk₁ trk₂ : MuLinetrack} {text : List UInt8} {len : Nat}
    (top : trk.cols[trk.tos]? = some len) (stored : Linetrack.store trk trk.tos (unsigned (len + 1)) = some trk₁)
    (pushed : (if c = LF then Linetrack.push trk₁ else some trk₁) = some trk₂) :
    Linetrack.advance_loop (c :: text) trk = Linetrack.advance_loop text trk₂ := by
  by_cases newline : c = LF
  · rw [if_pos newline] at pushed
    simp [Linetrack.advance_loop, top, stored, newline, pushed]
  · rw [if_neg newline, Option.some.injEq] at pushed
    simp [Linetrack.advance_loop, top, stored, newline, pushed]

theorem advance_loop_append (text text' : List UInt8) (trk : MuLinetrack) :
    Linetrack.advance_loop (text ++ text') trk =
      (Linetrack.advance_loop text trk).bind (Linetrack.advance_loop text') := by
  induction text generalizing trk with
  | nil => rfl
  | cons c text ih =>
    by_cases newline : c = LF <;> simp [Linetrack.advance_loop, newline, ih, Option.bind_assoc]

theorem Represents.advance_loop {text : List UInt8} {far : Nat} (rep : Represents trk es lost)
    (fits : Fits (consumeAll text es)) (below : LostBelow trk.max_lines lost es.length far) :
    ∃ trk' lost', Linetrack.advance_loop text trk = some trk' ∧ trk'.max_lines = trk.max_lines ∧
      Represents trk' (consumeAll text es) lost' ∧
      LostBelow trk.max_lines lost' (consumeAll text es).length (max far (consumeAll text es).length) := by
  induction text generalizing trk es lost far with
  | nil => exact ⟨trk, lost, rfl, rfl, rep, by rw [consumeAll, List.foldl_nil, max_eq_left below.1]; exact below⟩
  | cons c text ih =>
    match es, rep.lost_lt with
    | e :: es, _ =>
      obtain ⟨trk₁, trk₂, lost₂, stored, pushed, same, rep₂, -, below₂⟩ := rep.char c (fits_consumeAll fits) below
      rw [← same] at below₂
      obtain ⟨trk', lost', run, same', rep', below'⟩ := ih rep₂ fits below₂
      refine ⟨trk', lost', ?_, same'.trans same, rep', ?_⟩
      · rw [advance_loop_cons rep.top stored pushed, run]
      · rw [same, max_assoc, max_eq_right (length_consumeAll_le text _)] at below'
        exact below'

/-- Line and column after a text. -/
def place (start : Nat × Nat) (text : List UInt8) : Nat × Nat :=
  text.foldl (fun p c => if c = LF then (p.1 + 1, 0) else (p.1, p.2 + 1)) start

theorem consumeAll_place (text : List UInt8) (e : Entry) (es : List Entry) :
    ∃ e' es', consumeAll text (e :: es) = e' :: es' ∧ (e'.line, e'.len) = place (e.line, e.len) text := by
  induction text generalizing e es with
  | nil => exact ⟨e, es, rfl, rfl⟩
  | cons c text ih =>
    rw [consumeAll_cons, consume, place, List.foldl_cons]
    split_ifs
    · exact ih _ _
    · exact ih _ _

theorem place_concat (start : Nat × Nat) (text : List UInt8) (c : UInt8) :
    place start (text ++ [c]) =
      if c = LF then ((place start text).1 + 1, 0) else ((place start text).1, (place start text).2 + 1) := by
  simp [place]

theorem unsigned_pred {a : Nat} (lt : a < 4294967296) : unsigned (a + 1 + 4294967295) = a := by
  rw [unsigned]
  omega

theorem unsigned_of_lt {a : Nat} (lt : a < 4294967296) : unsigned a = a := Nat.mod_eq_of_lt lt

/-- The range of a text: both ends are set from the topmost entries, and its beginning is moved when the last line,
    with its newline, is as long as the current one with the first character. -/
theorem Represents.advance {text : List UInt8} {far : Nat} (rep : Represents trk (e :: es) lost)
    (fits : Fits (consumeAll (text ++ [c]) (e :: es))) (below : LostBelow trk.max_lines lost (es.length + 1) far)
    (loc : Range) :
    ∃ range trk' lost', mu_linetrack_advance trk loc (text ++ [c]) = some (range, trk') ∧
      trk'.max_lines = trk.max_lines ∧ Represents trk' (consumeAll (text ++ [c]) (e :: es)) lost' ∧
      LostBelow trk.max_lines lost' (consumeAll (text ++ [c]) (e :: es)).length
        (max far (consumeAll (text ++ [c]) (e :: es)).length) ∧
      (c ≠ LF → range = ⟨⟨e.file, e.line, e.len + 1⟩,
        ⟨e.file, (place (e.line, e.len) (text ++ [c])).1, (place (e.line, e.len) (text ++ [c])).2⟩⟩) ∧
      (c = LF → range.beg = ⟨e.file, e.line,
        if (place (e.line, e.len) text).2 = e.len then e.len else e.len + 1⟩) := by
  rw [consumeAll_concat] at fits ⊢
  obtain ⟨trk₁, lost₁, run, same₁, rep₁, below₁⟩ := rep.advance_loop (fits_consume fits) below
  obtain ⟨d, ds, eq, here⟩ := consumeAll_place text e es
  have start := (fits_consumeAll (fits_consume fits)).entry e (by simp)
  have first : e.len + 1 < 4294967296 := by
    rw [← consumeAll_concat] at fits
    cases text with
    | nil => exact fits_consume_len fits
    | cons a text => exact fits_consume_len (fits_consumeAll fits)
  rw [← same₁] at below₁
  rw [eq] at rep₁ fits below₁ ⊢
  obtain ⟨trk₂, trk', lost', stored, pushed, same', rep', le, below'⟩ := rep₁.char c fits below₁
  have before := rep.locus start.2
  have loop : Linetrack.advance_loop (text ++ [c]) trk = some trk' := by
    rw [advance_loop_append, run, Option.bind_some, advance_loop_cons rep₁.top stored pushed]
    rfl
  have longer := fits_consume_len fits
  rw [same₁, max_assoc, max_eq_right (length_consume_le c (d :: ds))] at below'
  rw [place_concat, ← here]
  by_cases newline : c = LF
  · subst newline
    rw [consume, if_pos rfl] at rep' fits below' ⊢
    have after := rep'.locus (fits.entry _ (by simp)).2
    have last : trk'.cols[trk_decr trk' trk'.tos]? = some (d.len + 1) := by
      rw [trk_decr, rep'.tos_eq, List.length_cons, List.length_cons, Nat.add_sub_cancel,
        slot_pred (by have := rep'.two_le; omega)]
      exact rep'.kept.2.1 le
    refine ⟨⟨⟨e.file, e.line, if d.len = e.len then e.len else e.len + 1⟩, ⟨e.file, d.line, d.len⟩⟩, trk', lost', ?_,
      same'.trans same₁, rep', below', by simp, by simp⟩
    have room : d.len < 4294967296 ∧ d.line < 4294967296 :=
      ⟨by omega, (fits.entry { d with len := d.len + 1 } (by simp)).2⟩
    simp only [mu_linetrack_advance, before, loop, after, last, Option.bind_eq_bind, Option.bind_some,
      unsigned_pred room.1, unsigned_pred room.2, unsigned_of_lt longer, unsigned_of_lt first]
    by_cases same : d.len = e.len
    · simp [same]
    · simp [same]
  · rw [consume, if_neg newline] at rep' fits below' ⊢
    have after := rep'.locus (fits.entry _ (by simp)).2
    refine ⟨⟨⟨e.file, e.line, e.len + 1⟩, ⟨e.file, d.line, d.len + 1⟩⟩, trk', lost', ?_, same'.trans same₁, rep',
      below', by simp [newline], fun h => absurd h newline⟩
    simp [mu_linetrack_advance, before, loop, after, unsigned_of_lt first]

end

theorem fits_cons {es : List Entry} :
    Fits (e :: es) ↔ e.len < 4294967296 ∧ e.line < 4294967296 ∧
      (∀ x ∈ es, x.len < 4294967296 ∧ x.line < 4294967296) ∧ e.len + (es.map Entry.len).sum < 18446744073709551616 := by
  constructor
  · rintro ⟨entry, total⟩
    exact ⟨(entry e (by simp)).1, (entry e (by simp)).2, fun x mem => entry x (by simp [mem]), by simpa using total⟩
  · rintro ⟨len, line, entry, total⟩
    exact ⟨List.forall_mem_cons.mpr ⟨⟨len, line⟩, entry⟩, by simpa using total⟩

theorem fits_unstep {es : List Entry} (fits : Fits es) : Fits (unstep es) := by
  match es with
  | [] => exact fits
  | e :: es =>
    rw [fits_cons] at fits
    rw [unstep.eq_def]
    dsimp only
    split_ifs
    · rw [fits_cons]
      exact ⟨by dsimp only; omega, fits.2.1, fits.2.2.1, by dsimp only; omega⟩
    · match es with
      | [] => exact ⟨by simp, by simp⟩
      | e' :: es =>
        obtain ⟨-, -, entry, total⟩ := fits
        rw [List.forall_mem_cons] at entry
        rw [List.map_cons, List.sum_cons] at total
        rw [fits_cons]
        exact ⟨by dsimp only; omega, entry.1.2, entry.2, by dsimp only; omega⟩

theorem fits_dropChars {es : List Entry} (fits : Fits es) (k : Nat) : Fits (unstep^[k] es) := by
  induction k generalizing es with
  | zero => exact fits
  | succ k ih => exact ih (fits_unstep fits)

theorem length_unstep_le (k : Nat) (es : List Entry) : (unstep^[k] es).length ≤ es.length := by
  induction k generalizing es with
  | zero => exact le_rfl
  | succ k ih =>
    refine (ih _).trans ?_
    match es with
    | [] => simp [unstep]
    | [e] => rw [unstep]; split_ifs <;> simp
    | e :: e' :: es => rw [unstep]; split_ifs <;> simp

theorem fits_setOrigin {es : List Entry} {line : Nat} (fits : Fits es) (small : line < 4294967296) (file : List UInt8) :
    Fits (setOrigin file line es) := by
  cases es with
  | nil => exact fits
  | cons e es =>
    have parts := fits_cons.mp fits
    rw [setOrigin]
    split_ifs
    · rw [fits_cons]
      exact ⟨by dsimp only; omega, small, fits.entry, by simpa using parts.2.2.2⟩
    · rw [fits_cons]
      exact ⟨by dsimp only; omega, small, parts.2.2.1, by dsimp only; omega⟩

/-- What the tracker's calls keep: it stands for all that was consumed, of which it has lost what is more than
    `max_lines` entries below the greatest height ever reached. -/
structure Follows (file : List UInt8) (n : Nat) (trk : MuLinetrack) (items : List Item) (far : Nat) : Prop where
  size : trk.max_lines = n
  stack : Represents trk (entries file items) (far - n)
  height : (entries file items).length ≤ far
  fits : Fits (entries file items)

section
variable {file : List UInt8} {n far : Nat} {trk trk' : MuLinetrack} {items : List Item} {loc range : Range} {rc : Rc}

theorem Follows.create (two_le : 2 ≤ n) : ∃ trk, mu_linetrack_create file n = some trk ∧ Follows file n trk [] 1 := by
  have zero : 1 - n = 0 := by omega
  have inside : (List.replicate n 0)[0]? = some 0 := by rw [List.getElem?_replicate, if_pos (by omega)]
  have same : (List.replicate n 0).set 0 0 = List.replicate n 0 := by
    obtain ⟨m, rfl⟩ := Nat.exists_eq_add_of_le' (show 1 ≤ n by omega)
    rfl
  refine ⟨⟨[⟨file, 0, 1⟩], n, 0, 0, List.replicate n 0⟩, ?_, rfl, ?_, le_rfl, ⟨by simp [entries], by simp [entries]⟩⟩
  · simp [mu_linetrack_create, Linetrack.mu_linetrack_origin, Linetrack.store, same, Nat.not_lt.mpr two_le,
      show 0 < n by omega]
  · rw [zero]
    exact ⟨two_le, by simp, by simp [entries], by simp [entries]; omega, by simp [entries], by simp,
      ⟨fun _ => by simpa using inside, trivial⟩, by simp [entries, directory], rfl⟩

theorem Follows.locus (follows : Follows file n trk items far) :
    ∃ point, mu_linetrack_locus trk = some point ∧ point.mu_line = lineOf items ∧ point.mu_col = columnOf items := by
  obtain ⟨e, es, eq, line, column⟩ := entries_cons file items
  have rep := follows.stack
  have fits := follows.fits
  rw [eq] at rep fits
  exact ⟨_, rep.locus (fits.entry e (by simp)).2, line, column⟩

theorem Follows.advance {text : List UInt8} (follows : Follows file n trk items far)
    (fits : Fits (entries file ((text.map Item.char).reverse ++ items))) (loc : Range) :
    ∃ range trk', mu_linetrack_advance trk loc text = some (range, trk') ∧
      Follows file n trk' ((text.map Item.char).reverse ++ items)
        (max far (entries file ((text.map Item.char).reverse ++ items)).length) := by
  obtain ⟨rfl, stack, height, fits₀⟩ := follows
  rcases List.eq_nil_or_concat text with rfl | ⟨text, c, rfl⟩
  · refine ⟨loc, trk, by simp [mu_linetrack_advance], rfl, ?_, ?_, fits₀⟩
    · simpa [max_eq_left height] using stack
    · simp
  · obtain ⟨e, es, eq, -⟩ := entries_cons file items
    rw [List.concat_eq_append] at fits ⊢
    rw [entries_append] at fits
    rw [eq] at stack height fits
    obtain ⟨range, trk', lost', run, same, stack', below, -⟩ := stack.advance fits ⟨height, rfl⟩ loc
    rw [← eq, ← entries_append] at stack' below fits
    refine ⟨range, trk', run, same, ?_, le_max_right _ _, fits⟩
    rw [below.2] at stack'
    exact stack'

theorem Follows.retreat (follows : Follows file n trk items far) (k : Nat) :
    if k ≤ keptChars (far - n) (entries file items) then
      ∃ trk', mu_linetrack_retreat trk k = some (.ok, trk') ∧ Follows file n trk' (dropChar^[k] items) far
    else mu_linetrack_retreat trk k = some (.ERANGE, trk) := by
  obtain ⟨rfl, stack, height, fits⟩ := follows
  have back := stack.retreat fits.total k
  split_ifs at back ⊢ with le
  · obtain ⟨trk', run, same, stack'⟩ := back
    have enough : k ≤ charCount items := le.trans ((keptChars_le _ _).trans (sum_entries file items).le)
    refine ⟨trk', run, same, ?_, ?_, ?_⟩
    · rwa [entries_dropChars file enough]
    · rw [entries_dropChars file enough]
      exact (length_unstep_le k _).trans height
    · rw [entries_dropChars file enough]
      exact fits_dropChars fits k
  · exact back

theorem Follows.origin {name : Option (List UInt8)} {f : List UInt8} {line : Nat}
    (follows : Follows file n trk items far) (named : name.or (trk.sources.head?.map Source.file_name) = some f)
    (positive : line ≠ 0) (small : line < 4294967296)
    (apart : trk.cols[trk.tos]? = some 0 → trk.sources.head?.map Source.idx ≠ some trk.tos) :
    ∃ trk', mu_linetrack_origin trk name line 0 = some (.ok, trk') ∧
      Follows file n trk' (.origin f line :: items) (max far (entries file (.origin f line :: items)).length) := by
  obtain ⟨rfl, stack, height, fits⟩ := follows
  have fits' := fits_setOrigin fits small f
  obtain ⟨e, es, eq, -⟩ := entries_cons file items
  have lost_lt := stack.lost_lt
  rw [eq] at stack height fits fits' lost_lt
  rw [entries, eq]
  simp only [List.length_cons] at height lost_lt
  rw [stack.top, Option.some.injEq] at apart
  by_cases nonempty : e.len ≠ 0
  · -- a line is begun for the origin
    obtain ⟨trk₁, pushed, same₁, stack₁⟩ := stack.push (fun x mem => (fits.entry x mem).2) nonempty
    have below := @lostBelow_push (far - trk.max_lines) trk.max_lines (es.length + 1) far ⟨height, rfl⟩ stack.length_le
    have two_le := stack.two_le
    obtain ⟨trk₂, stored, same₂, stack₂⟩ := stack₁.origin rfl (by simp only [below.2, List.length_cons]; omega) f line
    rw [setOrigin, if_pos nonempty] at fits' ⊢
    refine ⟨{ trk₂ with sources := ⟨f, trk₂.tos, line⟩ :: trk₂.sources }, ?_, same₂.trans same₁, ?_, ?_, ?_⟩
    · simp [mu_linetrack_origin, positive, named, stack.top, nonempty, pushed, stored]
    · rw [entries, eq, setOrigin, if_pos nonempty]
      rw [below.2] at stack₂
      exact stack₂
    · rw [entries, eq, setOrigin, if_pos nonempty]
      exact le_max_right _ _
    · rw [entries, eq, setOrigin, if_pos nonempty]
      exact fits'
  · have other := apart (not_not.mp nonempty)
    rw [stack.sources_eq, stack.tos_eq, directory, if_neg (by omega)] at other
    have place : ¬ (e.first ∨ es.length = far - trk.max_lines) := fun here => by simp [here] at other
    rw [not_or] at place
    obtain ⟨trk₂, stored, same₂, stack₂⟩ := stack.origin (by simpa using place.1) (by omega) f line
    rw [setOrigin, if_neg nonempty] at fits' ⊢
    refine ⟨{ trk₂ with sources := ⟨f, trk₂.tos, line⟩ :: trk₂.sources }, ?_, same₂, ?_, ?_, ?_⟩
    · simp [mu_linetrack_origin, positive, named, stack.top, not_not.mp nonempty, stored]
    · rw [entries, eq, setOrigin, if_neg nonempty, List.length_cons, max_eq_left height]
      exact stack₂
    · rw [entries, eq, setOrigin, if_neg nonempty]
      exact le_max_right _ _
    · rw [entries, eq, setOrigin, if_neg nonempty]
      exact fits'

end

/-- The states after any calls on a tracker of at least two lines: what was consumed and not taken back, and the
    greatest height of its stack. No counter overflows, and no origin is set where the current source begins. -/
inductive Reaches (file : List UInt8) (n : Nat) : MuLinetrack → List Item → Nat → Prop
  | create {trk : MuLinetrack} (created : mu_linetrack_create file n = some trk) : Reaches file n trk [] 1
  | advance {trk trk' : MuLinetrack} {items : List Item} {far : Nat} {loc range : Range} {text : List UInt8}
      (reached : Reaches file n trk items far) (fits : Fits (entries file ((text.map Item.char).reverse ++ items)))
      (call : mu_linetrack_advance trk loc text = some (range, trk')) :
      Reaches file n trk' ((text.map Item.char).reverse ++ items)
        (max far (entries file ((text.map Item.char).reverse ++ items)).length)
  | retreat {trk trk' : MuLinetrack} {items : List Item} {far k : Nat} {rc : Rc}
      (reached : Reaches file n trk items far)
      (call : mu_linetrack_retreat trk k = some (rc, trk')) :
      Reaches file n trk' (if rc = .ok then dropChar^[k] items else items) far
  | origin {trk trk' : MuLinetrack} {items : List Item} {far line : Nat} {name : Option (List UInt8)} {f : List UInt8}
      {rc : Rc} (reached : Reaches file n trk items far)
      (named : name.or (trk.sources.head?.map Source.file_name) = some f)
      (positive : line ≠ 0) (small : line < 4294967296)
      (apart : trk.cols[trk.tos]? = some 0 → trk.sources.head?.map Source.idx ≠ some trk.tos)
      (call : mu_linetrack_origin trk name line 0 = some (rc, trk')) :
      Reaches file n trk' (.origin f line :: items) (max far (entries file (.origin f line :: items)).length)

section
variable {file : List UInt8} {n far : Nat} {trk : MuLinetrack} {items : List Item}

theorem Reaches.follows (two_le : 2 ≤ n) (reached : Reaches file n trk items far) : Follows file n trk items far := by
  induction reached with
  | create created =>
    obtain ⟨trk, created', follows⟩ := @Follows.create file n two_le
    rw [created', Option.some.injEq] at created
    exact created ▸ follows
  | advance _ fits call ih =>
    obtain ⟨range, trk', call', follows⟩ := ih.advance fits _
    rw [call', Option.some.injEq, Prod.mk.injEq] at call
    exact call.2 ▸ follows
  | @retreat trk trk' items far k rc _ call ih =>
    have back := ih.retreat k
    split_ifs at back
    · obtain ⟨trk', call', follows⟩ := back
      rw [call', Option.some.injEq, Prod.mk.injEq] at call
      obtain ⟨rfl, rfl⟩ := call
      exact follows
    · rw [back, Option.some.injEq, Prod.mk.injEq] at call
      obtain ⟨rfl, rfl⟩ := call
      exact ih
  | origin _ named positive small apart call ih =>
    obtain ⟨trk', call', follows⟩ := ih.origin named positive small apart
    rw [call', Option.some.injEq, Prod.mk.injEq] at call
    exact call.2 ▸ follows

/-- The index is in the cyclic interval from `head` to `tos`. -/
def InHistory (trk : MuLinetrack) (idx : Nat) : Prop :=
  (idx + trk.max_lines - trk.head) % trk.max_lines ≤ (trk.tos + trk.max_lines - trk.head) % trk.max_lines

instance (trk : MuLinetrack) (idx : Nat) : Decidable (InHistory trk idx) := inferInstanceAs (Decidable (_ ≤ _))

theorem Represents.inHistory {es : List Entry} {lost : Nat} {source : Source} (rep : Represents trk es lost)
    (mem : source ∈ trk.sources) : source.idx < trk.cols.length ∧ InHistory trk source.idx := by
  have two_le := rep.two_le
  have lost_lt := rep.lost_lt
  have length_le := rep.length_le
  rw [rep.sources_eq] at mem
  obtain ⟨h, low, high, idx⟩ := directory_idx mem
  constructor
  · rw [idx, rep.allocated]
    exact Nat.mod_lt _ (by omega)
  · rw [InHistory, idx, rep.head_eq, rep.tos_eq, slot_sub low (by omega), slot_sub (by omega) (by omega)]
    omega

/-- The directory stays inside of the history, there is a current source, its line is reported, and no call uses an
    index outside of `cols`. -/
theorem directory_inside (two_le : 2 ≤ n) (reached : Reaches file n trk items far) :
    trk.sources ≠ [] ∧ (∀ source ∈ trk.sources, source.idx < trk.cols.length ∧ InHistory trk source.idx) ∧
    (∃ point, mu_linetrack_locus trk = some point ∧ point.mu_line = lineOf items) ∧
    (mu_linetrack_create file n).isSome ∧
    (∀ loc text, Fits (entries file ((text.map Item.char).reverse ++ items)) →
      (mu_linetrack_advance trk loc text).isSome) ∧
    (∀ k, (mu_linetrack_retreat trk k).isSome) ∧
    (∀ name line, line ≠ 0 → line < 4294967296 →
      (trk.cols[trk.tos]? = some 0 → trk.sources.head?.map Source.idx ≠ some trk.tos) →
      (mu_linetrack_origin trk name line 0).isSome) := by
  have follows := reached.follows two_le
  obtain ⟨point, at_point, line, -⟩ := follows.locus
  obtain ⟨_, created, -⟩ := @Follows.create file n two_le
  have current : ∃ source, trk.sources.head? = some source := by
    cases eq : trk.sources.head? with
    | none => simp [mu_linetrack_locus, eq] at at_point
    | some source => exact ⟨source, rfl⟩
  obtain ⟨source, eq⟩ := current
  refine ⟨fun none => by simp [none] at eq, fun _ mem => follows.stack.inHistory mem, ⟨point, at_point, line⟩,
    by simp [created], fun loc text fits => ?_, fun k => ?_, fun name line positive small apart => ?_⟩
  · obtain ⟨range, trk', call, -⟩ := follows.advance fits loc
    simp [call]
  · have back := follows.retreat k
    split_ifs at back
    · obtain ⟨trk', call, -⟩ := back
      simp [call]
    · simp [back]
  · obtain ⟨f, named⟩ : ∃ f, name.or (trk.sources.head?.map Source.file_name) = some f := by
      cases name <;> simp [eq]
    obtain ⟨trk', call, -⟩ := follows.origin named positive small apart
    simp [call]

end

/-- A newline, an origin, and the newline taken back. -/
theorem directory_inside_crossed :
    ∃ trk, Reaches [102] 3 trk [.char 97] 2 ∧ ∃ point, mu_linetrack_locus trk = some point ∧ point.mu_line = 1 := by
  have created := @Reaches.create [102] 3 ⟨[⟨[102], 0, 1⟩], 3, 0, 0, [0, 0, 0]⟩ (by decide)
  have advanced := created.advance (show Fits (entries [102] (([97, LF].map Item.char).reverse ++ [])) from
    ⟨by decide, by decide⟩) (show mu_linetrack_advance _ ⟨⟨[], 0, 0⟩, ⟨[], 0, 0⟩⟩ _ = some (_, _) from rfl)
  have set := advanced.origin (show (some [103]).or _ = some [103] from rfl) (show 5 ≠ 0 by decide) (by decide)
    (by decide) (show mu_linetrack_origin _ _ _ 0 = some (_, _) from rfl)
  have crossed := set.retreat (show mu_linetrack_retreat _ 1 = some (_, _) from rfl)
  exact ⟨_, crossed, (directory_inside (by decide) crossed).2.2.1⟩

/-- Histories of less than two lines are used outside of their allocation. With three lines, two origins at the same
    place leave the first of them in the directory when a retreat crosses both: it is outside of the history, and the
    reported line is not the one of the text. -/
theorem directory_stale :
    mu_linetrack_create [102] 0 = none ∧
    ((mu_linetrack_create [102] 1).bind fun trk =>
      mu_linetrack_advance trk ⟨⟨[], 0, 0⟩, ⟨[], 0, 0⟩⟩ [LF]) = none ∧
    ∃ trk₁ range trk₂ trk₃ trk₄ trk₅ point, mu_linetrack_create [102] 3 = some trk₁ ∧
      mu_linetrack_advance trk₁ ⟨⟨[], 0, 0⟩, ⟨[], 0, 0⟩⟩ [97, LF] = some (range, trk₂) ∧
      mu_linetrack_origin trk₂ (some [103]) 5 0 = some (.ok, trk₃) ∧
      mu_linetrack_origin trk₃ (some [104]) 7 0 = some (.ok, trk₄) ∧
      mu_linetrack_retreat trk₄ 1 = some (.ok, trk₅) ∧
      trk₅.sources.head?.map Source.idx = some 1 ∧ ¬ InHistory trk₅ 1 ∧
      mu_linetrack_locus trk₅ = some point ∧ point.mu_line = 7 ∧ lineOf [.char 97] = 1 :=
  ⟨by decide, by decide, ⟨[⟨[102], 0, 1⟩], 3, 0, 0, [0, 0, 0]⟩, ⟨⟨[102], 1, 1⟩, ⟨[102], 1, 1⟩⟩,
    ⟨[⟨[102], 0, 1⟩], 3, 0, 1, [2, 0, 0]⟩, ⟨[⟨[103], 1, 5⟩, ⟨[102], 0, 1⟩], 3, 0, 1, [2, 0, 0]⟩,
    ⟨[⟨[104], 1, 7⟩, ⟨[103], 1, 5⟩, ⟨[102], 0, 1⟩], 3, 0, 1, [2, 0, 0]⟩,
    ⟨[⟨[103], 1, 5⟩, ⟨[102], 0, 1⟩], 3, 0, 0, [1, 0, 0]⟩, ⟨[103], 7, 1⟩, by decide⟩

section
variable {file : List UInt8} {n far : Nat} {trk : MuLinetrack} {items : List Item}

/-- The range begins one past the place before the call; if the last character is not a newline, it ends with the place
    of that character. -/
def Reports (trk : MuLinetrack) (loc : Range) (text : List UInt8) : Prop :=
  ∃ before range trk', mu_linetrack_locus trk = some before ∧ mu_linetrack_advance trk loc text = some (range, trk') ∧
    range.beg = { before with mu_col := before.mu_col + 1 } ∧
    (text.getLast? ≠ some LF →
      range.fin = ⟨before.mu_file, (place (before.mu_line, before.mu_col) text).1,
        (place (before.mu_line, before.mu_col) text).2⟩)

/-- The range is reported unless the text ends in a newline in the column of its first character. -/
theorem reports_iff {c : UInt8} {text : List UInt8} (two_le : 2 ≤ n) (reached : Reaches file n trk items far)
    (fits : Fits (entries file (((c :: text).map Item.char).reverse ++ items))) (loc : Range) :
    Reports trk loc (c :: text) ↔
      ¬ ((c :: text).getLast? = some LF ∧
        (place (lineOf items, columnOf items) (c :: text).dropLast).2 = columnOf items) := by
  obtain ⟨rfl, stack, height, fits₀⟩ := reached.follows two_le
  obtain ⟨e, es, eq, line, column⟩ := entries_cons file items
  rw [entries_append] at fits
  rw [eq] at stack height fits fits₀
  rcases List.eq_nil_or_concat (c :: text) with none | ⟨init, last, split⟩
  · cases none
  rw [List.concat_eq_append] at split
  have before := stack.locus (fits₀.entry e (by simp)).2
  rw [split] at fits
  obtain ⟨range, trk', lost', run, -, -, -, other, newline⟩ := stack.advance fits ⟨height, rfl⟩ loc
  rw [split, List.getLast?_concat, List.dropLast_concat, ← line, ← column]
  by_cases ends : last = LF
  · have beg := newline ends
    constructor
    · rintro ⟨before', range', trk'', at_before, call, begins, -⟩ ⟨-, same⟩
      rw [before, Option.some.injEq] at at_before
      rw [run, Option.some.injEq, Prod.mk.injEq] at call
      rw [← call.1, beg, if_pos same, ← at_before] at begins
      simp at begins
    · intro other
      refine ⟨_, range, trk', before, run, ?_, by simp [ends]⟩
      rw [beg, if_neg (fun same => other ⟨by rw [ends], same⟩)]
  · refine iff_of_true ⟨_, range, trk', before, run, ?_, fun _ => ?_⟩ (by simp [ends])
    · rw [other ends]
    · rw [other ends]

end

/-- A line with its newline, from the middle of the first line. -/
theorem reports_iff_line : ∃ trk, Reaches [102] 2 trk [.char 97] 1 ∧
    Reports trk ⟨⟨[], 0, 0⟩, ⟨[], 0, 0⟩⟩ [98, 99, LF] := by
  have created := @Reaches.create [102] 2 ⟨[⟨[102], 0, 1⟩], 2, 0, 0, [0, 0]⟩ (by decide)
  have advanced := created.advance (show Fits (entries [102] (([97].map Item.char).reverse ++ [])) from
    ⟨by decide, by decide⟩) (show mu_linetrack_advance _ ⟨⟨[], 0, 0⟩, ⟨[], 0, 0⟩⟩ _ = some (_, _) from rfl)
  exact ⟨_, advanced, (reports_iff (by decide) advanced ⟨by decide, by decide⟩ _).mpr (by decide)⟩

/-- A line and an empty one after it: the range of a text at the beginning of a line begins in column 0. -/
theorem reports_column_zero :
    ∃ trk range trk', mu_linetrack_create [102] 3 = some trk ∧
      mu_linetrack_advance trk ⟨⟨[], 0, 0⟩, ⟨[], 0, 0⟩⟩ [97, LF, LF] = some (range, trk') ∧
      mu_linetrack_locus trk = some ⟨[102], 1, 0⟩ ∧ range.beg = ⟨[102], 1, 0⟩ :=
  ⟨⟨[⟨[102], 0, 1⟩], 3, 0, 0, [0, 0, 0]⟩, ⟨⟨[102], 1, 0⟩, ⟨[102], 2, 0⟩⟩, ⟨[⟨[102], 0, 1⟩], 3, 0, 2, [2, 1, 0]⟩,
    by decide⟩

/-- The states after any calls on a tracker with one source: the text that was consumed and not taken back, its latest
    character first, and the farthest line ever reached. -/
inductive Tracks (file : List UInt8) (n : Nat) : MuLinetrack → List UInt8 → Nat → Prop
  | create {trk : MuLinetrack} (created : mu_linetrack_create file n = some trk) : Tracks file n trk [] 1
  | advance {trk trk' : MuLinetrack} {text more : List UInt8} {far : Nat} {loc range : Range}
      (tracked : Tracks file n trk text far) (fits : Fits (entries file ((more.reverse ++ text).map Item.char)))
      (call : mu_linetrack_advance trk loc more = some (range, trk')) :
      Tracks file n trk' (more.reverse ++ text) (max far (1 + (more.reverse ++ text).count LF))
  | retreat {trk trk' : MuLinetrack} {text : List UInt8} {far k : Nat} {rc : Rc} (tracked : Tracks file n trk text far)
      (call : mu_linetrack_retreat trk k = some (rc, trk')) :
      Tracks file n trk' (if rc = .ok then text.drop k else text) far

section
variable {file : List UInt8} {n far : Nat} {trk : MuLinetrack} {text : List UInt8}

theorem lineOf_text (text : List UInt8) : lineOf (text.map Item.char) = 1 + text.count LF := by
  induction text with
  | nil => rfl
  | cons c text ih =>
    rw [List.map_cons, lineOf, ih, List.count_cons]
    by_cases newline : c = LF
    · simp [newline, Nat.add_assoc]
    · simp [newline]

theorem columnOf_text (text : List UInt8) :
    columnOf (text.map Item.char) = (text.takeWhile (· ≠ LF)).length := by
  induction text with
  | nil => rfl
  | cons c text ih =>
    rw [List.map_cons, columnOf, ih]
    by_cases newline : c = LF <;> simp [newline]

theorem height_text (file text : List UInt8) :
    (entries file (text.map Item.char)).length = 1 + text.count LF := by
  induction text with
  | nil => rfl
  | cons c text ih =>
    obtain ⟨e, es, eq, -⟩ := entries_cons file (text.map Item.char)
    rw [eq] at ih
    rw [List.map_cons, entries, eq, consume, List.count_cons]
    by_cases newline : c = LF <;> simp [newline] at ih ⊢ <;> omega

theorem dropChars_text (k : Nat) (text : List UInt8) :
    dropChar^[k] (text.map Item.char) = (text.drop k).map Item.char := by
  induction k generalizing text with
  | zero => rfl
  | succ k ih =>
    cases text with
    | nil => simpa [dropChar] using ih []
    | cons c text => simpa [dropChar] using ih text

theorem Tracks.follows (two_le : 2 ≤ n) (tracked : Tracks file n trk text far) :
    Follows file n trk (text.map Item.char) far := by
  suffices reached : Reaches file n trk (text.map Item.char) far from reached.follows two_le
  induction tracked with
  | create created => exact .create created
  | advance _ fits call ih =>
    rw [List.map_append, List.map_reverse] at fits
    have reached := ih.advance fits call
    rw [← List.map_reverse, ← List.map_append, height_text] at reached
    exact reached
  | @retreat trk trk' text far k rc _ call ih =>
    have reached := ih.retreat call
    rw [dropChars_text] at reached
    split_ifs at reached ⊢
    · exact reached
    · exact reached

theorem keptChars_consume {lost : Nat} {es : List Entry} (le : lost ≤ es.length) (c : UInt8) :
    keptChars lost (consume c (e :: es)) = keptChars lost (e :: es) + 1 := by
  have notLost : ¬ es.length < lost := by omega
  have notLost' : ¬ es.length + 1 < lost := by omega
  by_cases newline : c = LF <;> simp [consume, newline, keptChars, notLost, notLost'] <;> omega

theorem keptChars_text {lost k : Nat} (le : k ≤ text.length) (kept : lost < 1 + (text.drop k).count LF) :
    k ≤ keptChars lost (entries file (text.map Item.char)) := by
  induction k generalizing text with
  | zero => exact Nat.zero_le _
  | succ k ih =>
    cases text with
    | nil => simp at le
    | cons c text =>
      rw [List.drop_succ_cons] at kept
      have more := ih (by simpa using le) kept
      have height := height_text file text
      have fewer := (List.drop_sublist k text).count_le LF
      obtain ⟨e, es, eq, -⟩ := entries_cons file (text.map Item.char)
      rw [eq, List.length_cons] at height
      rw [eq] at more
      rw [List.map_cons, entries, eq, keptChars_consume (by omega)]
      omega

/-- The tracker is a position in the text, and the characters on the latest lines can be taken back. -/
theorem locus_follows_text (two_le : 2 ≤ n) (tracked : Tracks file n trk text far) :
    (∃ point, mu_linetrack_locus trk = some point ∧ point.mu_line = 1 + text.count LF ∧
      point.mu_col = (text.takeWhile (· ≠ LF)).length) ∧
    (∀ loc more, Fits (entries file ((more.reverse ++ text).map Item.char)) →
      (mu_linetrack_advance trk loc more).isSome) ∧
    (∀ k, (mu_linetrack_retreat trk k).isSome) ∧
    (∀ k ≤ text.length, far < n + (1 + (text.drop k).count LF) →
      ∃ trk', mu_linetrack_retreat trk k = some (.ok, trk')) := by
  have follows := tracked.follows two_le
  obtain ⟨point, at_point, line, column⟩ := follows.locus
  rw [lineOf_text] at line
  rw [columnOf_text] at column
  refine ⟨⟨point, at_point, line, column⟩, fun loc more fits => ?_, fun k => ?_, fun k le near => ?_⟩
  · rw [List.map_append, List.map_reverse] at fits
    obtain ⟨range, trk', call, -⟩ := follows.advance fits loc
    simp [call]
  · have back := follows.retreat k
    split_ifs at back
    · obtain ⟨trk', call, -⟩ := back
      simp [call]
    · simp [back]
  · have back := follows.retreat k
    rw [if_pos (keptChars_text le (by omega))] at back
    obtain ⟨trk', call, -⟩ := back
    exact ⟨trk', call⟩

end

/-- Two lines of which the second is taken back. -/
theorem locus_follows_text_back : ∃ trk, Tracks [102] 2 trk [97] 2 ∧
    ∃ point, mu_linetrack_locus trk = some point ∧ point.mu_line = 1 ∧ point.mu_col = 1 := by
  have created := @Tracks.create [102] 2 ⟨[⟨[102], 0, 1⟩], 2, 0, 0, [0, 0]⟩ (by decide)
  have advanced := created.advance (show Fits (entries [102] (([97, LF, 98].reverse ++ []).map Item.char)) from
    ⟨by decide, by decide⟩) (show mu_linetrack_advance _ ⟨⟨[], 0, 0⟩, ⟨[], 0, 0⟩⟩ _ = some (_, _) from rfl)
  have tracked := advanced.retreat (show mu_linetrack_retreat _ 2 = some (_, _) from rfl)
  exact ⟨_, tracked, (locus_follows_text (by decide) tracked).1⟩

theorem advance_loop_replicate {trk : MuLinetrack} {c : UInt8} {col : Nat} (other : c ≠ LF) (k : Nat)
    (top : trk.cols[trk.tos]? = some col) (small : col < 4294967296) :
    Linetrack.advance_loop (List.replicate k c) trk =
      some { trk with cols := trk.cols.set trk.tos (unsigned (col + k)) } := by
  induction k generalizing trk col with
  | zero =>
    have same : trk.cols.set trk.tos col = trk.cols := by
      obtain ⟨inside, eq⟩ := List.getElem?_eq_some_iff.mp top
      rw [← eq, List.set_getElem_self]
    simp [Linetrack.advance_loop, unsigned_of_lt small, same]
  | succ k ih =>
    have inside : trk.tos < trk.cols.length := (List.getElem?_eq_some_iff.mp top).1
    have sum : unsigned (unsigned (col + 1) + k) = unsigned (col + (k + 1)) := by
      rw [unsigned, unsigned, unsigned, Nat.mod_add_mod, Nat.add_assoc, Nat.add_comm 1 k]
    rw [List.replicate_succ, advance_loop_cons top (if_pos inside) (if_neg other),
      ih (List.getElem?_set_self inside) (show unsigned (col + 1) < 4294967296 from Nat.mod_lt _ (by decide)), sum]
    simp

theorem locus_after_replicate {k : Nat} (nonempty : k ≠ 0) (wraps : unsigned k = 0) :
    ∃ range, mu_linetrack_advance ⟨[⟨[102], 0, 1⟩], 2, 0, 0, [0, 0]⟩ ⟨⟨[], 0, 0⟩, ⟨[], 0, 0⟩⟩ (List.replicate k 97) =
      some (range, ⟨[⟨[102], 0, 1⟩], 2, 0, 0, [0, 0]⟩) := by
  have loop := @advance_loop_replicate ⟨[⟨[102], 0, 1⟩], 2, 0, 0, [0, 0]⟩ 97 0 (by decide) k rfl (by decide)
  rw [Nat.zero_add, wraps] at loop
  simp [mu_linetrack_advance, nonempty, loop, mu_linetrack_locus, trk_decr, count_lines, unsigned]

/-- A line whose length is one more than the greatest column: the tracker is back in column 0. -/
theorem locus_column_wraps :
    ∃ trk range trk', mu_linetrack_create [102] 2 = some trk ∧
      mu_linetrack_advance trk ⟨⟨[], 0, 0⟩, ⟨[], 0, 0⟩⟩ (List.replicate 4294967296 97) = some (range, trk') ∧
      mu_linetrack_locus trk' = some ⟨[102], 1, 0⟩ := by
  obtain ⟨range, call⟩ := @locus_after_replicate 4294967296 (by decide) (by decide)
  exact ⟨_, range, _, by decide, call, by decide⟩

end Mailutils.Linetrack

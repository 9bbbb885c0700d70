import Mailutils.MsgsetParse

/-!
Message sets as strings (`libmailutils/msgset/print.c`). A set is joined before it is printed; a range of two messages
is printed as two items. The text is read again as a set of the same messages, and that set is printed in the same way
if the ranges of the first one could be joined altogether (`print_parse`).
-/
namespace Mailutils.MessageSet
open Mailutils.Text

/-- `struct mu_msgset_format` -/
structure MsgsetFormat where
  delim : List UInt8
  range : List UInt8
  last : List UInt8
  empty : Option (List UInt8) := none

/-- The element `MU_MSGSET_FMT_IMAP` of `mu_msgset_formats` -/
def MU_MSGSET_FMT_IMAP : MsgsetFormat := ⟨ascii ",", ascii ":", ascii "*", some (ascii "NIL")⟩

/-- What is on the stream, and `cont`, after one more range. -/
def _msgrange_printer (fmt : MsgsetFormat) (env : List UInt8 × Bool) (range : Msgrange) : List UInt8 × Bool :=
  (env.1 ++ (if env.2 then fmt.delim else []) ++
    (if range.msg_beg = range.msg_end then printLu range.msg_beg
    else if range.msg_end = 0 then printLu range.msg_beg ++ fmt.range ++ fmt.last
    else if range.msg_end = size (range.msg_beg + 1) then printLu range.msg_beg ++ fmt.delim ++ printLu range.msg_end
    else printLu range.msg_beg ++ fmt.range ++ printLu range.msg_end), true)

/-- What is printed, and the set, which has been joined. -/
def mu_stream_msgset_format (fmt : MsgsetFormat) (mset : Msgset) : List UInt8 × Msgset :=
  if mset.list = [] then (fmt.empty.getD [], mset)
  else (((mu_msgset_aggregate mset).list.foldl (_msgrange_printer fmt) ([], false)).1, mu_msgset_aggregate mset)

/-- The items a range is printed as. -/
def itemsOf (r : Msgrange) : List Item :=
  if r.msg_beg = r.msg_end then [.single (printLu r.msg_beg)]
  else if r.msg_end = 0 then [.opened (printLu r.msg_beg)]
  else if r.msg_end = size (r.msg_beg + 1) then [.single (printLu r.msg_beg), .single (printLu r.msg_end)]
  else [.range (printLu r.msg_beg) (printLu r.msg_end)]

theorem itemsOf_ne_nil (r : Msgrange) : itemsOf r ≠ [] := by
  unfold itemsOf
  split_ifs <;> exact List.cons_ne_nil _ _

private theorem listed_append {items items' : List Item} (nonempty : items ≠ []) (nonempty' : items' ≠ []) :
    listed (items ++ items') = listed items ++ COMMA :: listed items' := by
  induction items with
  | nil => exact absurd rfl nonempty
  | cons item items ih =>
    cases items with
    | nil =>
      obtain ⟨item', rest, rfl⟩ := List.exists_cons_of_ne_nil nonempty'
      rw [List.singleton_append, listed_cons, listed_single]
    | cons item' rest =>
      rw [List.cons_append, List.cons_append, listed_cons, ← List.cons_append, ih (List.cons_ne_nil _ _), listed_cons,
        List.append_assoc, List.cons_append]

private theorem printer_items (env : List UInt8 × Bool) (r : Msgrange) : _msgrange_printer MU_MSGSET_FMT_IMAP env r =
    (env.1 ++ (if env.2 then [COMMA] else []) ++ listed (itemsOf r), true) := by
  have delim : MU_MSGSET_FMT_IMAP.delim = [COMMA] := rfl
  have range : MU_MSGSET_FMT_IMAP.range = [COLON] := rfl
  have last : MU_MSGSET_FMT_IMAP.last = [STAR] := rfl
  unfold _msgrange_printer itemsOf
  rw [delim, range, last]
  split_ifs <;> simp [listed_single, listed_cons, Item.text]

theorem printed_items (list : List Msgrange) (nonempty : list ≠ []) (env : List UInt8 × Bool) :
    (list.foldl (_msgrange_printer MU_MSGSET_FMT_IMAP) env).1 =
      env.1 ++ (if env.2 then [COMMA] else []) ++ listed (list.flatMap itemsOf) := by
  induction list generalizing env with
  | nil => exact absurd rfl nonempty
  | cons r rest ih =>
    rw [List.foldl_cons, printer_items]
    cases rest with
    | nil => simp
    | cons r' rest =>
      have more : (r' :: rest).flatMap itemsOf ≠ [] := by
        rw [List.flatMap_cons]
        exact List.append_ne_nil_of_left_ne_nil (itemsOf_ne_nil r') _
      have parts : (r :: r' :: rest).flatMap itemsOf = itemsOf r ++ (r' :: rest).flatMap itemsOf := List.flatMap_cons
      rw [ih (List.cons_ne_nil _ _), parts, listed_append (itemsOf_ne_nil r) more]
      simp

theorem number_printLu {v : Nat} (positive : 1 ≤ v) (small : v < 2 ^ 64) :
    Number (printLu v) ∧ value (printLu v) = v := by
  have number : Number (printLu v) :=
    ⟨printLu_ne_nil v, printLu_digits v, by rw [decimal_printLu]; exact positive, by rwa [decimal_printLu]⟩
  exact ⟨number, by rw [(number_whole number).2, decimal_printLu]⟩

/-- The ranges that are read for a range: itself, or two of one message each. -/
def pieces (r : Msgrange) : List Msgrange :=
  if r.msg_end = r.msg_beg + 1 then [⟨r.msg_beg, r.msg_beg⟩, ⟨r.msg_end, r.msg_end⟩] else [r]

variable {r : Msgrange}

theorem itemsOf_numbers (valid : r.Valid) : ∀ item ∈ itemsOf r, item.Each Number := by
  obtain ⟨positive, inOrder, small, small'⟩ := valid
  have first := (number_printLu positive small).1
  have last (finite : r.msg_end ≠ 0) := (number_printLu (Nat.one_le_iff_ne_zero.mpr finite) small').1
  unfold itemsOf
  split_ifs with same opened two
  · exact List.forall_mem_singleton.mpr first
  · exact List.forall_mem_singleton.mpr first
  · exact List.forall_mem_cons.mpr ⟨first, List.forall_mem_singleton.mpr (last opened)⟩
  · exact List.forall_mem_singleton.mpr ⟨first, last opened⟩

theorem itemsOf_stored (valid : r.Valid) : (itemsOf r).map Item.stored = pieces r := by
  obtain ⟨positive, inOrder, small, small'⟩ := valid
  have first := (number_printLu positive small).2
  have last (finite : r.msg_end ≠ 0) := (number_printLu (Nat.one_le_iff_ne_zero.mpr finite) small').2
  have one (v : Nat) : ordered v v = ⟨v, v⟩ := if_neg fun swapped => Nat.lt_irrefl _ swapped.2
  have kept : ordered r.msg_beg r.msg_end = r := if_neg fun swapped => by
    have := inOrder.resolve_left swapped.1
    omega
  have next : size (r.msg_beg + 1) = r.msg_beg + 1 ∨ size (r.msg_beg + 1) = 0 ∧ r.msg_beg + 1 = 2 ^ 64 := by
    unfold size
    omega
  unfold itemsOf pieces
  split_ifs with same split opened split two split split
  · omega
  · have alone : ordered r.msg_beg r.msg_beg = r := (congrArg (ordered r.msg_beg) same).trans kept
    simp only [List.map_singleton, Item.stored, first, alone]
  · omega
  · simp only [List.map_singleton, Item.stored, first]
    rw [← opened, kept]
  · simp only [List.map_cons, List.map_nil, Item.stored, first, last opened, one]
  · omega
  · omega
  · simp only [List.map_singleton, Item.stored, first, last opened, kept]

theorem pieces_has (valid : r.Valid) (n : Nat) : Has (pieces r) n ↔ r.Has n := by
  unfold pieces
  split
  · next two =>
    have positive := valid.1
    simp only [Has, List.mem_cons, List.not_mem_nil, or_false, exists_eq_or_imp, exists_eq_left, Msgrange.Has,
      MU_MSGNO_LAST]
    omega
  · simp [Has]

theorem pieces_valid (valid : r.Valid) : ∀ s ∈ pieces r, s.Valid := by
  unfold pieces
  split
  · next two =>
    obtain ⟨positive, inOrder, small, small'⟩ := valid
    refine List.forall_mem_cons.mpr ⟨⟨positive, .inr (Nat.le_refl _), small, small⟩,
      List.forall_mem_singleton.mpr ⟨?_, .inr (Nat.le_refl _), small', small'⟩⟩
    dsimp only
    omega
  · exact List.forall_mem_singleton.mpr valid

variable {list : List Msgrange}

theorem canonical_first (canonical : Canonical (r :: list)) {n : Nat}
    (has : Has (r :: list) n) : r.msg_beg ≤ n := by
  rcases (has_cons r list n).mp has with here | ⟨s, member, there⟩
  · exact here.1
  · exact Nat.le_trans (Nat.le_of_lt ((List.pairwise_cons.mp canonical).1 s member).1) there.1

theorem canonical_gap (canonical : Canonical list) (member : r ∈ list)
    (valid : r.Valid) (closed : r.msg_end ≠ MU_MSGNO_LAST) : ¬ Has list (r.msg_end + 1) := by
  have inOrder := valid.2.1.resolve_left closed
  induction list with
  | nil => exact not_has_nil _
  | cons a rest ih =>
    obtain ⟨apart, canonical'⟩ := List.pairwise_cons.mp canonical
    rw [has_cons]
    rcases List.mem_cons.mp member with rfl | later
    · rintro (here | ⟨s, memberS, there⟩)
      · have := ((has_closed closed _).mp here).2
        omega
      · have := (apart s memberS).2.2
        have := there.1
        omega
    · rintro (here | there)
      · obtain ⟨-, closedA, gap⟩ := apart r later
        have := ((has_closed closedA _).mp here).2
        omega
      · exact ih canonical' later there

theorem canonical_rest (canonical : Canonical (r :: list)) (n : Nat) :
    Has list n ↔ Has (r :: list) n ∧ ¬ r.Has n := by
  rw [has_cons]
  constructor
  · rintro ⟨s, member, has⟩
    refine ⟨.inr ⟨s, member, has⟩, fun here => ?_⟩
    obtain ⟨-, closed, apart⟩ := (List.pairwise_cons.mp canonical).1 s member
    have := ((has_closed closed n).mp here).2
    have := has.1
    omega
  · rintro ⟨here | there, other⟩
    · exact absurd here other
    · exact there

/-- Ranges in canonical form are determined by their messages. -/
theorem canonical_ext {list list' : List Msgrange} (canonical : Canonical list) (canonical' : Canonical list')
    (valid : ∀ r ∈ list, r.Valid) (valid' : ∀ r ∈ list', r.Valid) (same : ∀ n, Has list n ↔ Has list' n) :
    list = list' := by
  -- the first message of a range is in the set
  have begins {r : Msgrange} (valid : r.Valid) (list : List Msgrange) : Has (r :: list) r.msg_beg :=
    ⟨r, List.mem_cons_self, Nat.le_refl _, valid.2.1⟩
  induction list generalizing list' with
  | nil =>
    cases list' with
    | nil => rfl
    | cons b list' => exact absurd ((same _).mpr (begins (valid' b List.mem_cons_self) list')) (not_has_nil _)
  | cons a list ih =>
    obtain ⟨validA, valid⟩ := List.forall_mem_cons.mp valid
    cases list' with
    | nil => exact absurd ((same _).mp (begins validA list)) (not_has_nil _)
    | cons b list' =>
      obtain ⟨validB, validRest⟩ := List.forall_mem_cons.mp valid'
      have begs : a.msg_beg = b.msg_beg := Nat.le_antisymm
        (canonical_first canonical ((same _).mpr (begins validB list')))
        (canonical_first canonical' ((same _).mp (begins validA list)))
      -- neither range goes on beyond the gap behind the other
      have ends : a.msg_end = b.msg_end := by
        have stopsA (closed : a.msg_end ≠ MU_MSGNO_LAST) : ¬ b.Has (a.msg_end + 1) :=
          fun has => canonical_gap canonical List.mem_cons_self validA closed
            ((same _).mpr ⟨b, List.mem_cons_self, has⟩)
        have stopsB (closed : b.msg_end ≠ MU_MSGNO_LAST) : ¬ a.Has (b.msg_end + 1) :=
          fun has => canonical_gap canonical' List.mem_cons_self validB closed
            ((same _).mp ⟨a, List.mem_cons_self, has⟩)
        have orderA := validA.2.1
        have orderB := validB.2.1
        unfold Msgrange.Has at stopsA stopsB
        simp only [MU_MSGNO_LAST] at *
        omega
      obtain rfl : a = b := by
        cases a
        cases b
        simp only [Msgrange.mk.injEq]
        exact ⟨begs, ends⟩
      have rest (n : Nat) : Has list n ↔ Has list' n := by
        rw [canonical_rest canonical, canonical_rest canonical', same]
      rw [ih (List.pairwise_cons.mp canonical).2 (List.pairwise_cons.mp canonical').2 valid validRest rest]

/-- The set that calls with these ranges build. -/
def added (mode : Nat) (calls : List (Nat × Nat)) : Msgset :=
  calls.foldl (fun mset call => (mu_msgset_add_range untranslated mset call.1 call.2 mode).2) ⟨[], false, mode⟩

theorem added_valid (mode : Nat) (calls : List (Nat × Nat))
    (fit : ∀ call ∈ calls, call.1 < 2 ^ 64 ∧ call.2 < 2 ^ 64) :
    (added mode calls).aggregated = false ∧ ∀ r ∈ (added mode calls).list, r.Valid := by
  have run (calls : List (Nat × Nat)) (mset : Msgset) (fit : ∀ call ∈ calls, call.1 < 2 ^ 64 ∧ call.2 < 2 ^ 64)
      (start : mset.mode = mode ∧ mset.aggregated = false ∧ ∀ r ∈ mset.list, r.Valid) :
      (calls.foldl (fun mset call => (mu_msgset_add_range untranslated mset call.1 call.2 mode).2)
          mset).aggregated = false ∧
        ∀ r ∈ (calls.foldl (fun mset call => (mu_msgset_add_range untranslated mset call.1 call.2 mode).2) mset).list,
          r.Valid := by
    induction calls generalizing mset with
    | nil => exact start.2
    | cons call calls ih =>
      obtain ⟨fitCall, fit⟩ := List.forall_mem_cons.mp fit
      obtain ⟨rfl, fresh, valid⟩ := start
      rw [List.foldl_cons]
      refine ih _ fit ?_
      by_cases none : call.1 = 0
      · rw [mu_msgset_add_range, if_pos none]
        exact ⟨rfl, fresh, valid⟩
      · rw [add_range_ok untranslated mset call.2 none]
        refine ⟨rfl, rfl, fun r member => ?_⟩
        rcases List.mem_append.mp member with member | last
        · exact valid r member
        · rw [List.mem_singleton.mp last]
          exact ordered_valid none fitCall.1 fitCall.2
  exact run calls _ fit ⟨rfl, rfl, fun r member => absurd member List.not_mem_nil⟩

variable {mset : Msgset}

theorem format_text (joined : (mu_msgset_aggregate mset).list = list)
    (nonempty : mset.list ≠ []) (some_range : list ≠ []) :
    (mu_stream_msgset_format MU_MSGSET_FMT_IMAP mset).1 = listed (list.flatMap itemsOf) := by
  rw [mu_stream_msgset_format, if_neg nonempty, joined]
  exact printed_items list some_range _

/-- What is read of the text of a set. -/
def reread (mset : Msgset) (mode : Nat) : Code × Msgset × List UInt8 :=
  mu_msgset_parse_imap untranslated none ⟨[], false, mode⟩ mode (mu_stream_msgset_format MU_MSGSET_FMT_IMAP mset).1

theorem push_fresh (items : List Item) (fresh : mset.aggregated = false) :
    (items.foldl (fun mset item => mset.push item.stored) mset).aggregated = false := by
  induction items generalizing mset with
  | nil => exact fresh
  | cons item items ih => exact ih rfl

theorem reread_pieces (joined : (mu_msgset_aggregate mset).list = list)
    (nonempty : mset.list ≠ []) (some_range : list ≠ []) (valid : ∀ r ∈ list, r.Valid) (mode : Nat) :
    (reread mset mode).1 = .ok ∧ (reread mset mode).2.1.list = list.flatMap pieces ∧
      (reread mset mode).2.1.aggregated = false := by
  have numbers : ∀ item ∈ list.flatMap itemsOf, item.Each Number := by
    intro item member
    obtain ⟨r, memberR, here⟩ := List.mem_flatMap.mp member
    exact itemsOf_numbers (valid r memberR) item here
  have some_item : list.flatMap itemsOf ≠ [] := by
    obtain ⟨r, rest, rfl⟩ := List.exists_cons_of_ne_nil some_range
    rw [List.flatMap_cons]
    exact List.append_ne_nil_of_left_ne_nil (itemsOf_ne_nil r) _
  have read := parse_imap_listed (fun item member => numbers_whole (numbers item member))
    (numbers_ended some_item numbers) ⟨[], false, mode⟩ mode
  rw [reread, format_text joined nonempty some_range, read]
  refine ⟨rfl, ?_, push_fresh _ rfl⟩
  rw [push_list, List.nil_append, List.map_flatMap]
  exact List.flatMap_congr fun r member => itemsOf_stored (valid r member)

theorem flatMap_pieces_has (valid : ∀ r ∈ list, r.Valid) (n : Nat) :
    Has (list.flatMap pieces) n ↔ Has list n := by
  constructor
  · rintro ⟨s, member, has⟩
    obtain ⟨r, memberR, here⟩ := List.mem_flatMap.mp member
    exact ⟨r, memberR, (pieces_has (valid r memberR) n).mp ⟨s, here, has⟩⟩
  · rintro ⟨r, member, has⟩
    obtain ⟨s, here, has⟩ := (pieces_has (valid r member) n).mpr has
    exact ⟨s, List.mem_flatMap.mpr ⟨r, member, here⟩, has⟩

/-- There is a gap behind every closed piece, so that the pieces can be joined altogether. -/
theorem pieces_joinable (canonical : Canonical list) (valid : ∀ r ∈ list, r.Valid) :
    Joinable (list.flatMap pieces) := by
  intro c member closed all
  obtain ⟨r, memberR, piece⟩ := List.mem_flatMap.mp member
  have within : r.msg_end ≠ MU_MSGNO_LAST ∧ c.msg_end ≤ r.msg_end := by
    unfold pieces at piece
    split at piece
    · next two =>
      have : r.msg_end ≠ MU_MSGNO_LAST := by
        rw [two]
        exact Nat.succ_ne_zero _
      refine ⟨this, ?_⟩
      rcases List.mem_cons.mp piece with rfl | last
      · dsimp only
        omega
      · rw [List.mem_singleton.mp last]
    · rw [List.mem_singleton.mp piece] at closed ⊢
      exact ⟨closed, Nat.le_refl _⟩
  have gap := canonical_gap canonical memberR (valid r memberR) within.1
  exact absurd ((flatMap_pieces_has valid _).mp (all (r.msg_end + 1) (by omega))) gap

/-- The text of a set is read as a set of the same messages, and that set has the same text if the ranges of the first
    one can be joined altogether. -/
theorem print_parse (mode : Nat) (calls : List (Nat × Nat))
    (fit : ∀ call ∈ calls, call.1 < 2 ^ 64 ∧ call.2 < 2 ^ 64) (nonempty : (added mode calls).list ≠ []) (mode' : Nat) :
    (reread (added mode calls) mode').1 = .ok ∧
      (∀ n, Has (reread (added mode calls) mode').2.1.list n ↔ Has (added mode calls).list n) ∧
      (Joinable (added mode calls).list →
        (mu_stream_msgset_format MU_MSGSET_FMT_IMAP (reread (added mode calls) mode').2.1).1 =
          (mu_stream_msgset_format MU_MSGSET_FMT_IMAP (added mode calls)).1) := by
  obtain ⟨fresh, valid⟩ := added_valid mode calls fit
  generalize added mode calls = mset at *
  obtain ⟨front, back, joined, outcome⟩ := aggregate_outcome mset fresh valid
  have validL := outcome.nearly.valid
  obtain ⟨n, some_message⟩ : ∃ n, Has mset.list n := by
    obtain ⟨r, member⟩ := List.exists_mem_of_ne_nil _ nonempty
    exact ⟨r.msg_beg, r, member, Nat.le_refl _, (valid r member).2.1⟩
  have some_range : front ++ back ≠ [] := by
    intro none
    exact not_has_nil n (none ▸ (outcome.has n).mpr some_message)
  obtain ⟨ok, list, fresh'⟩ := reread_pieces joined nonempty some_range validL mode'
  have has (n : Nat) : Has (reread mset mode').2.1.list n ↔ Has mset.list n := by
    rw [list, flatMap_pieces_has validL, outcome.has]
  refine ⟨ok, has, fun joinable => ?_⟩
  have canonical := outcome.canonical.mpr joinable
  generalize (reread mset mode').2.1 = again at list fresh' has ⊢
  have valid' : ∀ r ∈ again.list, r.Valid := by
    intro s member
    rw [list] at member
    obtain ⟨r, memberR, here⟩ := List.mem_flatMap.mp member
    exact pieces_valid (validL r memberR) s here
  obtain ⟨front', back', joined', outcome'⟩ := aggregate_outcome again fresh' valid'
  have same : front' ++ back' = front ++ back := by
    refine canonical_ext (outcome'.canonical.mpr ?_) canonical outcome'.nearly.valid validL fun n => ?_
    · rw [list]
      exact pieces_joinable canonical validL
    · rw [outcome'.has, has, outcome.has]
  have nonempty' : again.list ≠ [] := by
    intro none
    exact not_has_nil n (none ▸ (has n).mpr some_message)
  rw [format_text (joined'.trans same) nonempty' some_range, format_text joined nonempty some_range]

theorem print_parse_case :
    (mu_stream_msgset_format MU_MSGSET_FMT_IMAP (added 0 [(4, 2), (7, 8), (5, 5)])).1 = ascii "2:5,7,8" ∧
      (mu_stream_msgset_format MU_MSGSET_FMT_IMAP (reread (added 0 [(4, 2), (7, 8), (5, 5)]) 0).2.1).1 =
        ascii "2:5,7,8" := by
  have text : (mu_stream_msgset_format MU_MSGSET_FMT_IMAP (added 0 [(4, 2), (7, 8), (5, 5)])).1 =
      ascii "2:5,7,8" := by decide +kernel
  have again := (print_parse 0 [(4, 2), (7, 8), (5, 5)] (by decide) (by decide) 0).2.2 (joinable_closed (by decide))
  exact ⟨text, again.trans text⟩

/-- A finite range that reaches the open one is left beside it by the first printing, and joined to it by the second. -/
theorem printed_apart :
    (mu_stream_msgset_format MU_MSGSET_FMT_IMAP (added 0 [(1, 20), (5, 6), (10, 0)])).1 = ascii "1:20,10:*" ∧
      (mu_stream_msgset_format MU_MSGSET_FMT_IMAP (reread (added 0 [(1, 20), (5, 6), (10, 0)]) 0).2.1).1 =
        ascii "1:*" ∧ ascii "1:20,10:*" ≠ ascii "1:*" := by
  decide +kernel

end Mailutils.MessageSet

import Mailutils.MsgsetAdd
import Mailutils.Text

/-!
Message sets from strings (`libmailutils/msgset/parse.c`). The numbers are read by `strtoul`, and one that is less than
the smallest number is taken for that. So a number may be missing, or zero, or have a sign or blanks before it, and
just these strings are taken besides the sequence sets of IMAP (`parse_imap_iff`).
-/
namespace Mailutils.MessageSet
open Mailutils.Text

/-- `struct parse_msgnum_env`, with what is at `s`; there is no mode (`MU_MSGSET_EMPTY`) for an empty mailbox. -/
structure Env where
  s : List UInt8
  minval : Nat
  maxval : Nat
  msgset : Msgset
  mode : Option Nat

/-- The number, and what follows it. -/
def get_msgnum (env : Env) (s : List UInt8) : Except Code (Nat × List UInt8) :=
  let msgnum := (strtoul s).1
  if msgnum = ulong - 1 ∧ strtoul_erange s then .error .MU_ERR_PARSE
  else
    let msgnum := if env.minval ≠ 0 ∧ msgnum < env.minval then env.minval else msgnum
    let msgnum := if env.maxval ≠ 0 ∧ msgnum > env.maxval then env.maxval else msgnum
    .ok (msgnum, (strtoul s).2)

/-- The first number of a range. -/
def range_beg (env : Env) : Except Code (Nat × List UInt8) :=
  if env.s.head? = some STAR then .ok (env.maxval, env.s.tail) else get_msgnum env env.s

/-- The last number of a range, behind the first one. -/
def range_end (env : Env) (msg_beg : Nat) (s : List UInt8) : Except Code (Nat × List UInt8) :=
  if s.head? = some COLON then
    if s.tail.head? = some STAR then .ok (env.maxval, s.tail.tail)
    else if s.tail = [] then .error .MU_ERR_PARSE
    else get_msgnum env s.tail
  else .ok (msg_beg, s)

def parse_msgrange (translate : Nat → Nat → Except Code (Nat × Nat)) (env : Env) : Code × Env :=
  match range_beg env with
  | .error rc => (rc, env)
  | .ok (msg_beg, s) =>
    match range_end env msg_beg s with
    | .error rc => (rc, { env with s := s.tail })
    | .ok (msg_end, s) =>
      let pair := if msg_end ≠ 0 ∧ msg_end < msg_beg then (msg_end, msg_beg) else (msg_beg, msg_end)
      match env.mode with
      | none => (.ok, { env with s })
      | some mode =>
        let (rc, msgset) := mu_msgset_add_range translate env.msgset pair.1 pair.2 mode
        (rc, { env with s, msgset })

variable {env : Env}

theorem get_msgnum_suffix {s rest : List UInt8} {n : Nat} (read : get_msgnum env s = .ok (n, rest)) :
    rest = (strtoul s).2 := by
  unfold get_msgnum at read
  dsimp only at read
  split at read
  · cases read
  · exact (Prod.mk.inj (Except.ok.inj read)).2.symm

private theorem range_beg_shorter {rest : List UInt8} {n : Nat} (read : range_beg env = .ok (n, rest)) :
    rest.length ≤ env.s.length := by
  unfold range_beg at read
  split at read
  · obtain ⟨-, rfl⟩ := Prod.mk.inj (Except.ok.inj read)
    simp
  · rw [get_msgnum_suffix read]
    exact (strtoul_suffix _).length_le

private theorem range_end_shorter {s rest : List UInt8} {beg n : Nat} (read : range_end env beg s = .ok (n, rest)) :
    rest.length ≤ s.length := by
  unfold range_end at read
  split at read
  · split at read
    · obtain ⟨-, rfl⟩ := Prod.mk.inj (Except.ok.inj read)
      simp
      omega
    · split at read
      · cases read
      · rw [get_msgnum_suffix read]
        have := (strtoul_suffix s.tail).length_le
        simp at this
        omega
  · obtain ⟨-, rfl⟩ := Prod.mk.inj (Except.ok.inj read)
    exact Nat.le_refl _

theorem parse_msgrange_shorter (translate : Nat → Nat → Except Code (Nat × Nat)) (env : Env) :
    (parse_msgrange translate env).2.s.length ≤ env.s.length := by
  unfold parse_msgrange
  split
  · exact Nat.le_refl _
  · next beg s read =>
    have first := range_beg_shorter read
    split
    · dsimp only
      rw [List.length_tail]
      omega
    · next fin rest read' =>
      have second := range_end_shorter read'
      dsimp only
      split
      · exact Nat.le_trans second first
      · exact Nat.le_trans second first

/-- The loop of `mu_msgset_parse_imap`. -/
def parse_loop (translate : Nat → Nat → Except Code (Nat × Nat)) (env : Env) : Code × Env :=
  let result := parse_msgrange translate env
  let rest := result.2.s
  if result.1 ≠ .ok ∨ rest = [] then result
  else if rest.head? ≠ some COMMA then (.MU_ERR_PARSE, result.2)
  else if rest.tail = [] then (.MU_ERR_PARSE, { result.2 with s := rest.tail })
  else parse_loop translate { result.2 with s := rest.tail }
termination_by env.s.length
decreasing_by
  rename_i more _ _
  have := List.length_pos_iff.mpr fun none => more (.inr none)
  have shorter : rest.length ≤ env.s.length := parse_msgrange_shorter translate env
  show rest.tail.length < env.s.length
  rw [List.length_tail]
  omega

/-- The smallest and the largest number, and the mode. -/
def parse_bounds (mbox : Option Mailbox) (mode : Nat) : Except Code (Nat × Nat × Option Nat) :=
  match mbox with
  | none => .ok (1, 0, some mode)
  | some mbox => do
    let lastmsgno ← mbox.messages_count
    if lastmsgno = 0 then return (1, 0, none)
    else if mode = MU_MSGSET_UID then
      let maxval ← mbox.msgno_to_uid lastmsgno
      let minval ← mbox.msgno_to_uid 1
      return (minval, maxval, some mode)
    else return (1, lastmsgno, some mode)

/-- The result, the set, and what is at `end`. -/
def mu_msgset_parse_imap (translate : Nat → Nat → Except Code (Nat × Nat)) (mbox : Option Mailbox)
    (mset : Msgset) (mode : Nat) (s : List UInt8) : Code × Msgset × List UInt8 :=
  if s = [] then (.MU_ERR_PARSE, mset, s)
  else
    match parse_bounds mbox mode with
    | .error rc => (rc, mset, s)
    | .ok (minval, maxval, mode) =>
      let (rc, env) := parse_loop translate ⟨s, minval, maxval, mset, mode⟩
      (rc, env.msgset, env.s)

/-- The number is read by `strtoul` to its end; it may as well be missing. -/
def Whole (t : List UInt8) : Prop := (strtoul t).2 = [] ∧ strtoul_erange t = false

instance (t : List UInt8) : Decidable (Whole t) := inferInstanceAs (Decidable (_ ∧ _))

/-- The digits of a positive number that fits `size_t`. -/
def Number (t : List UInt8) : Prop := t ≠ [] ∧ (∀ c ∈ t, isdigit c) ∧ 0 < decimal t ∧ decimal t < 2 ^ 64

instance (t : List UInt8) : Decidable (Number t) := inferInstanceAs (Decidable (_ ∧ _))

/-- What a number is taken for. -/
def value (t : List UInt8) : Nat := max 1 (strtoul t).1

theorem number_whole {t : List UInt8} (number : Number t) : Whole t ∧ value t = decimal t := by
  obtain ⟨nonempty, digits, positive, small⟩ := number
  have read := @convertLu_digits t [] nonempty digits (by intro c stop; cases stop)
  obtain ⟨start, sign⟩ := @digits_start t [] nonempty digits
  have taken := (@takeWhile_digits t [] digits (by intro c stop; cases stop)).1
  rw [List.append_nil] at read start sign taken
  have below : ¬ ulong ≤ decimal t := Nat.not_le.mpr small
  have reads : strtoul t = (decimal t, []) := by rw [strtoul, read, if_neg below]; rfl
  refine ⟨⟨by rw [reads], ?_⟩, by rw [value, reads]; exact Nat.max_eq_right positive⟩
  rw [strtoul_erange, start, if_neg sign, taken]
  exact decide_eq_false below

/-- Blanks, a sign and digits. -/
structure Signed (blanks sign digits : List UInt8) : Prop where
  blanks : ∀ c ∈ blanks, isspace c = true
  sign : sign = [] ∨ sign = [PLUS] ∨ sign = [MINUS]
  digits : digits ≠ [] ∧ ∀ c ∈ digits, isdigit c = true

theorem Signed.read {blanks sign digits : List UInt8} (signed : Signed blanks sign digits) {rest : List UInt8}
    (stops : NoDigit rest) :
    strtoul (blanks ++ sign ++ digits ++ rest) =
      (if ulong ≤ decimal digits then ulong - 1 else if sign = [MINUS] then (ulong - decimal digits) % ulong
        else decimal digits, rest) ∧
    strtoul_erange (blanks ++ sign ++ digits ++ rest) = decide (ulong ≤ decimal digits) := by
  obtain ⟨taken, dropped⟩ := takeWhile_digits signed.digits.2 stops
  obtain ⟨start, unsigned⟩ := @digits_start digits rest signed.digits.1 signed.digits.2
  have behind : (blanks ++ sign ++ digits ++ rest).dropWhile isspace = (sign ++ digits ++ rest).dropWhile isspace := by
    rw [List.append_assoc, List.append_assoc, List.dropWhile_append_of_pos signed.blanks, List.append_assoc]
  rw [strtoul, convertLu, strtoul_erange, behind]
  rcases signed.sign with rfl | rfl | rfl
  · rw [List.nil_append, start, if_neg unsigned, taken, dropped, if_neg signed.digits.1]
    simp only
    rw [if_neg fun minus => unsigned (.inr minus)]
    simp
  · have kept : ([PLUS] ++ digits ++ rest).dropWhile isspace = PLUS :: (digits ++ rest) :=
      List.dropWhile_cons_of_neg (by decide)
    rw [kept]
    simp [taken, dropped, signed.digits.1, show PLUS ≠ MINUS by decide]
  · have kept : ([MINUS] ++ digits ++ rest).dropWhile isspace = MINUS :: (digits ++ rest) :=
      List.dropWhile_cons_of_neg (by decide)
    rw [kept]
    simp [taken, dropped, signed.digits.1]

theorem strtoul_cases (s : List UInt8) : (strtoul s = (0, s) ∧ strtoul_erange s = false) ∨
    ∃ blanks sign digits rest, Signed blanks sign digits ∧ NoDigit rest ∧ s = blanks ++ sign ++ digits ++ rest := by
  have split := (List.takeWhile_append_dropWhile (p := isspace) (l := s)).symm
  rw [strtoul, convertLu, strtoul_erange]
  -- the sign, and what is behind it
  obtain ⟨sign, unsigned, signs, shape, behind⟩ : ∃ sign unsigned : List UInt8,
      (sign = [] ∨ sign = [PLUS] ∨ sign = [MINUS]) ∧ s.dropWhile isspace = sign ++ unsigned ∧
      (if (s.dropWhile isspace).head? = some PLUS ∨ (s.dropWhile isspace).head? = some MINUS then
        (s.dropWhile isspace).tail else s.dropWhile isspace) = unsigned := by
    cases start : s.dropWhile isspace with
    | nil => exact ⟨[], [], .inl rfl, rfl, rfl⟩
    | cons c rest =>
      by_cases plus : c = PLUS
      · exact ⟨[PLUS], rest, .inr (.inl rfl), by rw [plus]; rfl, by simp [plus]⟩
      · by_cases minus : c = MINUS
        · exact ⟨[MINUS], rest, .inr (.inr rfl), by rw [minus]; rfl, by simp [minus]⟩
        · exact ⟨[], c :: rest, .inl rfl, rfl, by simp [plus, minus]⟩
  rw [behind]
  by_cases none : unsigned.takeWhile isdigit = []
  · left
    rw [if_pos none, none]
    exact ⟨rfl, rfl⟩
  · right
    refine ⟨s.takeWhile isspace, sign, unsigned.takeWhile isdigit, unsigned.dropWhile isdigit,
      ⟨fun c => List.mem_takeWhile_imp, signs, none, fun c => List.mem_takeWhile_imp⟩, ?_, ?_⟩
    · intro c here
      have stop := List.head?_dropWhile_not isdigit unsigned
      rw [Option.mem_def.mp here] at stop
      exact stop
    · rw [List.append_assoc, List.takeWhile_append_dropWhile, List.append_assoc, ← shape]
      exact split

theorem whole_chars {t : List UInt8} (whole : Whole t) : ∀ c ∈ t, isspace c ∨ c = PLUS ∨ c = MINUS ∨ isdigit c := by
  rcases strtoul_cases t with ⟨nothing, -⟩ | ⟨blanks, sign, digits, rest, signed, stops, shape⟩
  · have empty := whole.1
    rw [nothing] at empty
    simp [show t = [] from empty]
  · have none := whole.1
    rw [shape, (signed.read stops).1] at none
    rw [shape, show rest = [] from none, List.append_nil]
    intro c member
    rcases List.mem_append.mp member with member | digit
    · rcases List.mem_append.mp member with blank | member
      · exact .inl (signed.blanks c blank)
      · rcases signed.sign with rfl | rfl | rfl
        · cases member
        · exact .inr (.inl (List.mem_singleton.mp member))
        · exact .inr (.inr (.inl (List.mem_singleton.mp member)))
    · exact .inr (.inr (.inr (signed.digits.2 c digit)))

theorem strtoul_reads (s : List UInt8) :
    ∃ t, s = t ++ (strtoul s).2 ∧ strtoul t = ((strtoul s).1, []) ∧ strtoul_erange t = strtoul_erange s := by
  rcases strtoul_cases s with ⟨nothing, small⟩ | ⟨blanks, sign, digits, rest, signed, stops, shape⟩
  · exact ⟨[], by rw [nothing]; rfl, by rw [nothing]; rfl, by rw [small]; rfl⟩
  · have alone := @Signed.read blanks sign digits signed [] (by intro c here; cases here)
    rw [List.append_nil] at alone
    have whole := signed.read stops
    rw [← shape] at whole
    exact ⟨blanks ++ sign ++ digits, by rw [whole.1, shape], by rw [alone.1, whole.1], by rw [alone.2, whole.2]⟩

/-- An item of a sequence set, with the texts of its numbers. -/
inductive Item
  | single (n : List UInt8)
  | range (n m : List UInt8)
  | opened (n : List UInt8)

def Item.text : Item → List UInt8
  | .single n => n
  | .range n m => n ++ COLON :: m
  | .opened n => n ++ [COLON, STAR]

/-- What holds of each number of an item. -/
def Item.Each (P : List UInt8 → Prop) : Item → Prop
  | .single n => P n
  | .range n m => P n ∧ P m
  | .opened n => P n

/-- The range that is added for an item. -/
def Item.stored : Item → Msgrange
  | .single n => ordered (value n) (value n)
  | .range n m => ordered (value n) (value m)
  | .opened n => ordered (value n) 0

/-- The messages of an item. -/
def Item.Has : Item → Nat → Prop
  | .single n, k => k = decimal n
  | .range n m, k => min (decimal n) (decimal m) ≤ k ∧ k ≤ max (decimal n) (decimal m)
  | .opened n, k => decimal n ≤ k

/-- Items with commas between them. -/
def listed (items : List Item) : List UInt8 := [COMMA].intercalate (items.map Item.text)

/-- The string is a sequence set of IMAP, with these items. -/
def SequenceSet (items : List Item) (s : List UInt8) : Prop :=
  items ≠ [] ∧ (∀ item ∈ items, item.Each Number) ∧ s = listed items

/-- The last number is not missing. -/
def Ended (s : List UInt8) : Prop := ∃ c ∈ s.getLast?, c ≠ COMMA ∧ c ≠ COLON

/-- The string is such a list, but a number in it is missing, or zero, or has a sign or blanks before it; the last
    number is not missing. -/
def Loose (s : List UInt8) : Prop :=
  ∃ items, (∀ item ∈ items, item.Each Whole) ∧ s = listed items ∧ Ended s ∧ ∃ item ∈ items, ¬ item.Each Number

/-- Without a mailbox nothing is translated. -/
def untranslated (beg fin : Nat) : Except Code (Nat × Nat) := .ok (beg, fin)

/-- The parser without a mailbox. -/
def parser (mset : Msgset) (mode : Nat) (s : List UInt8) : Env := ⟨s, 1, 0, mset, some mode⟩

/-- A set with one more range. -/
def Msgset.push (mset : Msgset) (r : Msgrange) : Msgset := { mset with list := mset.list ++ [r], aggregated := false }

section
variable {mset : Msgset} {mode : Nat}

theorem erange_value (s : List UInt8) (large : strtoul_erange s = true) : (strtoul s).1 = ulong - 1 := by
  rcases strtoul_cases s with ⟨-, small⟩ | ⟨blanks, sign, digits, rest, signed, stops, shape⟩
  · exact absurd (small.symm.trans large) Bool.false_ne_true
  · have read := signed.read stops
    rw [← shape, large] at read
    rw [read.1, if_pos (of_decide_eq_true read.2.symm)]

theorem get_msgnum_eq (text s : List UInt8) : get_msgnum (parser mset mode text) s =
    if strtoul_erange s then .error .MU_ERR_PARSE else .ok (value s, (strtoul s).2) := by
  have clamped : (if (1 : Nat) ≠ 0 ∧ (strtoul s).1 < 1 then 1 else (strtoul s).1) = value s := by
    unfold value
    split <;> omega
  unfold get_msgnum parser
  dsimp only
  rw [clamped]
  by_cases large : strtoul_erange s = true
  · rw [if_pos ⟨erange_value s large, large⟩, if_pos large]
  · rw [if_neg fun both => large both.2, if_neg large]
    simp

variable {n rest : List UInt8}

theorem get_whole (whole : Whole n) (stops : Stops rest) (text : List UInt8) :
    get_msgnum (parser mset mode text) (n ++ rest) = .ok (value n, rest) := by
  have read := strtoul_append stops n
  rw [get_msgnum_eq, erange_append stops, whole.2, value, read, whole.1]
  rfl

theorem get_back {text s rest : List UInt8} {v : Nat} (read : get_msgnum (parser mset mode text) s = .ok (v, rest)) :
    ∃ n, Whole n ∧ s = n ++ rest ∧ v = value n := by
  rw [get_msgnum_eq] at read
  split at read
  · cases read
  · next small =>
    obtain ⟨rfl, rfl⟩ := Prod.mk.inj (Except.ok.inj read)
    obtain ⟨n, shape, reads, same⟩ := strtoul_reads s
    exact ⟨n, ⟨by rw [reads], same.trans (Bool.not_eq_true _ ▸ small)⟩, shape, by rw [value, value, reads]⟩

theorem value_ne_zero (n : List UInt8) : value n ≠ 0 := by
  unfold value
  omega

theorem add_untranslated (r : Msgrange) (positive : r.msg_beg ≠ 0) (inOrder : r.msg_end = 0 ∨ r.msg_beg ≤ r.msg_end) :
    mu_msgset_add_range untranslated mset r.msg_beg r.msg_end mode = (.ok, mset.push r) := by
  unfold mu_msgset_add_range
  rw [if_neg positive, if_neg (by omega)]
  simp only [untranslated, ite_self]
  rfl

theorem ordered_pair (v w : Nat) :
    (if w ≠ 0 ∧ w < v then (w, v) else (v, w)) = ((ordered v w).msg_beg, (ordered v w).msg_end) := by
  unfold ordered
  split <;> rfl

theorem add_ordered {v w : Nat} (positive : v ≠ 0) : mu_msgset_add_range untranslated mset
    (if w ≠ 0 ∧ w < v then (w, v) else (v, w)).1 (if w ≠ 0 ∧ w < v then (w, v) else (v, w)).2 mode =
      (.ok, mset.push (ordered v w)) := by
  rw [ordered_pair]
  refine add_untranslated _ ?_ ?_
  · unfold ordered
    split
    · next swapped => exact swapped.1
    · exact positive
  · unfold ordered
    split
    · next swapped => exact .inr (Nat.le_of_lt swapped.2)
    · dsimp only
      omega

/-- What may follow an item. -/
def Follows (rest : List UInt8) : Prop := rest = [] ∨ rest.head? = some COMMA

theorem follows_stops {rest : List UInt8} (follows : Follows rest) : Stops rest := by
  intro c here
  rcases follows with rfl | comma
  · cases here
  · obtain rfl : COMMA = c := Option.some.inj (comma.symm.trans here)
    decide

theorem head_ne_star (whole : Whole n) (other : rest.head? ≠ some STAR) :
    (n ++ rest).head? ≠ some STAR := by
  cases n with
  | nil => exact other
  | cons c n =>
    intro star
    obtain rfl : c = STAR := Option.some.inj star
    exact absurd (whole_chars whole STAR List.mem_cons_self) (by decide)

theorem parse_pair {s s' rest : List UInt8} {v w : Nat} (first : range_beg (parser mset mode s) = .ok (v, s'))
    (second : range_end (parser mset mode s) v s' = .ok (w, rest)) (positive : v ≠ 0) :
    parse_msgrange untranslated (parser mset mode s) = (.ok, parser (mset.push (ordered v w)) mode rest) := by
  have added := @add_ordered mset mode v w positive
  rw [parse_msgrange, first]
  dsimp only
  rw [second]
  simp only [parser] at added ⊢
  rw [added]

theorem range_beg_whole (whole : Whole n) (stops : Stops rest) (other : rest.head? ≠ some STAR) :
    range_beg (parser mset mode (n ++ rest)) = .ok (value n, rest) := by
  have star : (parser mset mode (n ++ rest)).s.head? ≠ some STAR := head_ne_star whole other
  rw [range_beg, if_neg star]
  exact get_whole whole stops _

theorem stops_colon (rest : List UInt8) : Stops (COLON :: rest) := by
  intro c here
  obtain rfl : COLON = c := Option.some.inj here
  decide

theorem colon_ne_star (rest : List UInt8) : (COLON :: rest).head? ≠ some STAR :=
  fun star => absurd (Option.some.inj star) (by decide)

/-- An item is read. The second number of a range is not missing at the end of the string. -/
theorem parse_item {item : Item} (whole : item.Each Whole) {rest : List UInt8} (follows : Follows rest)
    (complete : ∀ n, item = .range n [] → rest ≠ []) :
    parse_msgrange untranslated (parser mset mode (item.text ++ rest)) =
      (.ok, parser (mset.push item.stored) mode rest) := by
  have stops := follows_stops follows
  have other : rest.head? ≠ some STAR ∧ rest.head? ≠ some COLON := by
    rcases follows with rfl | comma
    · simp
    · rw [comma]
      decide
  cases item with
  | single n =>
    refine parse_pair (range_beg_whole whole stops other.1) ?_ (value_ne_zero n)
    rw [range_end, if_neg other.2]
  | range n m =>
    have shape : (Item.range n m).text ++ rest = n ++ COLON :: (m ++ rest) := by simp [Item.text]
    rw [shape]
    refine parse_pair (range_beg_whole whole.1 (stops_colon _) (colon_ne_star _)) ?_ (value_ne_zero n)
    have more : m ++ rest ≠ [] := by
      intro nothing
      obtain ⟨rfl, rfl⟩ := List.append_eq_nil_iff.mp nothing
      exact complete n rfl rfl
    rw [range_end, if_pos List.head?_cons, List.tail_cons, if_neg (head_ne_star whole.2 other.1), if_neg more]
    exact get_whole whole.2 stops _
  | opened n =>
    have shape : (Item.opened n).text ++ rest = n ++ COLON :: STAR :: rest := by simp [Item.text]
    rw [shape]
    refine parse_pair (range_beg_whole whole (stops_colon _) (colon_ne_star _)) ?_ (value_ne_zero n)
    rw [range_end, if_pos List.head?_cons, List.tail_cons, if_pos List.head?_cons, List.tail_cons]
    rfl

variable {s : List UInt8}

theorem get_error {rc : Code} (failed : get_msgnum env s = .error rc) :
    rc = .MU_ERR_PARSE := by
  unfold get_msgnum at failed
  dsimp only at failed
  split at failed
  · exact (Except.error.inj failed).symm
  · cases failed

theorem range_end_error {beg : Nat} {rc : Code}
    (failed : range_end env beg s = .error rc) : rc = .MU_ERR_PARSE := by
  unfold range_end at failed
  split at failed
  · split at failed
    · cases failed
    · split at failed
      · exact (Except.error.inj failed).symm
      · exact get_error failed
  · cases failed

theorem parse_star (star : s.head? = some STAR) :
    (parse_msgrange untranslated (parser mset mode s)).1 ≠ .ok := by
  have first : range_beg (parser mset mode s) = .ok (0, s.tail) := if_pos star
  rw [parse_msgrange, first]
  dsimp only
  split
  · next rc second =>
    rw [range_end_error second]
    exact fun ok => by cases ok
  · next w rest second =>
    have pair : (if w ≠ 0 ∧ w < 0 then (w, 0) else (0, w)) = (0, w) := if_neg fun both => Nat.not_lt_zero _ both.2
    simp only [parser, pair, mu_msgset_add_range, if_true]
    decide

theorem parse_item_back (s : List UInt8) (ok : (parse_msgrange untranslated (parser mset mode s)).1 = .ok) :
    ∃ item rest, Item.Each Whole item ∧ s = item.text ++ rest ∧ (∀ n, item = .range n [] → rest ≠ []) ∧
      parse_msgrange untranslated (parser mset mode s) = (.ok, parser (mset.push item.stored) mode rest) := by
  have star : s.head? ≠ some STAR := fun star => parse_star star ok
  have first : range_beg (parser mset mode s) = get_msgnum (parser mset mode s) s := if_neg star
  cases read : get_msgnum (parser mset mode s) s with
  | error rc =>
    rw [parse_msgrange, first, read] at ok
    exact absurd (ok.symm.trans (get_error read)) (by decide)
  | ok pair =>
    obtain ⟨v, s'⟩ := pair
    rw [read] at first
    obtain ⟨n, whole, shape, rfl⟩ := get_back read
    cases second : range_end (parser mset mode s) (value n) s' with
    | error rc =>
      simp only [parse_msgrange, first, second] at ok
      exact absurd (ok.symm.trans (range_end_error second)) (by decide)
    | ok pair =>
      obtain ⟨w, rest⟩ := pair
      have result := parse_pair first second (value_ne_zero n)
      unfold range_end at second
      split at second
      · next colon =>
        obtain ⟨more, rfl⟩ := List.head?_eq_some_iff.mp colon
        rw [List.tail_cons] at second
        split at second
        · next star' =>
          obtain ⟨rest', rfl⟩ := List.head?_eq_some_iff.mp star'
          obtain ⟨rfl, rfl⟩ := Prod.mk.inj (Except.ok.inj second)
          exact ⟨.opened n, rest', whole, by rw [shape]; simp [Item.text], (by intro _ other; cases other), result⟩
        · split at second
          · cases second
          · next nonempty =>
            obtain ⟨m, whole', shape', rfl⟩ := get_back second
            refine ⟨.range n m, rest, ⟨whole, whole'⟩, by rw [shape, shape']; simp [Item.text], ?_, result⟩
            intro n' missing none
            obtain ⟨-, rfl⟩ := Item.range.inj missing
            exact nonempty (by rw [shape', none]; rfl)
      · obtain ⟨rfl, rfl⟩ := Prod.mk.inj (Except.ok.inj second)
        exact ⟨.single n, s', whole, shape, (by intro _ other; cases other), result⟩

theorem listed_cons (item item' : Item) (items : List Item) :
    listed (item :: item' :: items) = item.text ++ COMMA :: listed (item' :: items) := by
  rw [listed, List.map_cons, List.map_cons, List.intercalate_cons_cons, List.append_assoc]
  rfl

theorem listed_single (item : Item) : listed [item] = item.text := List.intercalate_singleton

theorem ended_append (front back : List UInt8) : Ended (front ++ COMMA :: back) ↔ Ended back := by
  cases back with
  | nil => simp [Ended]
  | cons c back => simp [Ended, List.getLast?_cons_cons]

theorem ended_ne_nil (ended : Ended s) : s ≠ [] := by
  rintro rfl
  obtain ⟨c, here, -⟩ := ended
  cases here

theorem whole_plain {n : List UInt8} (whole : Whole n) : COMMA ∉ n ∧ COLON ∉ n ∧ STAR ∉ n :=
  ⟨fun member => absurd (whole_chars whole _ member) (by decide),
    fun member => absurd (whole_chars whole _ member) (by decide),
    fun member => absurd (whole_chars whole _ member) (by decide)⟩

theorem ended_whole {n : List UInt8} (whole : Whole n) (nonempty : n ≠ []) (front : List UInt8) :
    Ended (front ++ n) := by
  obtain ⟨comma, colon, -⟩ := whole_plain whole
  refine ⟨n.getLast nonempty, ?_, ?_, ?_⟩
  · rw [List.getLast?_append_of_ne_nil _ nonempty, List.getLast?_eq_some_getLast nonempty]
    rfl
  · exact fun last => comma (last ▸ List.getLast_mem nonempty)
  · exact fun last => colon (last ▸ List.getLast_mem nonempty)

variable {item : Item}

theorem ended_of_complete (whole : item.Each Whole) (nonempty : item.text ≠ [])
    (complete : ∀ n, item ≠ .range n []) : Ended item.text := by
  cases item with
  | single n => exact ended_whole whole nonempty []
  | range n m =>
    have given : m ≠ [] := fun missing => complete n (missing ▸ rfl)
    have ended := ended_whole whole.2 given (n ++ [COLON])
    rwa [List.append_assoc] at ended
  | opened n => simp [Ended, Item.text, show STAR ≠ COMMA by decide, show STAR ≠ COLON by decide]

theorem complete_of_ended (ended : Ended item.text) (n : List UInt8) : item ≠ .range n [] := by
  rintro rfl
  simp [Ended, Item.text] at ended

variable {translate : Nat → Nat → Except Code (Nat × Nat)}

theorem parse_loop_last {env env' : Env}
    (read : parse_msgrange translate env = (.ok, env')) (done : env'.s = []) :
    parse_loop translate env = (.ok, env') := by
  rw [parse_loop]
  simp [read, done]

theorem parse_loop_next {env env' : Env} {rest : List UInt8}
    (read : parse_msgrange translate env = (.ok, env')) (comma : env'.s = COMMA :: rest) (more : rest ≠ []) :
    parse_loop translate env = parse_loop translate { env' with s := rest } := by
  rw [parse_loop]
  simp [read, comma, more]

theorem parse_loop_ok
    (ok : (parse_loop translate env).1 = .ok) : (parse_msgrange translate env).1 = .ok ∧
      ((parse_msgrange translate env).2.s = [] ∨
        ∃ rest, rest ≠ [] ∧ (parse_msgrange translate env).2.s = COMMA :: rest) := by
  rw [parse_loop] at ok
  dsimp only at ok
  generalize parse_msgrange translate env = result at ok ⊢
  split at ok
  · next stops => exact ⟨ok, .inl (stops.resolve_left (not_not.mpr ok))⟩
  · next goes =>
    obtain ⟨read, more⟩ := not_or.mp goes
    refine ⟨not_not.mp read, .inr ?_⟩
    split at ok
    · cases ok
    · next comma =>
      obtain ⟨rest, shape⟩ := List.head?_eq_some_iff.mp (not_not.mp comma)
      split at ok
      · cases ok
      · next nonempty => exact ⟨rest, by simpa [shape] using nonempty, shape⟩

theorem parse_items (items : List Item) (nonempty : items ≠ []) (whole : ∀ item ∈ items, item.Each Whole)
    (ended : Ended (listed items)) (mset : Msgset) :
    parse_loop untranslated (parser mset mode (listed items)) =
      (.ok, parser (items.foldl (fun mset item => mset.push item.stored) mset) mode []) := by
  induction items generalizing mset with
  | nil => exact absurd rfl nonempty
  | cons item items ih =>
    obtain ⟨wholeItem, whole⟩ := List.forall_mem_cons.mp whole
    cases items with
    | nil =>
      rw [listed_single] at ended ⊢
      have read := @parse_item mset mode item wholeItem [] (.inl rfl)
        fun n missing => absurd missing (complete_of_ended ended n)
      rw [List.append_nil] at read
      exact parse_loop_last read rfl
    | cons item' items =>
      rw [listed_cons] at ended ⊢
      have ended' := (ended_append _ _).mp ended
      have read := @parse_item mset mode item wholeItem (COMMA :: listed (item' :: items)) (.inr rfl)
        fun n missing => List.cons_ne_nil _ _
      rw [parse_loop_next read rfl (ended_ne_nil ended')]
      exact ih (List.cons_ne_nil _ _) whole ended' (mset.push item.stored)

theorem parse_items_back (s : List UInt8) (mset : Msgset)
    (ok : (parse_loop untranslated (parser mset mode s)).1 = .ok) (nonempty : s ≠ []) :
    ∃ items, items ≠ [] ∧ (∀ item ∈ items, Item.Each Whole item) ∧ s = listed items ∧ Ended s := by
  induction size : s.length using Nat.strong_induction_on generalizing s mset with
  | _ k ih =>
    obtain ⟨read, next⟩ := parse_loop_ok ok
    obtain ⟨item, rest, whole, shape, complete, result⟩ := parse_item_back s read
    rw [result] at next
    rcases next with none | ⟨more, nonempty', comma⟩
    · obtain rfl : rest = [] := none
      rw [List.append_nil] at shape
      refine ⟨[item], List.cons_ne_nil _ _, List.forall_mem_singleton.mpr whole, by rw [listed_single, shape], ?_⟩
      subst shape
      exact ended_of_complete whole nonempty fun n missing => complete n missing rfl
    · obtain rfl : rest = COMMA :: more := comma
      rw [parse_loop_next result rfl nonempty'] at ok
      have shorter : more.length < k := by
        rw [← size, shape, List.length_append, List.length_cons]
        omega
      obtain ⟨items, some_item, whole', shape', ended⟩ := ih _ shorter more _ ok nonempty' rfl
      obtain ⟨item', items, rfl⟩ := List.exists_cons_of_ne_nil some_item
      refine ⟨item :: item' :: items, List.cons_ne_nil _ _, List.forall_mem_cons.mpr ⟨whole, whole'⟩, ?_, ?_⟩
      · rw [listed_cons, ← shape', shape]
      · rw [shape]
        exact (ended_append _ _).mpr ended

theorem text_inj {item item' : Item} (whole : item.Each Whole) (whole' : item'.Each Whole)
    (same : item.text = item'.text) : item = item' := by
  -- what is in front of the colon, and what is behind it
  have apart {n n' m m' : List UInt8} (wholeN : Whole n) (plain : COLON ∉ m)
      (same : n ++ COLON :: m = n' ++ COLON :: m') : n = n' ∧ m = m' := by
    obtain ⟨front, -, back⟩ := (List.append_cons_inj_of_notMem (whole_plain wholeN).2.1 plain).mp same
    exact ⟨front, back⟩
  have alone {n n' m : List UInt8} (wholeN : Whole n) (same : n = n' ++ COLON :: m) : False :=
    (whole_plain wholeN).2.1 (same ▸ by simp)
  cases item with
  | single n =>
    cases item' with
    | single n' => exact congrArg Item.single same
    | range n' m' => exact (alone whole same).elim
    | opened n' => exact (alone whole same).elim
  | range n m =>
    cases item' with
    | single n' => exact (alone whole' same.symm).elim
    | range n' m' =>
      obtain ⟨rfl, rfl⟩ := apart whole.1 (whole_plain whole.2).2.1 same
      rfl
    | opened n' =>
      obtain ⟨-, rfl⟩ := apart whole.1 (whole_plain whole.2).2.1 same
      exact absurd List.mem_cons_self (whole_plain whole.2).2.2
  | opened n =>
    cases item' with
    | single n' => exact (alone whole' same.symm).elim
    | range n' m' =>
      obtain ⟨-, rfl⟩ := apart whole (by decide) same
      exact absurd List.mem_cons_self (whole_plain whole'.2).2.2
    | opened n' =>
      obtain ⟨rfl, -⟩ := apart whole (by decide) same
      rfl

theorem text_plain (whole : item.Each Whole) : COMMA ∉ item.text := by
  cases item with
  | single n => exact (whole_plain whole).1
  | range n m => simp [Item.text, (whole_plain whole.1).1, (whole_plain whole.2).1, show COMMA ≠ COLON by decide]
  | opened n => simp [Item.text, (whole_plain whole).1, show COMMA ≠ COLON by decide, show COMMA ≠ STAR by decide]

/-- A string is a list of items in one way only. -/
theorem mem_of_listed {items items' : List Item} (nonempty : items ≠ []) (nonempty' : items' ≠ [])
    (whole : ∀ item ∈ items, item.Each Whole) (whole' : ∀ item ∈ items', item.Each Whole)
    (same : listed items = listed items') : ∀ item ∈ items, item ∈ items' := by
  have texts {items : List Item} (nonempty : items ≠ []) (whole : ∀ item ∈ items, item.Each Whole) :
      (listed items).splitOn COMMA = items.map Item.text := by
    refine List.splitOn_intercalate COMMA (fun t member => ?_) (by simpa using nonempty)
    obtain ⟨item, member', rfl⟩ := List.mem_map.mp member
    exact text_plain (whole item member')
  intro item member
  have there : item.text ∈ items'.map Item.text := by
    rw [← texts nonempty' whole', ← same, texts nonempty whole]
    exact List.mem_map_of_mem member
  obtain ⟨item', member', sameText⟩ := List.mem_map.mp there
  rwa [← text_inj (whole' item' member') (whole item member) sameText]
end

theorem Item.Each.mono {P Q : List UInt8 → Prop} (implies : ∀ n, P n → Q n) {item : Item} (each : item.Each P) :
    item.Each Q := by
  cases item with
  | single n => exact implies n each
  | range n m => exact ⟨implies n each.1, implies m each.2⟩
  | opened n => exact implies n each

theorem stored_has {item : Item} (numbers : item.Each Number) (k : Nat) : item.stored.Has k ↔ item.Has k := by
  cases item with
  | single n =>
    rw [Item.stored, (number_whole numbers).2, ordered_has (Nat.ne_of_gt numbers.2.2.1), Item.Has]
    omega
  | range n m =>
    rw [Item.stored, (number_whole numbers.1).2, (number_whole numbers.2).2,
      ordered_has (Nat.ne_of_gt numbers.2.2.2.1), Item.Has]
  | opened n =>
    rw [Item.stored, (number_whole numbers).2, ordered, if_neg (by simp), has_open rfl, Item.Has]

theorem push_list (items : List Item) (mset : Msgset) :
    (items.foldl (fun mset item => mset.push item.stored) mset).list = mset.list ++ items.map Item.stored := by
  induction items generalizing mset with
  | nil => simp
  | cons item items ih =>
    rw [List.foldl_cons, ih, Msgset.push, List.map_cons, List.append_assoc, List.singleton_append]

theorem parse_imap_run (mset : Msgset) (mode : Nat) {s : List UInt8} (nonempty : s ≠ []) :
    mu_msgset_parse_imap untranslated none mset mode s = ((parse_loop untranslated (parser mset mode s)).1,
      (parse_loop untranslated (parser mset mode s)).2.msgset, (parse_loop untranslated (parser mset mode s)).2.s) := by
  rw [mu_msgset_parse_imap, if_neg nonempty]
  rfl

theorem parse_imap_listed {items : List Item} (whole : ∀ item ∈ items, item.Each Whole) (ended : Ended (listed items))
    (mset : Msgset) (mode : Nat) :
    mu_msgset_parse_imap untranslated none mset mode (listed items) =
      (.ok, items.foldl (fun mset item => mset.push item.stored) mset, []) := by
  have some_item : items ≠ [] := by
    rintro rfl
    exact ended_ne_nil ended rfl
  rw [parse_imap_run mset mode (ended_ne_nil ended), parse_items items some_item whole ended mset]
  rfl

theorem numbers_whole {item : Item} (numbers : item.Each Number) : item.Each Whole :=
  numbers.mono fun _ number => (number_whole number).1

theorem numbers_ended {items : List Item} (nonempty : items ≠ []) (numbers : ∀ item ∈ items, item.Each Number) :
    Ended (listed items) := by
  induction items with
  | nil => exact absurd rfl nonempty
  | cons item items ih =>
    obtain ⟨number, numbers⟩ := List.forall_mem_cons.mp numbers
    cases items with
    | nil =>
      rw [listed_single]
      refine ended_of_complete (numbers_whole number) ?_ ?_
      · cases item with
        | single n => exact number.1
        | range n m => exact List.append_ne_nil_of_right_ne_nil _ (List.cons_ne_nil _ _)
        | opened n => exact List.append_ne_nil_of_right_ne_nil _ (List.cons_ne_nil _ _)
      · rintro n rfl
        exact number.2.1 rfl
    | cons item' items =>
      rw [listed_cons, ended_append]
      exact ih (List.cons_ne_nil _ _) numbers

/-- The parser takes the sequence sets and no other strings, and the set comes to have their messages besides its
    own. -/
structure ParsesExactly (mset : Msgset) (mode : Nat) (s : List UInt8) : Prop where
  accepts : (mu_msgset_parse_imap untranslated none mset mode s).1 = .ok ↔ ∃ items, SequenceSet items s
  has : ∀ items, SequenceSet items s → ∀ n,
    Has (mu_msgset_parse_imap untranslated none mset mode s).2.1.list n ↔ Has mset.list n ∨ ∃ item ∈ items, item.Has n

/-- A string that has an item without a number is taken all the same. -/
theorem not_exact_of_loose {mset : Msgset} {mode : Nat} {s : List UInt8} (loose : Loose s) :
    ¬ ParsesExactly mset mode s := by
  obtain ⟨items, whole, rfl, ended, item, member, bad⟩ := loose
  intro exactly
  obtain ⟨items', nonempty', numbers, same⟩ := exactly.accepts.mp (by rw [parse_imap_listed whole ended])
  have nonempty : items ≠ [] := List.ne_nil_of_mem member
  exact bad (numbers item (mem_of_listed nonempty nonempty' whole (fun i m => numbers_whole (numbers i m)) same
    item member))

/-- Just the sequence sets are taken, unless a string has an item whose numbers are no numbers of the grammar. -/
theorem parse_imap_iff (mset : Msgset) (mode : Nat) (s : List UInt8) : ParsesExactly mset mode s ↔ ¬ Loose s := by
  constructor
  · exact fun exactly loose => not_exact_of_loose loose exactly
  · intro strict
    have reads {items : List Item} (set : SequenceSet items s) := by
      have ended := numbers_ended set.1 set.2.1
      exact set.2.2 ▸ parse_imap_listed (fun i m => numbers_whole (set.2.1 i m)) ended mset mode
    refine ⟨⟨fun ok => ?_, ?_⟩, fun items set n => ?_⟩
    · have nonempty : s ≠ [] := by
        rintro rfl
        cases ok
      rw [parse_imap_run mset mode nonempty] at ok
      obtain ⟨items, some_item, whole, shape, ended⟩ := parse_items_back s mset ok nonempty
      refine ⟨items, some_item, fun item member => ?_, shape⟩
      by_contra bad
      exact strict ⟨items, whole, shape, ended, item, member, bad⟩
    · rintro ⟨items, set⟩
      rw [reads set]
    · rw [reads set]
      simp only [push_list, has_append]
      refine or_congr_right ?_
      constructor
      · rintro ⟨r, member, has⟩
        obtain ⟨item, member', rfl⟩ := List.mem_map.mp member
        exact ⟨item, member', (stored_has (set.2.1 item member') n).mp has⟩
      · rintro ⟨item, member, has⟩
        exact ⟨item.stored, List.mem_map_of_mem member, (stored_has (set.2.1 item member) n).mpr has⟩

/-- A zero, a sign and a missing number are taken. -/
theorem loose_taken :
    (mu_msgset_parse_imap untranslated none ⟨[], false, MU_MSGSET_NUM⟩ MU_MSGSET_NUM (ascii ",0")).1 = .ok ∧
      (mu_msgset_parse_imap untranslated none ⟨[], false, MU_MSGSET_NUM⟩ MU_MSGSET_NUM (ascii ",0")).2.1.list =
        [⟨1, 1⟩, ⟨1, 1⟩] ∧
      ¬ ParsesExactly ⟨[], false, MU_MSGSET_NUM⟩ MU_MSGSET_NUM (ascii ",0") := by
  refine ⟨by decide +kernel, by decide +kernel, not_exact_of_loose ?_⟩
  have whole : Whole [] ∧ Whole (ascii "0") := by decide +kernel
  refine ⟨[.single [], .single (ascii "0")], List.forall_mem_cons.mpr ⟨whole.1, List.forall_mem_singleton.mpr whole.2⟩,
    by decide +kernel, ⟨48, by decide +kernel, by decide⟩, .single [], List.mem_cons_self, fun number => number.1 rfl⟩

end Mailutils.MessageSet

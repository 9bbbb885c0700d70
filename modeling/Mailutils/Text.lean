import Mailutils.Characters
import Mathlib.Data.Nat.Digits.Lemmas

/-!
Numbers in strings are read as they were printed: `convertLu`, as `%lu` of `scanf` and `strtoul` read, takes back what
`printLu` wrote.
-/
namespace Mailutils.Text

def strcspn (s : List UInt8) (reject : List UInt8) : Nat := (s.takeWhile (· ∉ reject)).length

theorem take_strcspn (s reject : List UInt8) : s.take (strcspn s reject) = s.takeWhile (· ∉ reject) :=
  (List.prefix_iff_eq_take.mp (List.takeWhile_prefix _)).symm

theorem drop_strcspn (s reject : List UInt8) : s.drop (strcspn s reject) = s.dropWhile (· ∉ reject) := by
  have parts := List.takeWhile_append_dropWhile (p := (· ∉ reject)) (l := s)
  calc s.drop (strcspn s reject)
      = (s.takeWhile (· ∉ reject) ++ s.dropWhile (· ∉ reject)).drop (strcspn s reject) := by rw [parts]
    _ = s.dropWhile (· ∉ reject) := List.drop_left

/-- `strtoul (s, &sp, 10)` with what is at `sp`. -/
def strtoul (s : List UInt8) : Nat × List UInt8 := (convertLu s).getD (0, s)

/-- `errno` after `strtoul` -/
def strtoul_erange (str : List UInt8) : Bool :=
  let str := str.dropWhile isspace
  let unsigned := if str.head? = some PLUS ∨ str.head? = some MINUS then str.tail else str
  ulong ≤ decimal (unsigned.takeWhile isdigit)

theorem strtoul_lt (s : List UInt8) : (strtoul s).1 < ulong := by
  have positive := (by decide : 0 < ulong)
  rw [strtoul]
  cases read : convertLu s with
  | none => exact positive
  | some result =>
    simp only [convertLu, Option.ite_none_left_eq_some, Option.some.injEq] at read
    obtain ⟨_, rfl⟩ := read
    simp only [Option.getD_some]
    generalize decimal _ = value
    split
    · omega
    · split
      · exact Nat.mod_lt _ positive
      · omega

theorem strtoul_suffix (s : List UInt8) : (strtoul s).2 <:+ s := by
  have blanks : s.dropWhile isspace <:+ s := List.dropWhile_suffix _
  have sign : (if (s.dropWhile isspace).head? = some PLUS ∨ (s.dropWhile isspace).head? = some MINUS then
      (s.dropWhile isspace).tail else s.dropWhile isspace) <:+ s.dropWhile isspace := by
    split
    · exact List.tail_suffix _
    · exact List.suffix_rfl
  rw [strtoul, convertLu]
  dsimp only
  generalize (if (s.dropWhile isspace).head? = some PLUS ∨ (s.dropWhile isspace).head? = some MINUS then
    (s.dropWhile isspace).tail else s.dropWhile isspace) = unsigned at sign ⊢
  split
  · exact List.suffix_rfl
  · exact (List.dropWhile_suffix _).trans (sign.trans blanks)

/-- What follows does not belong to a number. -/
def Stops (t : List UInt8) : Prop := ∀ c ∈ t.head?, isdigit c = false ∧ isspace c = false ∧ c ≠ PLUS ∧ c ≠ MINUS

theorem dropWhile_append_stops {p : UInt8 → Bool} {t : List UInt8} (stops : ∀ c ∈ t.head?, p c = false)
    (s : List UInt8) : (s ++ t).dropWhile p = s.dropWhile p ++ t ∧ (s ++ t).takeWhile p = s.takeWhile p := by
  induction s with
  | nil =>
    cases t with
    | nil => simp
    | cons c t => simp [stops c rfl]
  | cons c s ih =>
    by_cases here : p c = true
    · simp [here, ih]
    · simp [here]

theorem unsigned_append {t : List UInt8} (stops : Stops t) (s : List UInt8) :
    (if (s ++ t).head? = some PLUS ∨ (s ++ t).head? = some MINUS then (s ++ t).tail else s ++ t) =
      (if s.head? = some PLUS ∨ s.head? = some MINUS then s.tail else s) ++ t := by
  cases s with
  | nil =>
    refine if_neg ?_
    rintro (plus | minus)
    · exact (stops PLUS plus).2.2.1 rfl
    · exact (stops MINUS minus).2.2.2 rfl
  | cons c b => exact (apply_ite (· ++ t) _ _ _).symm

theorem strtoul_append {t : List UInt8} (stops : Stops t) (s : List UInt8) :
    strtoul (s ++ t) = ((strtoul s).1, (strtoul s).2 ++ t) := by
  have blanks := (dropWhile_append_stops (fun c here => (stops c here).2.1) s).1
  have digits := @dropWhile_append_stops isdigit t fun c here => (stops c here).1
  rw [strtoul, strtoul, convertLu, convertLu, blanks]
  dsimp only
  rw [unsigned_append stops, (digits _).1, (digits _).2]
  cases s.dropWhile isspace with
  | nil => rfl
  | cons c b => split <;> split <;> rfl

theorem erange_append {t : List UInt8} (stops : Stops t) (s : List UInt8) :
    strtoul_erange (s ++ t) = strtoul_erange s := by
  have blanks := (dropWhile_append_stops (fun c here => (stops c here).2.1) s).1
  have digits (s : List UInt8) := (@dropWhile_append_stops isdigit t (fun c here => (stops c here).1) s).2
  rw [strtoul_erange, strtoul_erange, blanks]
  rw [unsigned_append stops, digits]

theorem digit_toNat {d : Nat} (lt : d < 10) : (d + 48).toUInt8.toNat = d + 48 :=
  Nat.mod_eq_of_lt (by omega)

private theorem digit_isdigit {d : Nat} (lt : d < 10) : isdigit (d + 48).toUInt8 = true := by
  have value := digit_toNat lt
  simp only [isdigit, UInt8.le_iff_toNat_le, value, decide_eq_true_eq]
  exact ⟨by simp, by simp; omega⟩

theorem printLu_digits (v : Nat) : ∀ c ∈ printLu v, isdigit c = true := by
  intro c mem
  rw [printLu] at mem
  split at mem
  · obtain rfl := List.mem_singleton.mp mem
    rfl
  · obtain ⟨d, digit, rfl⟩ := List.mem_map.mp mem
    exact digit_isdigit (Nat.digits_lt_base (by decide) (List.mem_reverse.mp digit))

theorem printLu_ne_nil (v : Nat) : printLu v ≠ [] := by
  rw [printLu]
  split
  · exact List.cons_ne_nil _ _
  next nonzero =>
    rw [ne_eq, List.map_eq_nil_iff, List.reverse_eq_nil_iff]
    exact Nat.digits_ne_nil_iff_ne_zero.mpr nonzero

theorem decimal_digits : ∀ digits : List Nat, (∀ d ∈ digits, d < 10) →
    decimal (digits.reverse.map fun d => (d + 48).toUInt8) = Nat.ofDigits 10 digits := by
  intro digits
  induction digits with
  | nil => intro _; rfl
  | cons d digits ih =>
    intro small
    have rest := ih fun e mem => small e (List.mem_cons_of_mem _ mem)
    rw [decimal] at rest ⊢
    rw [List.reverse_cons, List.map_append, List.foldl_append, rest, Nat.ofDigits_cons, List.map_singleton,
      List.foldl_cons, List.foldl_nil, digit_toNat (small d List.mem_cons_self)]
    omega

theorem decimal_printLu (v : Nat) : decimal (printLu v) = v := by
  rw [printLu]
  split
  next zero => exact zero.symm
  · rw [decimal_digits _ fun d mem => Nat.digits_lt_base (by decide) mem, Nat.ofDigits_digits]

/-- Nothing that could be taken for another digit follows. -/
def NoDigit (rest : List UInt8) : Prop := ∀ c ∈ rest.head?, isdigit c = false

theorem takeWhile_digits {digits rest : List UInt8} (all : ∀ c ∈ digits, isdigit c = true) (stops : NoDigit rest) :
    (digits ++ rest).takeWhile isdigit = digits ∧ (digits ++ rest).dropWhile isdigit = rest := by
  rw [List.takeWhile_append_of_pos all, List.dropWhile_append_of_pos all]
  cases rest with
  | nil => exact ⟨List.append_nil _, rfl⟩
  | cons c rest =>
    have no : isdigit c = false := stops c rfl
    rw [List.takeWhile_cons, List.dropWhile_cons, no]
    exact ⟨List.append_nil _, rfl⟩

theorem digit_plain {c : UInt8} (digit : isdigit c = true) :
    isspace c = false ∧ c ≠ PLUS ∧ c ≠ MINUS := by
  rw [isdigit, decide_eq_true_eq, UInt8.le_iff_toNat_le, UInt8.le_iff_toNat_le] at digit
  obtain ⟨low, high⟩ := digit
  refine ⟨?_, ?_, ?_⟩
  · rw [isspace, decide_eq_false_iff_not, UInt8.le_iff_toNat_le, UInt8.le_iff_toNat_le, ← UInt8.toNat_inj]
    simp at low high ⊢
    omega
  · rintro rfl
    exact absurd low (by decide)
  · rintro rfl
    exact absurd low (by decide)

theorem digits_start {digits rest : List UInt8} (some_digit : digits ≠ []) (all : ∀ c ∈ digits, isdigit c = true) :
    (digits ++ rest).dropWhile isspace = digits ++ rest ∧
      ¬ ((digits ++ rest).head? = some PLUS ∨ (digits ++ rest).head? = some MINUS) := by
  obtain ⟨c, others, shape⟩ := List.exists_cons_of_ne_nil some_digit
  obtain ⟨no_space, no_plus, no_minus⟩ := digit_plain (all c (shape ▸ List.mem_cons_self))
  have head : (digits ++ rest).head? = some c := by rw [shape]; rfl
  constructor
  · rw [shape, List.cons_append, List.dropWhile_cons, no_space]
    rfl
  · rw [head]
    rintro (plus | minus)
    · exact no_plus (Option.some.inj plus)
    · exact no_minus (Option.some.inj minus)

/-- Digits are read to the end, and no value is greater than the greatest `unsigned long`. -/
theorem convertLu_digits {digits rest : List UInt8} (some_digit : digits ≠ []) (all : ∀ c ∈ digits, isdigit c = true)
    (stops : NoDigit rest) :
    convertLu (digits ++ rest) = some (if ulong ≤ decimal digits then ulong - 1 else decimal digits, rest) := by
  obtain ⟨start, sign⟩ := @digits_start digits rest some_digit all
  obtain ⟨taken, dropped⟩ := takeWhile_digits all stops
  rw [convertLu, start, if_neg sign, taken, dropped, if_neg some_digit]
  simp only
  rw [if_neg (fun minus => sign (.inr minus))]

end Mailutils.Text

import Mailutils.Characters
import Mathlib.Data.List.Basic

/-!
Writing a content type (`libmailutils/base/ctparse.c`). A parameter value is put between quotes if one of
its characters is special (`mu_istspec`); a blank is not. What was written is read by the grammar of
RFC 2045, and comes back if and only if no value is empty, and none has a blank but no special character
(`content_type_read_iff`).
-/
namespace Mailutils.ContentFormat

/-- The class `MU_CTYPE_TSPEC` -/
def mu_istspec (c : UInt8) : Bool := c ∈ ascii "\"(),/:;<=>?@[\\]"

def mu_str_skip_class_comp (str : List UInt8) (mu_c_is_class : UInt8 → Bool) : List UInt8 :=
  str.dropWhile fun c => !mu_c_is_class c

def mu_str_skip_cset_comp (str cset : List UInt8) : List UInt8 := str.dropWhile (· ∉ cset)

/-- `struct mu_content_type`, with the names and values of the parameters in the order of the iterator. -/
structure ContentType where
  type : List UInt8
  subtype : Option (List UInt8)
  param : List (List UInt8 × List UInt8)

/-- The loop of `format_param` over a value that is quoted. -/
def quote_loop (value : List UInt8) : List UInt8 :=
  match _found : mu_str_skip_cset_comp value [BACKSLASH, DQUOTE] with
  | [] => value
  | c :: cp => value.takeWhile (· ∉ [BACKSLASH, DQUOTE]) ++ BACKSLASH :: c :: quote_loop cp
termination_by value.length
decreasing_by
  have shorter : (mu_str_skip_cset_comp value [BACKSLASH, DQUOTE]).length ≤ value.length :=
    (List.dropWhile_sublist _).length_le
  rw [_found] at shorter
  exact shorter

def format_param (name value : List UInt8) : List UInt8 :=
  ascii "; " ++ name ++ EQUAL ::
    if mu_str_skip_class_comp value mu_istspec ≠ [] then DQUOTE :: quote_loop value ++ [DQUOTE] else value

def mu_content_type_format (ct : ContentType) : List UInt8 :=
  ct.type ++ (match ct.subtype with | some subtype => SLASH :: subtype | none => []) ++
    ct.param.flatMap fun (name, value) => format_param name value

/-! ## Reading

The grammar of RFC 2045, section 5.1, for a field that is unfolded: blanks may stand between any two
tokens. -/

/-- The characters of `tspecials` -/
def tspecials : List UInt8 := ascii "()<>@,;:\\\"/[]?="

/-- Any character of ASCII but blanks, control characters and `tspecials` -/
def isTokenChar (c : UInt8) : Bool := 32 < c && c < 127 && c ∉ tspecials

def skipBlanks (text : List UInt8) : List UInt8 := text.dropWhile fun c => c = SP || c = 9

def readToken (text : List UInt8) : Option (List UInt8 × List UInt8) :=
  let text := skipBlanks text
  if text.takeWhile isTokenChar = [] then none else some (text.takeWhile isTokenChar, text.dropWhile isTokenChar)

def readSpecial (c : UInt8) (text : List UInt8) : Option (List UInt8) :=
  match skipBlanks text with
  | [] => none
  | d :: rest => if d = c then some rest else none

/-- A `quoted-string` after its first quote -/
def readQuoted : List UInt8 → Option (List UInt8 × List UInt8)
  | [] => none
  | c :: text =>
    if c = DQUOTE then some ([], text)
    else if c = BACKSLASH then
      match text with
      | [] => none
      | d :: text => if d < 128 then (readQuoted text).map fun (value, rest) => (d :: value, rest) else none
    else if c < 128 ∧ c ≠ CR then (readQuoted text).map fun (value, rest) => (c :: value, rest)
    else none

def readValue (text : List UInt8) : Option (List UInt8 × List UInt8) :=
  match readSpecial DQUOTE text with
  | some rest => readQuoted rest
  | none => readToken text

def readParameter (text : List UInt8) : Option ((List UInt8 × List UInt8) × List UInt8) := do
  let (name, text) ← readToken text
  let text ← readSpecial EQUAL text
  let (value, text) ← readValue text
  return ((name, value), text)

def readParameters : Nat → List UInt8 → Option (List (List UInt8 × List UInt8))
  | 0, text => if skipBlanks text = [] then some [] else none
  | n + 1, text =>
    if skipBlanks text = [] then some []
    else do
      let text ← readSpecial SEMICOLON text
      let (parameter, text) ← readParameter text
      let parameters ← readParameters n text
      return parameter :: parameters

/-- The type, the subtype and the parameters that a text denotes -/
def readContentType (text : List UInt8) :
    Option (List UInt8 × List UInt8 × List (List UInt8 × List UInt8)) := do
  let (type, text) ← readToken text
  let text ← readSpecial SLASH text
  let (subtype, text) ← readToken text
  let parameters ← readParameters text.length text
  return (type, subtype, parameters)

example : readContentType (ascii "text/plain; a=\"x \\\\\\\" y\" ;b = c") =
    some (ascii "text", ascii "plain", [(ascii "a", ascii "x \\\" y"), (ascii "b", ascii "c")]) := by
  decide +kernel

def Token (text : List UInt8) : Prop := text ≠ [] ∧ ∀ c ∈ text, isTokenChar c = true

/-- Printable ASCII, the blank included -/
def Printable (text : List UInt8) : Prop := ∀ c ∈ text, 32 ≤ c ∧ c < 127

/-- The text of one character between quotes -/
def quoted (c : UInt8) : List UInt8 := if c ∈ [BACKSLASH, DQUOTE] then [BACKSLASH, c] else [c]

theorem quoted_plain {text : List UInt8} (plain : ∀ c ∈ text, c ∉ [BACKSLASH, DQUOTE]) : text.flatMap quoted = text :=
  Eq.trans (List.flatMap_congr fun c member => if_neg (plain c member)) (List.flatMap_singleton' text)

private theorem quote_loop_eq (value : List UInt8) : quote_loop value = value.flatMap quoted := by
  induction size : value.length using Nat.strong_induction_on generalizing value with
  | _ n ih =>
    subst size
    have plain : ∀ c ∈ value.takeWhile (· ∉ [BACKSLASH, DQUOTE]), c ∉ [BACKSLASH, DQUOTE] := fun c member =>
      of_decide_eq_true (List.mem_takeWhile_imp (p := fun c => decide (c ∉ [BACKSLASH, DQUOTE])) member)
    have whole := List.takeWhile_append_dropWhile (p := fun c => decide (c ∉ [BACKSLASH, DQUOTE])) (l := value)
    have stop := List.head?_dropWhile_not (fun c => decide (c ∉ [BACKSLASH, DQUOTE])) value
    rw [quote_loop]
    split
    next found =>
      rw [mu_str_skip_cset_comp] at found
      rw [found, List.append_nil] at whole
      rw [whole] at plain
      exact (quoted_plain plain).symm
    next c cp found =>
      rw [mu_str_skip_cset_comp] at found
      rw [found] at whole stop
      have special : c ∈ [BACKSLASH, DQUOTE] := not_not.mp (of_decide_eq_false stop)
      have shorter : cp.length < value.length := by
        rw [← whole, List.length_append, List.length_cons]
        omega
      conv_rhs => rw [← whole]
      rw [List.flatMap_append, quoted_plain plain, List.flatMap_cons, quoted, if_pos special, ih _ shorter cp rfl]
      rfl

variable {value : List UInt8}

private theorem readQuoted_written (printable : Printable value) (rest : List UInt8) :
    readQuoted (quote_loop value ++ DQUOTE :: rest) = some (value, rest) := by
  rw [quote_loop_eq]
  induction value with
  | nil =>
    rw [List.flatMap_nil, List.nil_append, readQuoted.eq_def]
    rfl
  | cons c value ih =>
    have ih := ih fun d member => printable d (List.mem_cons_of_mem _ member)
    obtain ⟨visible, small⟩ := printable c List.mem_cons_self
    have ascii : c < 128 := UInt8.lt_trans small (by decide)
    rw [List.flatMap_cons, List.append_assoc, quoted]
    split
    next special =>
      rw [List.cons_append, List.singleton_append, readQuoted.eq_def]
      dsimp only
      rw [if_neg (by decide), if_pos rfl, if_pos ascii, ih]
      rfl
    next plain =>
      simp only [List.mem_cons, List.not_mem_nil, or_false, not_or] at plain
      rw [List.singleton_append, readQuoted.eq_def]
      dsimp only
      have char : c < 128 ∧ c ≠ CR := by
        refine ⟨ascii, ?_⟩
        rintro rfl
        exact absurd visible (by decide)
      rw [if_neg plain.2, if_neg plain.1, if_pos char, ih]
      rfl

variable {c : UInt8}

theorem skipBlanks_cons (other : c ≠ SP ∧ c ≠ 9) (text : List UInt8) :
    skipBlanks (c :: text) = c :: text := by
  refine List.dropWhile_cons_of_neg ?_
  rw [Bool.or_eq_true, decide_eq_true_eq, decide_eq_true_eq, not_or]
  exact other

theorem skipBlanks_blank (blank : c = SP ∨ c = 9) (text : List UInt8) :
    skipBlanks (c :: text) = skipBlanks text := by
  refine List.dropWhile_cons_of_pos ?_
  rw [Bool.or_eq_true, decide_eq_true_eq, decide_eq_true_eq]
  exact blank

theorem token_char_visible (char : isTokenChar c = true) : c ≠ SP ∧ c ≠ 9 := by
  refine ⟨?_, ?_⟩
  · rintro rfl
    exact absurd char (by decide)
  · rintro rfl
    exact absurd char (by decide)

/-- No character of a token follows. -/
def Ends (text : List UInt8) : Prop := text.takeWhile isTokenChar = []

theorem readToken_written {token rest : List UInt8} (written : Token token) (ends : Ends rest) :
    readToken (token ++ rest) = some (token, rest) := by
  obtain ⟨some, chars⟩ := written
  obtain ⟨c, token, rfl⟩ := List.exists_cons_of_ne_nil some
  have skipped : skipBlanks (c :: token ++ rest) = c :: token ++ rest :=
    skipBlanks_cons (token_char_visible (chars c List.mem_cons_self)) _
  have taken : (c :: token ++ rest).takeWhile isTokenChar = c :: token := by
    rw [List.takeWhile_append_of_pos chars, ends, List.append_nil]
  have whole := List.takeWhile_append_dropWhile (p := isTokenChar) (l := c :: token ++ rest)
  rw [taken] at whole
  rw [readToken, skipped, taken, if_neg some, List.append_cancel_left whole]

theorem readToken_blank (text : List UInt8) : readToken (SP :: text) = readToken text := by
  rw [readToken, skipBlanks_blank (.inl rfl), readToken]

theorem readToken_token {text token rest : List UInt8} (read : readToken text = some (token, rest)) : Token token := by
  rw [readToken] at read
  split at read
  · cases read
  next found =>
    cases read
    exact ⟨found, fun c member => List.mem_takeWhile_imp member⟩

theorem readSpecial_found (other : c ≠ SP ∧ c ≠ 9) (text : List UInt8) :
    readSpecial c (c :: text) = some text := by
  rw [readSpecial, skipBlanks_cons other]
  exact if_pos rfl

/-- The text of the parameters -/
def parameters (param : List (List UInt8 × List UInt8)) : List UInt8 :=
  param.flatMap fun (name, value) => format_param name value

/-- A value that is written so that it can be read -/
def Readable (value : List UInt8) : Prop := value ≠ [] ∧ (SP ∈ value → ∃ c ∈ value, mu_istspec c = true)

theorem skip_class_comp_nil :
    mu_str_skip_class_comp value mu_istspec = [] ↔ ∀ c ∈ value, mu_istspec c = false := by
  rw [mu_str_skip_class_comp, List.dropWhile_eq_nil_iff]
  exact forall₂_congr fun c _ => iff_of_eq (Bool.not_eq_true' _)

theorem printable_token_char (visible : 32 ≤ c) (small : c < 127) (plain : mu_istspec c = false) :
    isTokenChar c = true ↔ c ≠ SP := by
  revert visible small plain
  exact byte_forall (P := fun c => 32 ≤ c → c < 127 → mu_istspec c = false → (isTokenChar c = true ↔ c ≠ SP))
    (by decide +kernel) c

/-- A value without special characters has to be a token. -/
theorem readable_plain (printable : Printable value) (plain : ∀ c ∈ value, mu_istspec c = false) :
    Readable value ↔ Token value := by
  have char {c : UInt8} (member : c ∈ value) : isTokenChar c = true ↔ c ≠ SP :=
    printable_token_char (printable c member).1 (printable c member).2 (plain c member)
  refine and_congr_right fun _ => ⟨fun readable c member => (char member).mpr ?_, fun token blank => ?_⟩
  · rintro rfl
    obtain ⟨c, there, special⟩ := readable member
    rw [plain c there] at special
    cases special
  · exact absurd rfl ((char blank).mp (token SP blank))

theorem parameters_ends (param : List (List UInt8 × List UInt8)) : Ends (parameters param) := by
  cases param with
  | nil => rfl
  | cons first param => rfl

theorem no_quote (plain : ∀ c ∈ value, mu_istspec c = false)
    (param : List (List UInt8 × List UInt8)) : readSpecial DQUOTE (value ++ parameters param) = none := by
  induction value with
  | nil =>
    cases param with
    | nil => rfl
    | cons first param => rfl
  | cons c value ih =>
    have later := ih fun d member => plain d (List.mem_cons_of_mem _ member)
    by_cases blank : c = SP ∨ c = 9
    · rw [readSpecial] at later
      rw [List.cons_append, readSpecial, skipBlanks_blank blank, later]
    · have other : c ≠ DQUOTE := by
        rintro rfl
        exact absurd (plain DQUOTE List.mem_cons_self) (by decide)
      rw [List.cons_append, readSpecial, skipBlanks_cons (not_or.mp blank)]
      exact if_neg other

/-- What follows the name -/
def writtenValue (value : List UInt8) : List UInt8 :=
  if mu_str_skip_class_comp value mu_istspec ≠ [] then DQUOTE :: quote_loop value ++ [DQUOTE] else value

theorem parameters_cons (name value : List UInt8) (param : List (List UInt8 × List UInt8)) :
    parameters ((name, value) :: param) =
      SEMICOLON :: SP :: (name ++ EQUAL :: (writtenValue value ++ parameters param)) := by
  show format_param name value ++ parameters param = _
  rw [format_param, ← writtenValue, List.append_assoc, List.append_assoc, List.cons_append]
  rfl

theorem readParameters_cons {name : List UInt8} (token : Token name) (n : Nat) (text : List UInt8) :
    readParameters (n + 1) (SEMICOLON :: SP :: (name ++ EQUAL :: text)) =
      (readValue text).bind fun (value, rest) => (readParameters n rest).map ((name, value) :: ·) := by
  have semicolon : SEMICOLON ≠ SP ∧ SEMICOLON ≠ 9 := by decide
  have read : readToken (SP :: (name ++ EQUAL :: text)) = some (name, EQUAL :: text) := by
    rw [readToken_blank]
    exact readToken_written token (List.takeWhile_cons_of_neg (by decide))
  have equal : readSpecial EQUAL (EQUAL :: text) = some text := readSpecial_found (by decide) text
  rw [readParameters, skipBlanks_cons semicolon, if_neg (List.cons_ne_nil _ _), readSpecial_found semicolon]
  simp only [readParameter, read, equal, Option.bind_eq_bind, Option.bind_some, Option.pure_def]
  cases readValue text with
  | none => rfl
  | some found =>
    show (readParameters n found.2).bind _ = (readParameters n found.2).map _
    cases readParameters n found.2 with
    | none => rfl
    | some later => rfl

theorem readValue_quoted (printable : Printable value) (rest : List UInt8) :
    readValue (DQUOTE :: quote_loop value ++ [DQUOTE] ++ rest) = some (value, rest) := by
  rw [List.cons_append, List.cons_append, List.append_assoc, List.singleton_append, readValue,
    readSpecial_found (by decide)]
  exact readQuoted_written printable rest

theorem readParameters_iff {param : List (List UInt8 × List UInt8)} (names : ∀ p ∈ param, Token p.1)
    (values : ∀ p ∈ param, Printable p.2) : ∀ {n : Nat}, (parameters param).length ≤ n →
      (readParameters n (parameters param) = some param ↔ ∀ p ∈ param, Readable p.2) := by
  induction param with
  | nil =>
    intro n _
    cases n with
    | zero => exact iff_of_true rfl (List.forall_mem_nil _)
    | succ n => exact iff_of_true rfl (List.forall_mem_nil _)
  | cons first param ih =>
    obtain ⟨name, value⟩ := first
    intro n enough
    have later {n : Nat} := @ih (fun p member => names p (List.mem_cons_of_mem _ member))
      (fun p member => values p (List.mem_cons_of_mem _ member)) n
    have printable : Printable value := values _ List.mem_cons_self
    rw [parameters_cons] at enough ⊢
    simp only [List.length_cons, List.length_append] at enough
    obtain ⟨n, rfl⟩ := Nat.exists_eq_succ_of_ne_zero (show n ≠ 0 by omega)
    rw [readParameters_cons (names _ List.mem_cons_self), List.forall_mem_cons, ← @later n (by omega)]
    -- The value is read as it is written, and the others after it.
    have same (read : readValue (writtenValue value ++ parameters param) = some (value, parameters param)) :
        (((readValue (writtenValue value ++ parameters param)).bind fun (value, rest) =>
          (readParameters n rest).map ((name, value) :: ·)) = some ((name, value) :: param) ↔
            readParameters n (parameters param) = some param) := by
      rw [read]
      show (readParameters n (parameters param)).map _ = _ ↔ _
      rw [Option.map_eq_some_iff]
      refine ⟨?_, fun found => ⟨param, found, rfl⟩⟩
      rintro ⟨found, read, same⟩
      rw [read, List.tail_eq_of_cons_eq same]
    by_cases plain : ∀ c ∈ value, mu_istspec c = false
    · have written : writtenValue value = value := by
        rw [writtenValue, if_neg (not_not.mpr (skip_class_comp_nil.mpr plain))]
      have value_read : readValue (value ++ parameters param) = readToken (value ++ parameters param) := by
        rw [readValue, no_quote plain]
      rw [written] at same ⊢
      rw [readable_plain printable plain]
      by_cases token : Token value
      · rw [same (by rw [value_read]; exact readToken_written token (parameters_ends param))]
        exact (and_iff_right token).symm
      · refine iff_of_false (fun read => token ?_) (fun both => token both.1)
        obtain ⟨⟨found, rest⟩, first, more⟩ := Option.bind_eq_some_iff.mp read
        obtain ⟨others, -, all⟩ := Option.map_eq_some_iff.mp more
        cases all
        rw [value_read] at first
        exact readToken_token first
    · have quotes : writtenValue value = DQUOTE :: quote_loop value ++ [DQUOTE] := by
        rw [writtenValue, if_pos (mt skip_class_comp_nil.mp plain)]
      have readable : Readable value := by
        obtain ⟨c, member, special⟩ := not_forall₂.mp plain
        rw [Bool.not_eq_false] at special
        exact ⟨List.ne_nil_of_mem member, fun _ => ⟨c, member, special⟩⟩
      rw [quotes] at same ⊢
      rw [same (readValue_quoted printable _)]
      exact (and_iff_right readable).symm

theorem readContentType_tokens {text type subtype : List UInt8} {param : List (List UInt8 × List UInt8)}
    (read : readContentType text = some (type, subtype, param)) : Token type ∧ Token subtype := by
  rw [readContentType] at read
  obtain ⟨⟨first, left⟩, token, read⟩ := Option.bind_eq_some_iff.mp read
  obtain ⟨after, -, read⟩ := Option.bind_eq_some_iff.mp read
  obtain ⟨⟨second, left⟩, token', read⟩ := Option.bind_eq_some_iff.mp read
  obtain ⟨found, -, read⟩ := Option.bind_eq_some_iff.mp read
  cases read
  exact ⟨readToken_token token, readToken_token token'⟩

theorem readContentType_written {type subtype : List UInt8} (token : Token type) (token' : Token subtype)
    (param : List (List UInt8 × List UInt8)) :
    readContentType (type ++ SLASH :: (subtype ++ parameters param)) =
      (readParameters (parameters param).length (parameters param)).map fun found => (type, subtype, found) := by
  have first : readToken (type ++ SLASH :: (subtype ++ parameters param)) =
      some (type, SLASH :: (subtype ++ parameters param)) :=
    readToken_written token (List.takeWhile_cons_of_neg (by decide))
  have slash : readSpecial SLASH (SLASH :: (subtype ++ parameters param)) = some (subtype ++ parameters param) :=
    readSpecial_found (by decide) _
  have second := readToken_written token' (parameters_ends param)
  simp only [readContentType, first, slash, second, Option.bind_eq_bind, Option.bind_some, Option.pure_def]
  cases readParameters (parameters param).length (parameters param) with
  | none => rfl
  | some found => rfl

/-- What is written denotes the same, if and only if the type and the subtype are tokens and every value is
    readable. -/
theorem content_type_read_iff (type subtype : List UInt8) {param : List (List UInt8 × List UInt8)}
    (names : ∀ p ∈ param, Token p.1) (values : ∀ p ∈ param, Printable p.2) :
    readContentType (mu_content_type_format ⟨type, some subtype, param⟩) = some (type, subtype, param) ↔
      Token type ∧ Token subtype ∧
        ∀ p ∈ param, p.2 ≠ [] ∧ (SP ∈ p.2 → ∃ c ∈ p.2, mu_istspec c = true) := by
  have text : mu_content_type_format ⟨type, some subtype, param⟩ = type ++ SLASH :: (subtype ++ parameters param) := by
    rw [mu_content_type_format, List.append_assoc]
    rfl
  have list := readParameters_iff names values (Nat.le_refl _)
  rw [text]
  refine ⟨fun read => ?_, fun ⟨token, token', readable⟩ => ?_⟩
  · obtain ⟨token, token'⟩ := readContentType_tokens read
    rw [readContentType_written token token'] at read
    obtain ⟨found, same, whole⟩ := Option.map_eq_some_iff.mp read
    cases whole
    exact ⟨token, token', list.mp same⟩
  · rw [readContentType_written token token', list.mpr readable]
    rfl

theorem content_type_read_quoted :
    readContentType (mu_content_type_format ⟨ascii "text", some (ascii "plain"),
      [(ascii "charset", ascii "utf-8"), (ascii "name", ascii "a \"b\" \\c")]⟩) =
        some (ascii "text", ascii "plain", [(ascii "charset", ascii "utf-8"), (ascii "name", ascii "a \"b\" \\c")]) :=
  (content_type_read_iff (ascii "text") (ascii "plain") (by unfold Token; decide +kernel)
    (by unfold Printable; decide +kernel)).mpr (by unfold Token; decide +kernel)

/-- A blank without a special character, and an empty value, are written without quotes: no parameter. -/
theorem content_type_blank_lost :
    readContentType
        (mu_content_type_format ⟨ascii "text", some (ascii "plain"), [(ascii "name", ascii "a b")]⟩) = none ∧
      readContentType (mu_content_type_format ⟨ascii "text", some (ascii "plain"), [(ascii "name", [])]⟩) = none := by
  decide +kernel

end Mailutils.ContentFormat

import Mathlib.Data.List.TakeWhile
import Mathlib.Data.Nat.Digits.Defs

/-!
Characters and strings as the C library looks at them. A string is a list of bytes without its terminating null.
-/
namespace Mailutils

/-- Strings compared in an `if` are compared by this instance. -/
instance string_lawful : LawfulBEq (List UInt8) := inferInstance

/-- The bytes of a text of ASCII characters. -/
def ascii (text : String) : List UInt8 := text.toList.map Char.toUInt8

/-- `'\t'` -/
abbrev TAB : UInt8 := 9
/-- `'\n'` -/
abbrev LF : UInt8 := 10
/-- `'\r'` -/
abbrev CR : UInt8 := 13
/-- `' '` -/
abbrev SP : UInt8 := 32
/-- `'"'` -/
abbrev DQUOTE : UInt8 := 34
/-- `'%'` -/
abbrev PERCENT : UInt8 := 37
/-- `'&'` -/
abbrev AMPERSAND : UInt8 := 38
/-- `'('` -/
abbrev LPAREN : UInt8 := 40
/-- `')'` -/
abbrev RPAREN : UInt8 := 41
/-- `'*'` -/
abbrev STAR : UInt8 := 42
/-- `'+'` -/
abbrev PLUS : UInt8 := 43
/-- `','` -/
abbrev COMMA : UInt8 := 44
/-- `'-'` -/
abbrev MINUS : UInt8 := 45
/-- `'.'` -/
abbrev DOT : UInt8 := 46
/-- `'/'` -/
abbrev SLASH : UInt8 := 47
/-- `':'` -/
abbrev COLON : UInt8 := 58
/-- `';'` -/
abbrev SEMICOLON : UInt8 := 59
/-- `'<'` -/
abbrev LESS : UInt8 := 60
/-- `'='` -/
abbrev EQUAL : UInt8 := 61
/-- `'>'` -/
abbrev GREATER : UInt8 := 62
/-- `'?'` -/
abbrev QUESTION : UInt8 := 63
/-- `'@'` -/
abbrev AT : UInt8 := 64
/-- `'['` -/
abbrev LBRACKET : UInt8 := 91
/-- `'\\'` -/
abbrev BACKSLASH : UInt8 := 92
/-- `']'` -/
abbrev RBRACKET : UInt8 := 93
/-- `'_'` -/
abbrev UNDERSCORE : UInt8 := 95
/-- `'{'` -/
abbrev LBRACE : UInt8 := 123
/-- `'}'` -/
abbrev RBRACE : UInt8 := 125

/-- What holds of the 256 numbers holds of the bytes. -/
theorem byte_forall {P : UInt8 → Prop} (all : ∀ n : Fin 256, P (UInt8.ofNat n)) (b : UInt8) : P b := by
  have := all ⟨b.toNat, b.toNat_lt⟩
  rwa [UInt8.ofNat_toNat] at this

/-- One more than the greatest `unsigned long`. -/
def ulong : Nat := 18446744073709551616

def isspace (c : UInt8) : Bool := c = 32 ∨ 9 ≤ c ∧ c ≤ 13

def tolower (c : UInt8) : UInt8 := if 65 ≤ c ∧ c ≤ 90 then c + 32 else c

def isdigit (c : UInt8) : Bool := 48 ≤ c ∧ c ≤ 57

/-- The string that begins in a buffer. -/
def cstring (buf : List UInt8) : List UInt8 := buf.takeWhile (· ≠ 0)

def decimal (digits : List UInt8) : Nat := digits.foldl (fun v c => 10 * v + (c.toNat - 48)) 0

/-- The conversion `%lu`: the value and what follows it. A value that is too
    large is `ULONG_MAX`, a minus sign negates modulo the size of the type. -/
def convertLu (s : List UInt8) : Option (Nat × List UInt8) :=
  let s := s.dropWhile isspace
  let unsigned := if s.head? = some PLUS ∨ s.head? = some MINUS then s.tail else s
  let digits := unsigned.takeWhile isdigit
  if digits = [] then none
  else
    let value := decimal digits
    some (if ulong ≤ value then ulong - 1 else if s.head? = some MINUS then (ulong - value) % ulong else value,
      unsigned.dropWhile isdigit)

def mu_isxdigit (c : UInt8) : Bool := isdigit c ∨ 65 ≤ c ∧ c ≤ 70 ∨ 97 ≤ c ∧ c ≤ 102

def mu_tolower (c : UInt8) : UInt8 := if 65 ≤ c ∧ c ≤ 90 then c - 65 + 97 else c

def mu_toupper (c : UInt8) : UInt8 := if 97 ≤ c ∧ c ≤ 122 then c - 97 + 65 else c

def mu_isascii (c : UInt8) : Bool := c < 128

/-- A byte as a `char`, which is signed. -/
def schar (c : UInt8) : Int := if c < 128 then c.toNat else c.toNat - 256

def strcmp : List UInt8 → List UInt8 → Int
  | [], [] => 0
  | [], b :: _ => -(b.toNat : Int)
  | a :: _, [] => a.toNat
  | a :: as, b :: bs => if a = b then strcmp as bs else a.toNat - b.toNat

def mu_c_strcasecmp : List UInt8 → List UInt8 → Int
  | [], [] => 0
  | [], b :: _ => -schar b
  | a :: _, [] => schar a
  | a :: as, b :: bs =>
    let d :=
      if mu_isascii a ∧ mu_isascii b then ((mu_toupper a).toNat : Int) - (mu_toupper b).toNat
      else schar a - schar b
    if d = 0 then mu_c_strcasecmp as bs else d

/-- `strchr`, as an offset; it also finds the null byte that ends the string. -/
def strchr (string : List UInt8) (c : UInt8) : Option Nat := (string ++ [0]).findIdx? (· = c)

/-- `%lu` -/
def printLu (v : Nat) : List UInt8 := if v = 0 then [48] else (Nat.digits 10 v).reverse.map fun d => (d + 48).toUInt8

/-- `%*lu` with the width of an `unsigned long`. -/
def printPadded (v : Nat) : List UInt8 := (printLu v).leftpad 20 SP

theorem mu_tolower_toNat (c : UInt8) :
    (mu_tolower c).toNat = if 65 ≤ c.toNat ∧ c.toNat ≤ 90 then c.toNat + 32 else c.toNat := by
  have bound := c.toNat_lt
  unfold mu_tolower
  simp only [UInt8.le_iff_toNat_le, UInt8.reduceToNat]
  split
  · simp only [UInt8.toNat_add, UInt8.toNat_sub, UInt8.reduceToNat]
    omega
  · rfl

theorem mu_toupper_toNat (c : UInt8) :
    (mu_toupper c).toNat = if 97 ≤ c.toNat ∧ c.toNat ≤ 122 then c.toNat - 32 else c.toNat := by
  have bound := c.toNat_lt
  unfold mu_toupper
  simp only [UInt8.le_iff_toNat_le, UInt8.reduceToNat]
  split
  · simp only [UInt8.toNat_add, UInt8.toNat_sub, UInt8.reduceToNat]
    omega
  · rfl

theorem strcmp_eq_zero : ∀ {a b : List UInt8}, 0 ∉ a → 0 ∉ b → (strcmp a b = 0 ↔ a = b) := by
  intro a
  induction a with
  | nil =>
    intro b _ ends
    cases b with
    | nil => simp [strcmp]
    | cons b bs =>
      have positive : b.toNat ≠ 0 := fun zero => ends (List.mem_cons.mpr (Or.inl (UInt8.toNat_inj.mp zero.symm)))
      simp only [strcmp, reduceCtorEq, iff_false]
      omega
  | cons a as ih =>
    intro b ends ends'
    rw [List.mem_cons, not_or] at ends
    cases b with
    | nil =>
      have positive : a.toNat ≠ 0 := fun zero => ends.1 (UInt8.toNat_inj.mp zero.symm)
      simp only [strcmp, reduceCtorEq, iff_false]
      omega
    | cons b bs =>
      rw [List.mem_cons, not_or] at ends'
      rw [strcmp]
      split
      next same => rw [ih ends.2 ends'.2, same, List.cons.injEq, eq_self, true_and]
      next other =>
        have unlike : a.toNat ≠ b.toNat := fun h => other (UInt8.toNat_inj.mp h)
        simp only [List.cons.injEq, other, false_and, iff_false]
        omega

private theorem difference_eq_zero (a b : UInt8) :
    (if mu_isascii a ∧ mu_isascii b then ((mu_toupper a).toNat : Int) - (mu_toupper b).toNat
      else schar a - schar b) = 0 ↔ mu_tolower a = mu_tolower b := by
  have left := a.toNat_lt
  have right := b.toNat_lt
  rw [← UInt8.toNat_inj, mu_tolower_toNat, mu_tolower_toNat, mu_toupper_toNat, mu_toupper_toNat]
  simp only [mu_isascii, schar, decide_eq_true_eq, UInt8.lt_iff_toNat_lt, UInt8.reduceToNat]
  split_ifs <;> omega

theorem schar_ne_zero {a : UInt8} (char : (0 : UInt8) ≠ a) : schar a ≠ 0 := by
  have positive : a.toNat ≠ 0 := fun zero => char (UInt8.toNat_inj.mp zero.symm)
  have bound := a.toNat_lt
  unfold schar
  split
  · omega
  · omega

theorem mu_c_strcasecmp_eq_zero : ∀ {a b : List UInt8}, 0 ∉ a → 0 ∉ b →
    (mu_c_strcasecmp a b = 0 ↔ a.map mu_tolower = b.map mu_tolower) := by
  intro a
  induction a with
  | nil =>
    intro b _ ends
    cases b with
    | nil => simp [mu_c_strcasecmp]
    | cons b bs =>
      rw [List.mem_cons, not_or] at ends
      simp [mu_c_strcasecmp, schar_ne_zero ends.1]
  | cons a as ih =>
    intro b ends ends'
    rw [List.mem_cons, not_or] at ends
    cases b with
    | nil => simp [mu_c_strcasecmp, schar_ne_zero ends.1]
    | cons b bs =>
      rw [List.mem_cons, not_or] at ends'
      have byte := difference_eq_zero a b
      rw [mu_c_strcasecmp, List.map_cons, List.map_cons, List.cons.injEq, ← byte, ← ih ends.2 ends'.2]
      generalize (if mu_isascii a ∧ mu_isascii b then _ else _) = d
      split
      next zero => simp [zero]
      next other => simp [other]

end Mailutils

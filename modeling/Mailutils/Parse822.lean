import Mailutils.Characters
import Mathlib.Algebra.GroupWithZero.Nat

/-!
Reading a list of mail addresses (`libmailutils/address/parse822.c`), by recursive descent over the
characters that are left. White space and comments are skipped before most of the tokens, and a function
that finds nothing may have skipped them all the same. A string that is being put together is NULL as long
as nothing was appended, and only strings that are not empty are appended: the empty list is NULL.
-/
namespace Mailutils.Parse822

def mu_parse822_is_char (c : UInt8) : Bool := c < 128

def mu_parse822_is_lwsp_char (c : UInt8) : Bool := isspace c

/-- The class `MU_CTYPE_IMATM` -/
def mu_parse822_is_atom_char (c : UInt8) : Bool :=
  33 ≤ c && c ≤ 126 &&
    c ∉ [DQUOTE, LPAREN, RPAREN, COMMA, DOT, COLON, SEMICOLON, LESS, GREATER, AT, LBRACKET, BACKSLASH, RBRACKET]

def mu_parse822_is_q_text (c : UInt8) : Bool := mu_parse822_is_char c && c ∉ [DQUOTE, BACKSLASH, CR]

def mu_parse822_is_d_text (c : UInt8) : Bool := mu_parse822_is_char c && c ∉ [LBRACKET, RBRACKET, BACKSLASH, CR]

/-! ## Tokens

A function returns whether it succeeds, the text that it found and the characters that are left. -/

/-- The characters of line ends are white space themselves. -/
def mu_parse822_skip_lwsp (p : List UInt8) : List UInt8 := p.dropWhile mu_parse822_is_lwsp_char

@[irreducible] def mu_parse822_special (p : List UInt8) (c : UInt8) : Bool × List UInt8 :=
  match mu_parse822_skip_lwsp p with
  | [] => (false, [])
  | d :: rest => if d = c then (true, rest) else (false, d :: rest)

/-- The loop of `mu_parse822_comment`, with the number of comments around this one: what is left
    after the comment, if it ends, and its text. -/
def comment_loop : Nat → List UInt8 → Option (List UInt8) × List UInt8
  | _, [] => (none, [])
  | depth, c :: p =>
    if c = RPAREN then
      match depth with
      | 0 => (some p, [])
      | depth + 1 => comment_loop depth p
    else if c = LPAREN then comment_loop (depth + 1) p
    else if c = BACKSLASH then
      match p with
      | [] => (none, [])
      | d :: p =>
        let (rest, text) := comment_loop depth p
        (rest, d :: text)
    else if c = CR then comment_loop depth p
    else if mu_parse822_is_char c then
      let (rest, text) := comment_loop depth p
      (rest, c :: text)
    else comment_loop depth p

/-- The text of a comment that does not end stays in the string. -/
@[irreducible] def mu_parse822_comment (p : List UInt8) : Bool × List UInt8 × List UInt8 :=
  match mu_parse822_special p LPAREN with
  | (false, rest) => (false, [], rest)
  | (true, rest) =>
    match comment_loop 0 rest with
    | (some rest, text) => (true, text, rest)
    | (none, text) => (false, text, p)

def skip_comments_loop : Nat → List UInt8 → List UInt8
  | 0, p => p
  | n + 1, p =>
    match mu_parse822_comment p with
    | (true, _, rest) => skip_comments_loop n rest
    | (false, _, rest) => rest

@[irreducible] def mu_parse822_skip_comments (p : List UInt8) : List UInt8 := skip_comments_loop (p.length + 1) p

/-- `mu_parse822_atom` and `parse822_atom_ex`, of the characters that belong to the atom. -/
@[irreducible] def atom_of (constituent : UInt8 → Bool) (p : List UInt8) : Bool × List UInt8 × List UInt8 :=
  let p := mu_parse822_skip_comments p
  let atom := p.takeWhile constituent
  (atom ≠ [], atom, p.dropWhile constituent)

/-- Dots belong to the atom. -/
def mu_parse822_atom : List UInt8 → Bool × List UInt8 × List UInt8 :=
  atom_of fun c => c = DOT || mu_parse822_is_atom_char c

def parse822_atom_ex : List UInt8 → Bool × List UInt8 × List UInt8 := atom_of mu_parse822_is_atom_char

/-- The loop of `mu_parse822_quoted_string`: the text and what is left, if the string ends. -/
def quoted_loop : List UInt8 → Option (List UInt8 × List UInt8)
  | [] => none
  | c :: p =>
    if c = DQUOTE then some ([], p)
    else if c = BACKSLASH then
      match p with
      | [] => none
      | d :: p => (quoted_loop p).map fun (qstr, rest) => (d :: qstr, rest)
    else if c = CR then quoted_loop p
    else (quoted_loop p).map fun (qstr, rest) => (c :: qstr, rest)

@[irreducible] def mu_parse822_quoted_string (p : List UInt8) : Bool × List UInt8 × List UInt8 :=
  let p := mu_parse822_skip_comments p
  match mu_parse822_special p DQUOTE with
  | (false, rest) => (false, [], rest)
  | (true, rest) =>
    match quoted_loop rest with
    | some (qstr, rest) => (true, qstr, rest)
    | none => (false, [], p)

/-- An empty quoted string is a word without text. -/
@[irreducible] def mu_parse822_word (p : List UInt8) : Bool × List UInt8 × List UInt8 :=
  let p := mu_parse822_skip_comments p
  match mu_parse822_quoted_string p with
  | (true, qstr, rest) => (true, qstr, rest)
  | (false, _, rest) => parse822_atom_ex rest

/-- `struct mu_address`; the empty list is NULL, but for `email`. -/
structure Address where
  comments : List UInt8 := []
  personal : List UInt8 := []
  email : Option (List UInt8) := none
  local_part : List UInt8 := []
  domain : List UInt8 := []
  route : List UInt8 := []
  deriving DecidableEq, Repr

def mu_parse822_quote_string (raw : List UInt8) : List UInt8 :=
  DQUOTE :: raw.flatMap (fun c => if mu_parse822_is_q_text c then [c] else [BACKSLASH, c]) ++ [DQUOTE]

def mu_parse822_quote_local_part (raw : List UInt8) : List UInt8 :=
  if raw.all fun c => c = DOT || mu_parse822_is_atom_char c then raw else mu_parse822_quote_string raw

/-- `fill_mb` without hints. -/
def fill_mb (local_part domain : List UInt8) : Address where
  email :=
    if local_part = [] then none
    else some (mu_parse822_quote_local_part local_part ++ if domain = [] then [] else AT :: domain)
  local_part := local_part
  domain := domain

/-- `mu_parse822_local_part`. If no word follows a dot, the dot is left. -/
def local_part_loop : Nat → List UInt8 → Bool × List UInt8 × List UInt8
  | 0, p => (false, [], p)
  | n + 1, p =>
    match mu_parse822_word (mu_parse822_skip_comments p) with
    | (false, _, _) => (false, [], p)
    | (true, word, rest) =>
      let save2 := mu_parse822_skip_comments rest
      match mu_parse822_special save2 DOT with
      | (false, _) => (true, word, save2)
      | (true, rest) =>
        match local_part_loop n rest with
        | (true, more, rest) => (true, word ++ DOT :: more, rest)
        | (false, _, _) => (true, word, save2)

@[irreducible] def mu_parse822_local_part (p : List UInt8) : Bool × List UInt8 × List UInt8 := local_part_loop (p.length + 1) p

/-- The loop of `mu_parse822_domain_literal` over text and quoted pairs. -/
def literal_loop : List UInt8 → List UInt8 × List UInt8
  | [] => ([], [])
  | c :: p =>
    if mu_parse822_is_d_text c then
      let (literal, rest) := literal_loop p
      (c :: literal, rest)
    else if c = BACKSLASH then
      match p with
      | [] => ([], [c])
      | d :: p =>
        let (literal, rest) := literal_loop p
        (d :: literal, rest)
    else ([], c :: p)

@[irreducible] def mu_parse822_domain_literal (p : List UInt8) : Bool × List UInt8 × List UInt8 :=
  match mu_parse822_special p LBRACKET with
  | (false, rest) => (false, [], rest)
  | (true, rest) =>
    let (literal, rest) := literal_loop rest
    match mu_parse822_special rest RBRACKET with
    | (true, rest) => (true, LBRACKET :: literal ++ [RBRACKET], rest)
    | (false, _) => (false, [], p)

@[irreducible] def mu_parse822_sub_domain (p : List UInt8) : Bool × List UInt8 × List UInt8 :=
  match mu_parse822_atom p with
  | (true, domain_ref, rest) => (true, domain_ref, rest)
  | (false, _, rest) => mu_parse822_domain_literal rest

/-- `mu_parse822_domain`. Comments after the domain are left. -/
def domain_loop : Nat → List UInt8 → Bool × List UInt8 × List UInt8
  | 0, p => (false, [], p)
  | n + 1, p =>
    match mu_parse822_sub_domain (mu_parse822_skip_comments p) with
    | (false, _, _) => (false, [], p)
    | (true, sub_domain, save2) =>
      match mu_parse822_special (mu_parse822_skip_comments save2) DOT with
      | (false, _) => (true, sub_domain, save2)
      | (true, rest) =>
        match domain_loop n rest with
        | (true, more, rest) => (true, sub_domain ++ DOT :: more, rest)
        | (false, _, _) => (true, sub_domain, save2)

@[irreducible] def mu_parse822_domain (p : List UInt8) : Bool × List UInt8 × List UInt8 := domain_loop (p.length + 1) p

@[irreducible] def mu_parse822_addr_spec (p : List UInt8) : Option Address × List UInt8 :=
  match mu_parse822_local_part p with
  | (false, _, _) => (none, p)
  | (true, local_part, rest) =>
    match mu_parse822_special (mu_parse822_skip_comments rest) AT with
    | (false, _) => (none, p)
    | (true, rest) =>
      match mu_parse822_domain rest with
      | (false, _, _) => (none, p)
      | (true, domain, rest) => (some (fill_mb local_part domain), rest)

/-- The character is neither white space nor the begin of a comment. -/
def solid (c : UInt8) : Bool := !mu_parse822_is_lwsp_char c && c ≠ LPAREN

private theorem solid_lwsp {c : UInt8} (firm : solid c = true) : mu_parse822_is_lwsp_char c = false := by
  rw [solid, Bool.and_eq_true, Bool.not_eq_true'] at firm
  exact firm.1

theorem solid_paren {c : UInt8} (firm : solid c = true) : c ≠ LPAREN := by
  rw [solid, Bool.and_eq_true, decide_eq_true_eq] at firm
  exact firm.2

theorem skip_lwsp_solid {c : UInt8} (firm : solid c = true) (p : List UInt8) :
    mu_parse822_skip_lwsp (c :: p) = c :: p := by
  rw [mu_parse822_skip_lwsp, List.dropWhile_cons_of_neg]
  rw [solid_lwsp firm]
  exact Bool.false_ne_true

theorem special_found {c : UInt8} (firm : solid c = true) (p : List UInt8) :
    mu_parse822_special (c :: p) c = (true, p) := by
  rw [mu_parse822_special, skip_lwsp_solid firm]
  exact if_pos rfl

theorem special_missed {c d : UInt8} (firm : solid d = true) (other : d ≠ c) (p : List UInt8) :
    mu_parse822_special (d :: p) c = (false, d :: p) := by
  rw [mu_parse822_special, skip_lwsp_solid firm]
  exact if_neg other

/-- Nothing but white space is skipped where no comment begins. -/
theorem skip_comments_lwsp {p : List UInt8} {c : UInt8} {rest : List UInt8}
    (skipped : mu_parse822_skip_lwsp p = c :: rest) (other : c ≠ LPAREN) :
    mu_parse822_skip_comments p = c :: rest := by
  rw [mu_parse822_skip_comments, skip_comments_loop, mu_parse822_comment, mu_parse822_special, skipped]
  simp only [if_neg other]

theorem skip_comments_solid {c : UInt8} (firm : solid c = true) (p : List UInt8) :
    mu_parse822_skip_comments (c :: p) = c :: p :=
  skip_comments_lwsp (skip_lwsp_solid firm p) (solid_paren firm)

end Mailutils.Parse822

import Mailutils.Parse822

/-!
The texts that the parser of addresses reads as a local part or a domain: atoms with single dots between them, and
strings between quotes.
-/
namespace Mailutils.AddrFormat
open Mailutils.Parse822

def is_ref_char (c : UInt8) : Bool := c = DOT || mu_parse822_is_atom_char c

/-- Atoms with single dots between them. -/
inductive DotAtom : List UInt8 → Prop
  | atom {word : List UInt8} (some : word ≠ []) (atoms : ∀ c ∈ word, mu_parse822_is_atom_char c = true) : DotAtom word
  | dot {word more : List UInt8} (some : word ≠ []) (atoms : ∀ c ∈ word, mu_parse822_is_atom_char c = true)
      (rest : DotAtom more) : DotAtom (word ++ DOT :: more)

variable {c : UInt8}

theorem atom_char_solid : mu_parse822_is_atom_char c = true → solid c = true :=
  byte_forall (P := fun c => mu_parse822_is_atom_char c = true → solid c = true) (by decide +kernel) c

theorem ref_char_solid : is_ref_char c = true → solid c = true :=
  byte_forall (P := fun c => is_ref_char c = true → solid c = true) (by decide +kernel) c

private theorem ref_char_ne {c d : UInt8} (char : is_ref_char c = true) (other : is_ref_char d = false) : c ≠ d := by
  rintro rfl
  rw [char] at other
  cases other

private theorem atom_char_ne {c d : UInt8} (char : mu_parse822_is_atom_char c = true) (other : mu_parse822_is_atom_char d = false) :
    c ≠ d := by
  rintro rfl
  rw [char] at other
  cases other

theorem quoted_loop_end (p : List UInt8) : quoted_loop (DQUOTE :: p) = some ([], p) := by
  rw [quoted_loop.eq_def]
  rfl

theorem quoted_loop_pair (d : UInt8) (p : List UInt8) :
    quoted_loop (BACKSLASH :: d :: p) = (quoted_loop p).map fun (qstr, rest) => (d :: qstr, rest) := by
  rw [quoted_loop.eq_def]
  rfl

theorem quoted_loop_plain (plain : c ∉ [DQUOTE, BACKSLASH, CR]) (p : List UInt8) :
    quoted_loop (c :: p) = (quoted_loop p).map fun (qstr, rest) => (c :: qstr, rest) := by
  simp only [List.mem_cons, List.not_mem_nil, or_false, not_or] at plain
  rw [quoted_loop.eq_def]
  dsimp only
  rw [if_neg plain.1, if_neg plain.2.1, if_neg plain.2.2]

theorem quoted_loop_written {enc : UInt8 → List UInt8} {text : List UInt8} (rest : List UInt8)
    (written : ∀ c ∈ text, enc c = [BACKSLASH, c] ∨ enc c = [c] ∧ c ∉ [DQUOTE, BACKSLASH, CR]) :
    quoted_loop (text.flatMap enc ++ DQUOTE :: rest) = some (text, rest) := by
  induction text with
  | nil => exact quoted_loop_end rest
  | cons c text ih =>
    have more := ih fun d member => written d (List.mem_cons_of_mem _ member)
    rw [List.flatMap_cons, List.append_assoc]
    rcases written c List.mem_cons_self with quoted | ⟨same, plain⟩
    · rw [quoted, List.cons_append, List.singleton_append, quoted_loop_pair, more]
      rfl
    · rw [same, List.singleton_append, quoted_loop_plain plain, more]
      rfl

theorem word_quoted {enc : UInt8 → List UInt8} {text : List UInt8} (rest : List UInt8)
    (written : ∀ c ∈ text, enc c = [BACKSLASH, c] ∨ enc c = [c] ∧ c ∉ [DQUOTE, BACKSLASH, CR]) :
    mu_parse822_word (DQUOTE :: (text.flatMap enc ++ DQUOTE :: rest)) = (true, text, rest) := by
  have quote : solid DQUOTE = true := by decide
  rw [mu_parse822_word, skip_comments_solid quote, mu_parse822_quoted_string, skip_comments_solid quote,
    special_found quote]
  dsimp only
  rw [quoted_loop_written rest written]

theorem word_unquoted (firm : solid c = true) (other : c ≠ DQUOTE) (rest : List UInt8) :
    mu_parse822_word (c :: rest) = parse822_atom_ex (c :: rest) := by
  rw [mu_parse822_word, skip_comments_solid firm, mu_parse822_quoted_string, skip_comments_solid firm,
    special_missed firm other]

theorem atom_of_solid (constituent : UInt8 → Bool) (firm : solid c = true) (rest : List UInt8) :
    atom_of constituent (c :: rest) =
      (decide ((c :: rest).takeWhile constituent ≠ []), (c :: rest).takeWhile constituent,
        (c :: rest).dropWhile constituent) := by
  rw [atom_of, skip_comments_solid firm]

theorem atom_of_written {constituent : UInt8 → Bool} {atom : List UInt8} (some : atom ≠ [])
    (chars : ∀ c ∈ atom, constituent c = true) (firm : ∀ c ∈ atom, solid c = true) {d : UInt8}
    (stop : constituent d = false) (rest : List UInt8) :
    atom_of constituent (atom ++ d :: rest) = (true, atom, d :: rest) := by
  have taken : (atom ++ d :: rest).takeWhile constituent = atom := by
    rw [List.takeWhile_append_of_pos chars, List.takeWhile_cons_of_neg (by rw [stop]; decide), List.append_nil]
  have left : (atom ++ d :: rest).dropWhile constituent = d :: rest := by
    rw [List.dropWhile_append_of_pos chars, List.dropWhile_cons_of_neg (by rw [stop]; decide)]
  cases atom with
  | nil => exact absurd rfl some
  | cons c atom =>
    rw [List.cons_append] at taken left ⊢
    rw [atom_of_solid constituent (firm c List.mem_cons_self), taken, left, decide_eq_true some]

theorem word_atom {word : List UInt8} (some : word ≠ []) (atoms : ∀ c ∈ word, mu_parse822_is_atom_char c = true)
    {d : UInt8} (stop : mu_parse822_is_atom_char d = false) (rest : List UInt8) :
    mu_parse822_word (word ++ d :: rest) = (true, word, d :: rest) := by
  have read := atom_of_written some atoms (fun c member => atom_char_solid (atoms c member)) stop rest
  cases word with
  | nil => exact absurd rfl some
  | cons c word =>
    have atom := atoms c List.mem_cons_self
    rw [List.cons_append] at read ⊢
    rw [word_unquoted (atom_char_solid atom) (atom_char_ne atom (by decide)), parse822_atom_ex, read]

theorem word_missed (firm : solid c = true) (other : c ≠ DQUOTE) (no_atom : mu_parse822_is_atom_char c = false)
    (rest : List UInt8) : mu_parse822_word (c :: rest) = (false, [], c :: rest) := by
  rw [word_unquoted firm other, parse822_atom_ex, atom_of_solid _ firm,
    List.takeWhile_cons_of_neg (by rw [no_atom]; decide), List.dropWhile_cons_of_neg (by rw [no_atom]; decide)]
  rfl

theorem local_part_word {p word rest : List UInt8} (n : Nat) (skipped : mu_parse822_skip_comments p = p)
    (read : mu_parse822_word p = (true, word, AT :: rest)) : local_part_loop (n + 1) p = (true, word, AT :: rest) := by
  have sign : solid AT = true := by decide
  rw [local_part_loop, skipped, read]
  dsimp only
  rw [skip_comments_solid sign, special_missed sign (by decide)]

theorem local_part_more {p word rest : List UInt8} (n : Nat) (skipped : mu_parse822_skip_comments p = p)
    (read : mu_parse822_word p = (true, word, DOT :: rest)) :
    local_part_loop (n + 1) p =
      match local_part_loop n rest with
      | (true, more, rest) => (true, word ++ DOT :: more, rest)
      | (false, _, _) => (true, word, DOT :: rest) := by
  have dot : solid DOT = true := by decide
  rcases later : local_part_loop n rest with ⟨_ | _, more, left⟩
  all_goals
    rw [local_part_loop, skipped, read]
    dsimp only
    rw [skip_comments_solid dot, special_found dot]
    dsimp only
    rw [later]

theorem atoms_skip {word : List UInt8} (some : word ≠ []) (atoms : ∀ c ∈ word, mu_parse822_is_atom_char c = true)
    (rest : List UInt8) : mu_parse822_skip_comments (word ++ rest) = word ++ rest := by
  cases word with
  | nil => exact absurd rfl some
  | cons c word => exact skip_comments_solid (atom_char_solid (atoms c List.mem_cons_self)) _

variable {name : List UInt8}

theorem local_part_dot_atom (dotted : DotAtom name) (rest : List UInt8) :
    ∀ {n : Nat}, name.length < n → local_part_loop n (name ++ AT :: rest) = (true, name, AT :: rest) := by
  induction dotted with
  | @atom word some atoms =>
    intro n enough
    obtain ⟨m, rfl⟩ := Nat.exists_eq_succ_of_ne_zero (Nat.ne_zero_of_lt enough)
    exact local_part_word m (atoms_skip some atoms _) (word_atom some atoms (by decide) rest)
  | @dot word more some atoms _ ih =>
    intro n enough
    obtain ⟨m, rfl⟩ := Nat.exists_eq_succ_of_ne_zero (Nat.ne_zero_of_lt enough)
    rw [List.length_append, List.length_cons] at enough
    rw [List.append_assoc, List.cons_append,
      local_part_more m (atoms_skip some atoms _) (word_atom some atoms (by decide) _), ih (by omega)]

theorem quote_string_written (text : List UInt8) (rest : List UInt8) :
    mu_parse822_word (mu_parse822_quote_string text ++ rest) = (true, text, rest) := by
  rw [mu_parse822_quote_string, List.cons_append, List.cons_append, List.append_assoc, List.singleton_append]
  refine word_quoted rest fun c _ => ?_
  split
  next plain =>
    refine .inr ⟨rfl, ?_⟩
    rw [mu_parse822_is_q_text, Bool.and_eq_true, decide_eq_true_eq] at plain
    exact plain.2
  · exact .inl rfl

theorem all_ref_iff :
    (name.all fun c => c = DOT || mu_parse822_is_atom_char c) = true ↔ ∀ c ∈ name, is_ref_char c = true := by
  rw [List.all_eq_true]
  exact Iff.rfl

theorem local_part_quoted (special : ¬ ∀ c ∈ name, is_ref_char c = true) (rest : List UInt8) :
    mu_parse822_local_part (mu_parse822_quote_local_part name ++ AT :: rest) = (true, name, AT :: rest) := by
  rw [mu_parse822_quote_local_part, if_neg (mt all_ref_iff.mp special), mu_parse822_local_part]
  exact local_part_word _ (skip_comments_solid (by decide) _) (quote_string_written name _)

theorem local_part_written (dotted : (∀ c ∈ name, is_ref_char c = true) → DotAtom name)
    (rest : List UInt8) :
    mu_parse822_local_part (mu_parse822_quote_local_part name ++ AT :: rest) = (true, name, AT :: rest) := by
  by_cases chars : ∀ c ∈ name, is_ref_char c = true
  · rw [mu_parse822_quote_local_part, if_pos (all_ref_iff.mpr chars), mu_parse822_local_part]
    refine local_part_dot_atom (dotted chars) rest ?_
    rw [List.length_append]
    omega
  · exact local_part_quoted chars rest

theorem atom_split (constituent : UInt8 → Bool) (text : List UInt8) :
    ∃ atom tail, text = atom ++ tail ∧ (∀ c ∈ atom, constituent c = true) ∧
      ∀ {d : UInt8} {more : List UInt8}, tail = d :: more → constituent d = false := by
  refine ⟨text.takeWhile constituent, text.dropWhile constituent, List.takeWhile_append_dropWhile.symm,
    fun c member => List.mem_takeWhile_imp member, fun {d more} tail => ?_⟩
  have stops := List.head?_dropWhile_not constituent text
  rw [tail] at stops
  simpa using stops

theorem local_part_missed (firm : solid c = true) (other : c ≠ DQUOTE)
    (no_atom : mu_parse822_is_atom_char c = false) (n : Nat) (p : List UInt8) :
    local_part_loop (n + 1) (c :: p) = (false, [], c :: p) := by
  rw [local_part_loop, skip_comments_solid firm, word_missed firm other no_atom]

theorem local_part_read (rest : List UInt8) (n : Nat) : ∀ {name left : List UInt8},
    (∀ c ∈ name, is_ref_char c = true) → local_part_loop n (name ++ AT :: rest) = (true, name, left) → DotAtom name := by
  induction n with
  | zero =>
    intro name left _ read
    cases read
  | succ n ih =>
    intro name left chars read
    obtain ⟨word, tail, rfl, atoms, stop⟩ := atom_split mu_parse822_is_atom_char name
    by_cases empty : word = []
    · -- a sign or a dot in the place of a word
      subst empty
      cases tail with
      | nil =>
        rw [List.append_nil, List.nil_append, local_part_missed (by decide) (by decide) (by decide)] at read
        cases read
      | cons d tail =>
        have char := chars d List.mem_cons_self
        have other : d ≠ DQUOTE := ref_char_ne char (by decide)
        rw [List.nil_append, List.cons_append, local_part_missed (ref_char_solid char) other (stop rfl)] at read
        cases read
    · cases tail with
      | nil =>
        rw [List.append_nil]
        exact .atom empty atoms
      | cons d tail =>
        have dot : d = DOT := by
          have char := chars d (List.mem_append_right _ List.mem_cons_self)
          rw [is_ref_char, stop rfl, Bool.or_false, decide_eq_true_eq] at char
          exact char
        subst dot
        rw [List.append_assoc, List.cons_append,
          local_part_more n (atoms_skip empty atoms _) (word_atom empty atoms (by decide) _)] at read
        split at read
        next more after later =>
          have texts : word ++ DOT :: more = word ++ DOT :: tail := congrArg (·.2.1) read
          cases List.append_cancel_left texts
          refine .dot empty atoms (ih (fun c member => chars c ?_) later)
          exact List.mem_append_right _ (List.mem_cons_of_mem _ member)
        · have texts : word = word ++ DOT :: tail := congrArg (·.2.1) read
          cases List.self_eq_append_right.mp texts

theorem addr_spec_cases {p after : List UInt8} {a : Address} (read : mu_parse822_addr_spec p = (some a, after)) :
    ∃ name left dom rest, mu_parse822_local_part p = (true, name, left) ∧
      mu_parse822_special (mu_parse822_skip_comments left) AT = (true, dom) ∧
      mu_parse822_domain dom = (true, a.domain, rest) ∧ a.local_part = name := by
  rw [mu_parse822_addr_spec] at read
  split at read
  · cases read
  next name left found =>
    split at read
    · cases read
    next dom sign =>
      split at read
      · cases read
      next domain rest text =>
        cases read
        exact ⟨name, left, dom, _, found, sign, text, rfl⟩

end Mailutils.AddrFormat

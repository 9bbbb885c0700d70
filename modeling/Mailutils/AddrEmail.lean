import Mailutils.AddrFormat
import Mathlib.Data.List.Basic

/-!
The e-mail text of an address (`fill_mb` of `libmailutils/address/parse822.c`): the local part, quoted where
`mu_parse822_quote_local_part` wants it, the sign and the domain. The function quotes a local part that has other
characters than those of atoms and dots, whereas the parser accepts dots only between atoms (`email_parse_iff`).
-/
namespace Mailutils.AddrEmail
open Mailutils.Parse822 Mailutils.AddrFormat

private theorem dotAtom_chars {name : List UInt8} (dotted : DotAtom name) :
    name ≠ [] ∧ ∀ c ∈ name, is_ref_char c = true := by
  have atom_ref {word : List UInt8} (atoms : ∀ c ∈ word, mu_parse822_is_atom_char c = true) :
      ∀ c ∈ word, is_ref_char c = true := by
    intro c member
    rw [is_ref_char, atoms c member, Bool.or_true]
  induction dotted with
  | atom some atoms => exact ⟨some, atom_ref atoms⟩
  | dot some atoms _ ih =>
    refine ⟨List.append_ne_nil_of_left_ne_nil some _, List.forall_mem_append.mpr ⟨atom_ref atoms, ?_⟩⟩
    exact List.forall_mem_cons.mpr ⟨by decide, ih.2⟩

theorem domain_to_end {name : List UInt8} (some : name ≠ []) (chars : ∀ c ∈ name, is_ref_char c = true) :
    mu_parse822_domain name = (true, name, []) := by
  have taken : name.takeWhile is_ref_char = name := List.takeWhile_eq_self_iff.mpr chars
  have left : name.dropWhile is_ref_char = [] := List.dropWhile_eq_nil_iff.mpr chars
  have nothing : mu_parse822_special (mu_parse822_skip_comments []) DOT = (false, []) := by decide +kernel
  obtain ⟨c, more, rfl⟩ := List.exists_cons_of_ne_nil some
  have firm : solid c = true := ref_char_solid (chars c List.mem_cons_self)
  have found : mu_parse822_sub_domain (c :: more) = (true, c :: more, []) := by
    have atom : mu_parse822_atom (c :: more) = (decide ((c :: more).takeWhile is_ref_char ≠ []),
        (c :: more).takeWhile is_ref_char, (c :: more).dropWhile is_ref_char) := by
      rw [mu_parse822_atom, atom_of_solid _ firm]
      rfl
    rw [mu_parse822_sub_domain, atom, taken, left, decide_eq_true some]
  rw [mu_parse822_domain, domain_loop, skip_comments_solid firm, found]
  dsimp only
  rw [nothing]

/-- What `fill_mb` puts together is read back exactly if the local part has a character that wants quotes, or dots only
    between atoms. -/
theorem email_parse_iff {name domain : List UInt8} (named : name ≠ []) (dotted : DotAtom domain) :
    (∃ a, mu_parse822_addr_spec ((fill_mb name domain).email.getD []) = (some a, []) ∧
      a.local_part = name ∧ a.domain = domain) ↔
    ((∀ c ∈ name, is_ref_char c = true) → DotAtom name) := by
  obtain ⟨some_domain, chars⟩ := dotAtom_chars dotted
  have email : (fill_mb name domain).email.getD [] = mu_parse822_quote_local_part name ++ AT :: domain := by
    rw [fill_mb, if_neg named, if_neg some_domain]
    rfl
  rw [email]
  constructor
  · rintro ⟨a, read, rfl, -⟩ plain
    obtain ⟨word, left, rest, last, local_part, -, -, same⟩ := addr_spec_cases read
    rw [mu_parse822_quote_local_part, if_pos (all_ref_iff.mpr plain), mu_parse822_local_part, ← same] at local_part
    exact local_part_read _ _ plain local_part
  · intro quoted
    have sign : solid AT = true := by decide
    refine ⟨fill_mb name domain, ?_, rfl, rfl⟩
    rw [mu_parse822_addr_spec, local_part_written quoted]
    dsimp only
    rw [skip_comments_solid sign, special_found sign]
    dsimp only
    rw [domain_to_end some_domain chars]

/-- A local part with a blank. -/
theorem email_parse_blank :
    ∃ a, mu_parse822_addr_spec ((fill_mb (ascii "a .b") (ascii "c.d")).email.getD []) = (some a, []) ∧
      a.local_part = ascii "a .b" ∧ a.domain = ascii "c.d" := by
  refine (email_parse_iff (by decide) ?_).mpr fun plain => absurd (plain 32 (by decide)) (by decide)
  show DotAtom (ascii "c" ++ DOT :: ascii "d")
  exact .dot (by decide) (by decide +kernel) (.atom (by decide) (by decide +kernel))

/-- A dot at the end of the local part, at its beginning, and two dots. -/
theorem email_rejected :
    [ascii "a.", ascii ".a", ascii "a..b"].Forall fun name =>
      (mu_parse822_addr_spec ((fill_mb name (ascii "c")).email.getD [])).1 = none := by
  decide +kernel

end Mailutils.AddrEmail

import Mailutils.HeaderCopy
import Mathlib.Data.List.SplitBy

/-!
Headers as lines and as fields. A field has a first line with its name and a colon, and lines that continue it.
-/
namespace Mailutils.HeaderCopy
open Mailutils.Filter Mailutils.Mailbox Mailutils.Stream Mailutils.Lines

/-- The text of lines. -/
def textOf (lines : List (List UInt8)) : List UInt8 := (lines.map (· ++ [LF])).flatten

@[simp] theorem textOf_nil : textOf [] = [] := rfl

theorem textOf_cons (line : List UInt8) (lines : List (List UInt8)) :
    textOf (line :: lines) = line ++ [LF] ++ textOf lines := by
  simp [textOf]

theorem textOf_append (lines more : List (List UInt8)) : textOf (lines ++ more) = textOf lines ++ textOf more := by
  simp [textOf]

/-- A blank begins a line that continues the field before it. -/
def blank (c : UInt8) : Bool := c = SP ∨ c = 9

/-- A field of a header: its name, what follows the colon, and the lines that continue it. -/
structure Field where
  name : List UInt8
  value : List UInt8
  folded : List (List UInt8) := []
  deriving DecidableEq, Repr

/-- The name of a field is not empty and does not begin with a blank; the lines that continue a field do. -/
structure Field.WellFormed (field : Field) : Prop where
  name : LF ∉ field.name ∧ COLON ∉ field.name ∧ ∃ c ∈ field.name.head?, blank c = false
  value : LF ∉ field.value
  folded : ∀ line ∈ field.folded, LF ∉ line ∧ ∃ c ∈ line.head?, blank c = true

def Field.first (field : Field) : List UInt8 := field.name ++ COLON :: field.value

def Field.lines (field : Field) : List (List UInt8) := field.first :: field.folded

/-- The line continues the one before it. -/
def continues (line : List UInt8) : Bool := line.head?.any blank

theorem Field.WellFormed.first_line {field : Field} (wellFormed : field.WellFormed) :
    LF ∉ field.first ∧ continues (field.first ++ [LF]) = false := by
  obtain ⟨⟨noLF, _, c, begins, notBlank⟩, value, _⟩ := wellFormed
  refine ⟨by simp [Field.first, noLF, value, show LF ≠ COLON by decide], ?_⟩
  cases name : field.name with
  | nil => simp [name] at begins
  | cons d rest =>
    obtain rfl : d = c := by simpa [name] using begins
    simpa [continues, Field.first, name] using notBlank

end Mailutils.HeaderCopy

import Mailutils.Filter
import Mathlib.Data.List.TakeDrop

/-!
Seekable streams whose operations can fail (`include/mailutils/stream.h`), as the file behind them is once their
buffers are flushed; the buffer itself is in `Buffered`. A write that fails may have stored a part of its data; which
operations fail is an argument of the model, so that what holds, holds wherever they do.
-/
namespace Mailutils.Stream
open Mailutils.Filter

/-- A file and the position in it. -/
structure File where
  content : List UInt8
  pos : Nat
  deriving DecidableEq, Repr

/-- The file with `data` at its position; a gap before it reads as zeros. -/
def File.put (f : File) (data : List UInt8) : File :=
  ⟨f.content.takeD f.pos 0 ++ data ++ f.content.drop (f.pos + data.length), f.pos + data.length⟩

/-- What becomes of a write: nothing goes wrong, or it fails once so many bytes are stored. -/
abbrev Fault := Option Nat

/-- `mu_stream_write`, and whether it succeeds. -/
def File.write (fault : Fault) (f : File) (data : List UInt8) : File × Bool :=
  match fault with
  | none => (f.put data, true)
  | some stored => (f.put (data.take stored), false)

/-- `mu_stream_truncate`, which can also make a file longer. -/
def File.truncate (f : File) (size : Nat) : List UInt8 := f.content.takeD size 0

/-- What the reads of a stream return: blocks of these sizes (and one byte), and the rest in one block. -/
def cut : List Nat → List UInt8 → List (List UInt8)
  | _, [] => []
  | [], data => [data]
  | n :: sizes, data => data.take (n + 1) :: cut sizes (data.drop (n + 1))

def capture_last_char (n : Nat) (buf : List UInt8) : Nat :=
  if buf.getLast? = some LF then
    if buf.length = 1 then n + 1 else if buf.getD (buf.length - 2) 0 = LF then 2 else 1
  else 0

/-- Which operations of a copy fail, by the number of the block: its reads, its
    writes, and the write of the missing newlines. -/
structure CopyFaults where
  read : Nat → Bool := fun _ => false
  write : Nat → Fault := fun _ => none
  newlines : Fault := none

/-- The loop of `mu_stream_copy_wcb` up to the end of the source, at the block `n`. -/
def copy_wcb (faults : CopyFaults) : Nat → Nat → File → List (List UInt8) → File × Nat × Bool
  | n, lc, dst, [] => (dst, lc, !faults.read n)
  | n, lc, dst, buf :: blocks =>
    if faults.read n then (dst, lc, false)
    else
      let lc := capture_last_char lc buf
      let (dst, ok) := dst.write (faults.write n) buf
      if ok then copy_wcb faults (n + 1) lc dst blocks else (dst, lc, false)

theorem take_append_rest (bytes : List UInt8) (n : Nat) : bytes.take n ++ bytes.drop (bytes.take n).length = bytes := by
  rw [List.length_take]
  rcases Nat.le_total n bytes.length with short | long
  · rw [Nat.min_eq_left short, List.take_append_drop]
  · rw [Nat.min_eq_right long, List.take_of_length_le long, List.drop_length, List.append_nil]

/-- A file that `base` was written to, and more after it. -/
def File.Extends (base : List UInt8) (f : File) : Prop := base <+: f.content ∧ f.pos = f.content.length

variable {f : File}

theorem put_inside (inside : f.pos ≤ f.content.length) (data : List UInt8) :
    f.put data = ⟨f.content.take f.pos ++ data ++ f.content.drop (f.pos + data.length), f.pos + data.length⟩ := by
  rw [File.put, List.takeD_eq_take _ inside]

theorem put_length (inside : f.pos ≤ f.content.length) (data : List UInt8) :
    (f.put data).content.length = max f.content.length (f.pos + data.length) := by
  rw [put_inside inside]
  simp only [List.length_append, List.length_take, List.length_drop]
  omega

theorem put_end (atEnd : f.pos = f.content.length) (data : List UInt8) :
    f.put data = ⟨f.content ++ data, f.pos + data.length⟩ := by
  have whole : f.content.takeD f.pos 0 = f.content := by rw [List.takeD_eq_take _ (Nat.le_of_eq atEnd), atEnd, List.take_length]
  have none : f.content.drop (f.pos + data.length) = [] := List.drop_eq_nil_of_le (by omega)
  rw [File.put, whole, none, List.append_nil]

variable {base : List UInt8}

theorem put_extends (after : f.Extends base) (data : List UInt8) :
    (f.put data).Extends base := by
  obtain ⟨begins, atEnd⟩ := after
  rw [put_end atEnd]
  constructor
  · exact begins.trans (List.prefix_append _ _)
  · simp only [List.length_append, atEnd]

theorem write_extends (after : f.Extends base) (fault : Fault) (data : List UInt8) :
    (f.write fault data).1.Extends base := by
  cases fault with
  | none => exact put_extends after data
  | some stored => exact put_extends after _

theorem truncate_extends (after : f.Extends base) : f.truncate base.length = base := by
  obtain ⟨⟨more, begins⟩, -⟩ := after
  rw [File.truncate, ← begins, List.takeD_eq_take _ (by simp), List.take_left]

theorem copy_wcb_apart (faults : CopyFaults) (blocks : List (List UInt8)) (n lc : Nat) (dst dst' : File) :
    (copy_wcb faults n lc dst blocks).2 = (copy_wcb faults n lc dst' blocks).2 := by
  induction blocks generalizing n lc dst dst' with
  | nil => rfl
  | cons buf blocks ih =>
    unfold copy_wcb
    split
    · rfl
    · cases faults.write n with
      | none => exact ih _ _ _ _
      | some stored => rfl

end Mailutils.Stream

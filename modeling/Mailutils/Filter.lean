import Mailutils.Characters
import Mailutils.Transducer
import Mathlib.Algebra.Group.Nat.Defs

/-!
The interface between a filter and whoever drives it (`include/mailutils/filter.h`).
A transcoder is called with a command, an input buffer and an output buffer; it
says how much of both it used and what it wants next. `Session` is a driver that
offers the data it has in any portions: what a call does not consume is offered
again with the next one, and a call that asks for a larger buffer is retried.
-/
namespace Mailutils.Filter
open Mailutils.Transducer

/-- A text as the decoders of lines give it back: a last line that is not ended gets its newline. -/
def completed (x : List UInt8) : List UInt8 :=
  if x = [] ∨ x.getLast? = some LF then x else x ++ [LF]

/-- Subtraction of `size_t`, which wraps around below zero. -/
def sizeSub (a b : Nat) : Nat := if a < b then a + 2 ^ 64 - b else a - b

theorem sizeSub_of_le {a b : Nat} (le : b ≤ a) : sizeSub a b = a - b := if_neg (Nat.not_lt.mpr le)

/-- `enum mu_filter_command` -/
inductive Command
  | init | done | xcode | lastbuf | flush
  deriving DecidableEq, Repr

/-- `enum mu_filter_result` -/
inductive Result
  | ok | failure | moreinput | moreoutput | again
  deriving DecidableEq, Repr

/-- What a call leaves behind: its result, the transcoder's own state, the
    fields of `struct mu_filter_io` on return, and the bytes stored at
    `iobuf->output`, of which the first `osize` count. -/
structure Reply (σ : Type) where
  result : Result
  state : σ
  isize : Nat
  osize : Nat
  output : List UInt8
  eof : Bool
  deriving DecidableEq, Repr

/-- A transcoder: state, command, input buffer and size of the output buffer. -/
abbrev Xcode (σ : Type) := σ → Command → List UInt8 → Nat → Reply σ

/-- The bytes a reply acknowledges. -/
def Reply.written {σ : Type} (reply : Reply σ) : List UInt8 := reply.output.take reply.osize

@[simp] theorem written_all {σ : Type} (result : Result) (state : σ) (isize : Nat) (output : List UInt8) (eof : Bool) :
    (Reply.mk result state isize output.length output eof).written = output := List.take_length

/-- One call of a driver: it offers the first `size` bytes it has pending with
    an output buffer of `room` bytes, or everything with `mu_filter_lastbuf`. -/
structure Offer where
  size : Nat
  last : Bool
  room : Nat
  deriving DecidableEq, Repr

def Offer.command (offer : Offer) : Command := if offer.last then .lastbuf else .xcode

theorem Offer.command_cases (offer : Offer) : offer.command = .lastbuf ∨ offer.command = .xcode := by
  unfold Offer.command
  split <;> simp

@[simp] theorem Offer.command_lastbuf (offer : Offer) : offer.command = .lastbuf ↔ offer.last = true := by
  unfold Offer.command
  split <;> simp_all

def Offer.portion (offer : Offer) (pending : List UInt8) : List UInt8 :=
  if offer.last then pending else pending.take offer.size

/-- A driver between two calls: the transcoder's state, the data not consumed
    so far, the output so far, whether a call has reported the end of its output,
    and whether the last buffer has been accepted. -/
structure Session (σ : Type) where
  state : σ
  pending : List UInt8
  output : List UInt8
  eof : Bool
  finished : Bool
  deriving DecidableEq, Repr

def Session.start {σ : Type} (state : σ) (data : List UInt8) : Session σ := ⟨state, data, [], false, false⟩

/-- What the driver does with a reply. A request for a larger buffer and a
    failure leave the data and the output alone. -/
def Session.accept {σ : Type} (s : Session σ) (last : Bool) (reply : Reply σ) : Session σ :=
  match reply.result with
  | .ok =>
    { state := reply.state, pending := s.pending.drop reply.isize, output := s.output ++ reply.written,
      eof := s.eof || reply.eof, finished := last && (s.pending.drop reply.isize).isEmpty }
  | .again =>
    { s with state := reply.state, pending := s.pending.drop reply.isize, output := s.output ++ reply.written }
  | .failure | .moreinput | .moreoutput => { s with state := reply.state }

/-- One call; a driver that is finished makes no more calls. -/
def Session.offer {σ : Type} (xcode : Xcode σ) (s : Session σ) (offer : Offer) : Session σ :=
  if s.finished then s
  else s.accept offer.last (xcode s.state offer.command (offer.portion s.pending) offer.room)

/-- The calls of a schedule, one after another. -/
def drive {σ : Type} (xcode : Xcode σ) (state : σ) (data : List UInt8) (schedule : List Offer) : Session σ :=
  schedule.foldl (Session.offer xcode) (Session.start state data)

theorem portion_append (offer : Offer) (pending : List UInt8) :
    ∃ rest, pending = offer.portion pending ++ rest ∧ (offer.last = true → rest = []) := by
  unfold Offer.portion
  split
  · exact ⟨[], by simp, by simp⟩
  · next notLast => exact ⟨pending.drop offer.size, by simp, fun last => absurd last notLast⟩

theorem take_portion {offer : Offer} {pending : List UInt8} {n : Nat} (bound : n ≤ (offer.portion pending).length) :
    (offer.portion pending).take n = pending.take n := by
  obtain ⟨rest, split, _⟩ := portion_append offer pending
  conv_rhs => rw [split]
  rw [List.take_append_of_le_length bound]

/-- An offer with something in it. -/
def Offer.nonempty (offer : Offer) : Bool := offer.last || decide (0 < offer.size)

theorem portion_ne_nil {offer : Offer} {pending : List UInt8} (some : offer.nonempty = true) (more : pending ≠ []) :
    offer.portion pending ≠ [] := by
  unfold Offer.nonempty at some
  unfold Offer.portion
  split
  · exact more
  · next notLast =>
    simp only [notLast, Bool.false_or, decide_eq_true_eq] at some
    simp [more]
    omega

end Mailutils.Filter

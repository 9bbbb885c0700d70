import Mailutils.Base64
import Mathlib.Algebra.Ring.Int.Defs

/-!
Base64 of whole buffers (`mu_base64_encode` and `mu_base64_decode` of `libmailutils/filter/base64.c`). The decoder's
loop is a `do` loop and looks at four characters in every round: an empty text, and one whose length is not a multiple
of four, makes it read behind the end, unless there is a character before that is not of the alphabet. The size of its
output buffer is an `int`. What it does where neither matters is what it should do (`base64_decode_iff`).
-/
namespace Mailutils.Base64
open Mailutils.Filter

/-- What a function comes to: `fault` when it reads or writes outside of its buffers. -/
inductive Outcome
  | ok (output : List UInt8)
  | einval
  | enomem
  | fault
  deriving DecidableEq, Repr

/-- `malloc` refuses what is larger than any object can be. -/
def malloc (size : Nat) : Option Nat := if size < 2 ^ 63 then some size else none

/-- The characters that `mu_base64_encode` writes. -/
def base64_characters : List UInt8 → List UInt8
  | a :: b :: c :: rest =>
    [a.toNat >>> 2, a.toNat <<< 4 &&& 0x30 ||| b.toNat >>> 4, b.toNat <<< 2 &&& 0x3c ||| c.toNat >>> 6,
      c.toNat &&& 0x3f].map (b64tab.getD · 0) ++ base64_characters rest
  | [a, b] =>
    [a.toNat >>> 2, a.toNat <<< 4 &&& 0x30 ||| b.toNat >>> 4, b.toNat <<< 2 &&& 0x3c].map (b64tab.getD · 0) ++ [EQUAL]
  | [a] => [a.toNat >>> 2, a.toNat <<< 4 &&& 0x30].map (b64tab.getD · 0) ++ [EQUAL, EQUAL]
  | [] => []

/-- A function with a buffer from `malloc`. -/
def allocated (buffer : Option Nat) (call : Nat → Outcome) : Outcome :=
  match buffer with
  | none => .enomem
  | some olen => call olen

/-- `mu_base64_encode`, which writes a null character behind its output. -/
def mu_base64_encode (input : List UInt8) : Outcome :=
  allocated (malloc ((4 * (input.length + 2) % 2 ^ 64 / 3 + 1) % 2 ^ 64)) fun olen =>
    if olen < (base64_characters input).length + 1 then .fault else .ok (base64_characters input)

/-- What `mu_base64_decode` lets pass as character `i` of a quantum. -/
def admitted (i : Nat) (c : UInt8) : Bool := c ≤ 127 && (2 ≤ i && c = EQUAL || b64val.getD c.toNat (-1) ≠ -1)

/-- The characters from one position on are let pass. -/
def admits (i : Nat) : List UInt8 → Bool
  | [] => true
  | c :: rest => admitted i c && admits (i + 1) rest

/-- The bytes of a quantum that was let pass. -/
def base64_bytes (a b c d : UInt8) : List UInt8 :=
  let v := fun c : UInt8 => (b64val.getD c.toNat (-1)).toNat
  ([v a <<< 2 ||| v b >>> 4] ++
    if c = EQUAL then []
    else [v b <<< 4 &&& 0xf0 ||| v c >>> 2] ++ if d = EQUAL then [] else [v c <<< 6 &&& 0xc0 ||| v d]).map UInt8.ofNat

/-- The loop of `mu_base64_decode`, with the size of its output buffer. The characters of a quantum are looked at one
    after another, up to one that is not let pass. -/
def mu_base64_decode_loop (olen : Nat) : List UInt8 → List UInt8 → Outcome
  | a :: b :: c :: d :: rest, output =>
    if admits 0 [a, b, c, d] then
      if olen < (output ++ base64_bytes a b c d).length then .fault
      else if rest = [] then .ok (output ++ base64_bytes a b c d)
      else mu_base64_decode_loop olen rest (output ++ base64_bytes a b c d)
    else .einval
  | part, _ => if admits 0 part then .fault else .einval

/-- A `size_t` as an `int`. -/
def toInt (n : Nat) : Int := Int.bmod n (2 ^ 32)

/-- An `int` as a `size_t`. -/
def toSize (n : Int) : Nat := (n % 2 ^ 64).toNat

/-- `mu_base64_decode`; its `int olen` becomes a `size_t` again for `malloc`. -/
def mu_base64_decode (input : List UInt8) : Outcome :=
  allocated (malloc (toSize (toInt input.length))) fun olen => mu_base64_decode_loop olen input []

private theorem byte_masks (v : Fin 256) : v.val <<< 4 &&& 0x30 = (v.val % 4) <<< 4 ∧
    v.val <<< 2 &&& 0x3c = (v.val % 16) <<< 2 ∧ v.val &&& 0x3f = v.val % 64 := by
  decide +revert +kernel

private theorem or_low {a b n : Nat} (low : b < 2 ^ n) : a <<< n ||| b = a * 2 ^ n + b := by
  rw [← Nat.shiftLeft_add_eq_or_of_lt low, Nat.shiftLeft_eq]

/-- The digits that are computed are those of the number of three bytes. -/
private theorem indices {a b c : Nat} (la : a < 256) (lb : b < 256) (lc : c < 256) :
    [a >>> 2, a <<< 4 &&& 0x30 ||| b >>> 4, b <<< 2 &&& 0x3c ||| c >>> 6, c &&& 0x3f] =
      [(a * 2 ^ 16 + b * 2 ^ 8 + c) / 2 ^ 18, (a * 2 ^ 16 + b * 2 ^ 8 + c) / 2 ^ 12 % 64,
        (a * 2 ^ 16 + b * 2 ^ 8 + c) / 2 ^ 6 % 64, (a * 2 ^ 16 + b * 2 ^ 8 + c) % 64] := by
  have second : a <<< 4 &&& 0x30 ||| b >>> 4 = a % 4 * 2 ^ 4 + b / 2 ^ 4 := by
    rw [(byte_masks ⟨a, la⟩).1, Nat.shiftRight_eq_div_pow, or_low (by omega)]
  have third : b <<< 2 &&& 0x3c ||| c >>> 6 = b % 16 * 2 ^ 2 + c / 2 ^ 6 := by
    rw [(byte_masks ⟨b, lb⟩).2.1, Nat.shiftRight_eq_div_pow, or_low (by omega)]
  rw [second, third, show c &&& 0x3f = c % 64 from (byte_masks ⟨c, lc⟩).2.2, Nat.shiftRight_eq_div_pow]
  simp only [List.cons.injEq, and_true]
  omega

theorem characters_eq (x : List UInt8) : base64_characters x = rfc2045 x := by
  induction x using rfc2045.induct with
  | case1 a b c rest ih =>
    rw [base64_characters, rfc2045, ih, digits, indices a.toNat_lt b.toNat_lt c.toNat_lt]
  | case2 a b =>
    have same := indices a.toNat_lt b.toNat_lt (show 0 < 256 by decide)
    rw [Nat.zero_shiftRight, Nat.or_zero, Nat.add_zero] at same
    rw [rfc2045, digits, ← same]
    rfl
  | case3 a =>
    have same := indices a.toNat_lt (show 0 < 256 by decide) (show 0 < 256 by decide)
    rw [Nat.zero_shiftRight, Nat.or_zero, Nat.zero_mul, Nat.add_zero] at same
    rw [rfc2045, digits, ← same]
    rfl
  | case4 => rfl

theorem admitted_digit {v : Nat} (digit : v < 64) (i : Nat) : admitted i (b64tab.getD v 0) = true := by
  have all (v : Fin 64) : b64tab.getD v 0 ≤ 127 ∧ b64val.getD (b64tab.getD v 0).toNat (-1) ≠ -1 := by
    decide +revert +kernel
  obtain ⟨low, value⟩ := all ⟨v, digit⟩
  simp only [admitted, low, value, decide_true, Bool.true_and, ne_eq, not_false_eq_true, Bool.or_true]

theorem digit_ne_pad {v : Nat} (digit : v < 64) : b64tab.getD v 0 ≠ EQUAL := by
  have all (v : Fin 64) : b64tab.getD v 0 ≠ EQUAL := by decide +revert +kernel
  exact all ⟨v, digit⟩

private theorem digit_masks (v : Fin 64) : v.val <<< 4 &&& 0xf0 = (v.val % 16) <<< 4 ∧
    v.val <<< 6 &&& 0xc0 = (v.val % 4) <<< 6 := by
  decide +revert +kernel

private theorem bytes_digits {v0 v1 v2 v3 : Nat} (h0 : v0 < 64) (h1 : v1 < 64) (h2 : v2 < 64) (h3 : v3 < 64) (c d : UInt8)
    (third : c = b64tab.getD v2 0 ∨ c = EQUAL) (fourth : d = b64tab.getD v3 0 ∨ d = EQUAL) :
    base64_bytes (b64tab.getD v0 0) (b64tab.getD v1 0) c d =
      ([v0 * 2 ^ 2 + v1 / 16, v1 % 16 * 2 ^ 4 + v2 / 4, v2 % 4 * 2 ^ 6 + v3].take
        (if c = EQUAL then 1 else if d = EQUAL then 2 else 3)).map UInt8.ofNat := by
  have value {v : Nat} (digit : v < 64) : (b64val.getD (b64tab.getD v 0).toNat (-1)).toNat = v := by
    rw [b64val_digit digit]
    rfl
  have first : v0 <<< 2 ||| v1 >>> 4 = v0 * 2 ^ 2 + v1 / 16 := by
    rw [Nat.shiftRight_eq_div_pow, or_low (by omega)]
  rw [base64_bytes]
  simp only [value h0, value h1, first]
  rcases third with rfl | rfl
  · have second : v1 <<< 4 &&& 0xf0 ||| v2 >>> 2 = v1 % 16 * 2 ^ 4 + v2 / 4 := by
      rw [(digit_masks ⟨v1, h1⟩).1, Nat.shiftRight_eq_div_pow, or_low (by omega)]
    simp only [if_neg (digit_ne_pad h2), value h2, second]
    rcases fourth with rfl | rfl
    · have last : v2 <<< 6 &&& 0xc0 ||| v3 = v2 % 4 * 2 ^ 6 + v3 := by
        rw [(digit_masks ⟨v2, h2⟩).2, or_low (by omega)]
      simp only [if_neg (digit_ne_pad h3), value h3, last]
      rfl
    · simp only [if_true]
      rfl
  · simp only [if_true]
    rfl

/-- A round over the digits of three bytes, of which some may be padding. -/
theorem decode_loop_digits {a b c : UInt8} {n : Nat} (number : a.toNat * 2 ^ 16 + b.toNat * 2 ^ 8 + c.toNat = n)
    {third fourth : UInt8} (isThird : third = b64tab.getD (n / 2 ^ 6 % 64) 0 ∨ third = EQUAL)
    (isFourth : fourth = b64tab.getD (n % 64) 0 ∨ fourth = EQUAL) {ys : List UInt8}
    (bytes : [a, b, c].take (if third = EQUAL then 1 else if fourth = EQUAL then 2 else 3) = ys) {olen : Nat}
    (rest output : List UInt8) (room : (output ++ ys).length ≤ olen) :
    mu_base64_decode_loop olen
        (b64tab.getD (n / 2 ^ 18) 0 :: b64tab.getD (n / 2 ^ 12 % 64) 0 :: third :: fourth :: rest) output =
      if rest = [] then .ok (output ++ ys) else mu_base64_decode_loop olen rest (output ++ ys) := by
  have la := a.toNat_lt
  have lb := b.toNat_lt
  have lc := c.toNat_lt
  have back : base64_bytes (b64tab.getD (n / 2 ^ 18) 0) (b64tab.getD (n / 2 ^ 12 % 64) 0) third fourth = ys := by
    have one : n / 2 ^ 18 * 2 ^ 2 + n / 2 ^ 12 % 64 / 16 = a.toNat := by omega
    have two : n / 2 ^ 12 % 64 % 16 * 2 ^ 4 + n / 2 ^ 6 % 64 / 4 = b.toNat := by omega
    have three : n / 2 ^ 6 % 64 % 4 * 2 ^ 6 + n % 64 = c.toNat := by omega
    rw [bytes_digits (by omega) (by omega) (by omega) (by omega) third fourth isThird isFourth, one, two, three,
      List.map_take, ← bytes]
    simp
  have late {v i : Nat} {c : UInt8} (digit : v < 64) (second : 2 ≤ i) (either : c = b64tab.getD v 0 ∨ c = EQUAL) :
      admitted i c = true := by
    rcases either with rfl | rfl
    · exact admitted_digit digit i
    · rw [admitted, decide_eq_true second, decide_eq_true rfl]
      rfl
  have passes : admits 0 [b64tab.getD (n / 2 ^ 18) 0, b64tab.getD (n / 2 ^ 12 % 64) 0, third, fourth] = true := by
    simp only [admits, admitted_digit (show n / 2 ^ 18 < 64 by omega), late (by omega) (Nat.le_refl 2) isThird,
      admitted_digit (show n / 2 ^ 12 % 64 < 64 by omega), late (by omega) (show 2 ≤ 3 by decide) isFourth,
      Bool.true_and]
  rw [mu_base64_decode_loop, if_pos passes, back, if_neg (Nat.not_lt.mpr room)]

theorem decode_loop_bytes {olen : Nat} {ys : List UInt8} (nonempty : ys ≠ []) (within : ys.length ≤ 3)
    (rest output : List UInt8) (room : (output ++ ys).length ≤ olen) :
    mu_base64_decode_loop olen (rfc2045 ys ++ rest) output =
      if rest = [] then .ok (output ++ ys) else mu_base64_decode_loop olen rest (output ++ ys) := by
  rcases ys with _ | ⟨a, _ | ⟨b, _ | ⟨c, _ | ⟨d, more⟩⟩⟩⟩
  · exact absurd rfl nonempty
  · have number : a.toNat * 2 ^ 16 + (0 : UInt8).toNat * 2 ^ 8 + (0 : UInt8).toNat = a.toNat * 2 ^ 16 := by simp
    exact decode_loop_digits number (.inr rfl) (.inr rfl) rfl rest output room
  · have number : a.toNat * 2 ^ 16 + b.toNat * 2 ^ 8 + (0 : UInt8).toNat = a.toNat * 2 ^ 16 + b.toNat * 2 ^ 8 := by simp
    refine decode_loop_digits number (.inl rfl) (.inr rfl) ?_ rest output room
    rw [if_neg (digit_ne_pad (Nat.mod_lt _ (by decide)))]
    rfl
  · refine decode_loop_digits rfl (.inl rfl) (.inl rfl) ?_ rest output room
    rw [if_neg (digit_ne_pad (Nat.mod_lt _ (by decide))), if_neg (digit_ne_pad (Nat.mod_lt _ (by decide)))]
    rfl
  · simp only [List.length_cons] at within
    omega

theorem rfc2045_length (x : List UInt8) : (rfc2045 x).length = (x.length + 2) / 3 * 4 := by
  induction x using rfc2045.induct with
  | case1 a b c rest ih =>
    simp only [rfc2045, digits, List.length_append, List.length_map, List.length_cons, List.length_nil, ih]
    omega
  | case2 a b => simp [rfc2045, digits]
  | case3 a => simp [rfc2045, digits]
  | case4 => rfl

theorem decode_loop_encoded {olen : Nat} {x : List UInt8} (nonempty : x ≠ []) (output : List UInt8)
    (room : (output ++ x).length ≤ olen) : mu_base64_decode_loop olen (rfc2045 x) output = .ok (output ++ x) := by
  induction x using rfc2045.induct generalizing output with
  | case1 a b c rest ih =>
    have split : rfc2045 (a :: b :: c :: rest) = rfc2045 [a, b, c] ++ rfc2045 rest := by simp [rfc2045]
    rw [split, decode_loop_bytes (by simp) (by simp) _ _ (by simp at room ⊢; omega)]
    by_cases last : rest = []
    · subst last
      rfl
    · have more : rfc2045 rest ≠ [] := by
        have length := rfc2045_length rest
        have positive := List.length_pos_iff.mpr last
        exact List.length_pos_iff.mp (by omega)
      rw [if_neg more, ih last _ (by simpa using room), List.append_assoc]
      rfl
  | case2 a b =>
    have round := @decode_loop_bytes olen [a, b] (by simp) (by simp) [] output room
    rwa [List.append_nil] at round
  | case3 a =>
    have round := @decode_loop_bytes olen [a] (by simp) (by simp) [] output room
    rwa [List.append_nil] at round
  | case4 => exact absurd rfl nonempty

private theorem decode_loop_bound {olen : Nat} {input output result : List UInt8}
    (done : mu_base64_decode_loop olen input output = .ok result) : result.length ≤ olen := by
  fun_induction mu_base64_decode_loop olen input output with
  | case1 => cases done
  | case2 output a b c d passes room => exact Nat.not_lt.mp (Outcome.ok.inj done ▸ room)
  | case3 rest output a b c d passes room more ih => exact ih done
  | case4 => cases done
  | case5 => cases done
  | case6 => cases done

/-- A character that is not let pass. -/
def Unfit (input : List UInt8) : Prop := ∃ i c, input[i]? = some c ∧ admitted (i % 4) c = false

/-- How many bytes come of the quanta before such a character. -/
def produced : List UInt8 → Nat
  | a :: b :: c :: d :: rest =>
    if admits 0 [a, b, c, d] then (if c = EQUAL then 1 else if d = EQUAL then 2 else 3) + produced rest else 0
  | _ => 0

theorem bytes_length (a b c d : UInt8) :
    (base64_bytes a b c d).length = if c = EQUAL then 1 else if d = EQUAL then 2 else 3 := by
  rw [base64_bytes, List.length_map]
  split
  · rfl
  · split <;> rfl

theorem admits_false {i : Nat} {part : List UInt8} :
    admits i part = false ↔ ∃ j c, part[j]? = some c ∧ admitted (i + j) c = false := by
  induction part generalizing i with
  | nil => simp [admits]
  | cons b part ih =>
    rw [admits, Bool.and_eq_false_iff, ih]
    constructor
    · rintro (first | ⟨j, c, here, bad⟩)
      · exact ⟨0, b, rfl, first⟩
      · exact ⟨j + 1, c, here, by rwa [Nat.add_right_comm i 1 j] at bad⟩
    · rintro ⟨j, c, here, bad⟩
      cases j with
      | zero =>
        obtain rfl : b = c := by simpa using here
        exact .inl bad
      | succ j => exact .inr ⟨j, c, by simpa using here, by rwa [Nat.add_right_comm i 1 j]⟩

theorem unfit_append {part rest : List UInt8} (four : part.length = 4 ∨ part.length < 4 ∧ rest = []) :
    Unfit (part ++ rest) ↔ admits 0 part = false ∨ Unfit rest := by
  rw [admits_false]
  constructor
  · rintro ⟨i, c, here, bad⟩
    by_cases inside : i < part.length
    · rw [List.getElem?_append_left inside] at here
      rw [Nat.mod_eq_of_lt (by omega)] at bad
      exact .inl ⟨i, c, here, by rwa [Nat.zero_add]⟩
    · rw [List.getElem?_append_right (by omega)] at here
      rcases four with four | ⟨_, rfl⟩
      · exact .inr ⟨i - part.length, c, here, by rwa [four, ← Nat.mod_eq_sub_mod (by omega)]⟩
      · simp at here
  · rintro (⟨i, c, here, bad⟩ | ⟨i, c, here, bad⟩)
    · have inside : i < part.length := (List.getElem?_eq_some_iff.mp here).1
      refine ⟨i, c, by rwa [List.getElem?_append_left inside], ?_⟩
      rwa [Nat.mod_eq_of_lt (by omega), ← Nat.zero_add i]
    · rcases four with four | ⟨_, rfl⟩
      · refine ⟨i + 4, c, ?_, by rwa [Nat.add_mod_right]⟩
        rwa [List.getElem?_append_right (by omega), four, Nat.add_sub_cancel]
      · simp at here

/-- The loop stays inside of its buffers, and refuses what has not whole quanta. -/
theorem decode_loop_safe {olen : Nat} (input output : List UInt8) (room : output.length ≤ olen) :
    (mu_base64_decode_loop olen input output ≠ .fault ∧
        (input.length % 4 ≠ 0 → mu_base64_decode_loop olen input output = .einval)) ↔
      (Unfit input ∨ input ≠ [] ∧ input.length % 4 = 0) ∧ output.length + produced input ≤ olen := by
  have counts {a b c d : UInt8} {rest : List UInt8} (passes : admits 0 [a, b, c, d] = true) :
      produced (a :: b :: c :: d :: rest) = (base64_bytes a b c d).length + produced rest := by
    rw [produced, if_pos passes, bytes_length]
  have unfit {a b c d : UInt8} {rest : List UInt8} :
      Unfit (a :: b :: c :: d :: rest) ↔ admits 0 [a, b, c, d] = false ∨ Unfit rest :=
    @unfit_append [a, b, c, d] rest (.inl rfl)
  have small {part : List UInt8} (short : ∀ a b c d rest, part = a :: b :: c :: d :: rest → False) :
      part.length < 4 := by
    rcases part with _ | ⟨a, _ | ⟨b, _ | ⟨c, _ | ⟨d, rest⟩⟩⟩⟩
    · exact Nat.succ_pos 3
    · exact Nat.lt_add_of_pos_right (Nat.succ_pos 2)
    · exact Nat.lt_add_of_pos_right (Nat.succ_pos 1)
    · exact Nat.lt_add_of_pos_right (Nat.succ_pos 0)
    · exact (short a b c d rest rfl).elim
  fun_induction mu_base64_decode_loop olen input output with
  | case1 a b c d rest output passes full =>
    rw [List.length_append] at full
    simp only [ne_eq, not_true_eq_false, false_and, false_iff, not_and, counts passes]
    omega
  | case2 a b c d output passes fits =>
    rw [List.length_append] at fits
    rw [counts passes]
    simp [produced]
    omega
  | case3 a b c d rest output passes fits more ih =>
    have step := ih (Nat.not_lt.mp fits)
    have whole : (a :: b :: c :: d :: rest).length % 4 = rest.length % 4 := by
      simp only [List.length_cons]
      omega
    rw [List.length_append, Nat.add_assoc, ← counts passes] at step
    rw [whole, unfit, passes]
    refine step.trans ?_
    simp [more]
  | case4 a b c d rest output refused =>
    have bad : admits 0 [a, b, c, d] = false := by simpa using refused
    simp [unfit, bad, produced, room]
  | case5 part output short passes =>
    have length := small short
    have fit : ¬ Unfit part := by
      have split := @unfit_append part [] (.inr ⟨length, rfl⟩)
      rw [List.append_nil] at split
      rw [split, passes]
      simp [Unfit]
    simp only [ne_eq, not_true_eq_false, false_and, false_iff, not_and, fit, false_or]
    rintro ⟨nonempty, whole⟩
    have := List.length_pos_iff.mpr nonempty
    omega
  | case6 part output short refused =>
    have bad : admits 0 part = false := by simpa using refused
    have split := @unfit_append part [] (.inr ⟨small short, rfl⟩)
    rw [List.append_nil, bad] at split
    have none : produced part = 0 := by
      rw [produced]
      exact short
    simp [split, none, room]

theorem malloc_int (n : Nat) :
    malloc (toSize (toInt n)) = if n % 2 ^ 32 < 2 ^ 31 then some (n % 2 ^ 32) else none := by
  have size : toInt n = if n % 2 ^ 32 < 2 ^ 31 then ((n % 2 ^ 32 : Nat) : Int) else (n % 2 ^ 32 : Nat) - 2 ^ 32 := by
    unfold toInt
    rw [Int.bmod_def]
    split <;> split <;> omega
  rw [malloc, toSize, size]
  split
  · rw [if_pos (by omega)]
    exact congrArg some (by omega)
  · rw [if_neg (by omega)]

/-- What the decoder makes of the encoding of a text. -/
def recoded (x : List UInt8) : Outcome :=
  match mu_base64_encode x with
  | .ok y => mu_base64_decode y
  | other => other

theorem decode_allocated {input : List UInt8} (small : input.length % 2 ^ 32 < 2 ^ 31) :
    mu_base64_decode input = mu_base64_decode_loop (input.length % 2 ^ 32) input [] := by
  rw [mu_base64_decode, malloc_int, if_pos small, allocated]

theorem decode_refused {input : List UInt8} (large : ¬ input.length % 2 ^ 32 < 2 ^ 31) :
    mu_base64_decode input = .enomem := by
  rw [mu_base64_decode, malloc_int, if_neg large, allocated]

theorem encode_ok {x y : List UInt8} (done : mu_base64_encode x = .ok y) : y = rfc2045 x := by
  rw [mu_base64_encode] at done
  cases buffer : malloc ((4 * (x.length + 2) % 2 ^ 64 / 3 + 1) % 2 ^ 64) with
  | none => rw [buffer] at done; cases done
  | some olen =>
    rw [buffer, allocated] at done
    split at done
    · cases done
    · rw [← characters_eq]
      exact (Outcome.ok.inj done).symm

theorem encode_small {x : List UInt8} (small : (x.length + 2) / 3 * 4 < 2 ^ 31) :
    mu_base64_encode x = .ok (rfc2045 x) := by
  have fits : 4 * (x.length + 2) % 2 ^ 64 = 4 * (x.length + 2) := Nat.mod_eq_of_lt (by omega)
  have size : (4 * (x.length + 2) % 2 ^ 64 / 3 + 1) % 2 ^ 64 = 4 * (x.length + 2) / 3 + 1 := by
    rw [fits]
    omega
  have length := rfc2045_length x
  rw [mu_base64_encode, characters_eq, size, malloc, if_pos (by omega), allocated, if_neg (by omega)]

theorem recoded_iff (x : List UInt8) : recoded x = .ok x ↔ x ≠ [] ∧ (x.length + 2) / 3 * 4 < 2 ^ 31 := by
  have length := rfc2045_length x
  constructor
  · intro back
    rw [recoded] at back
    cases done : mu_base64_encode x with
    | ok y =>
      obtain rfl := encode_ok done
      rw [done] at back
      change mu_base64_decode (rfc2045 x) = .ok x at back
      constructor
      · rintro rfl
        revert back
        decide +kernel
      · by_cases fits : (rfc2045 x).length % 2 ^ 32 < 2 ^ 31
        · rw [decode_allocated fits] at back
          have bound := decode_loop_bound back
          omega
        · rw [decode_refused fits] at back
          cases back
    | einval => rw [done] at back; cases back
    | enomem => rw [done] at back; cases back
    | fault => rw [done] at back; cases back
  · rintro ⟨nonempty, small⟩
    have whole : (rfc2045 x).length % 2 ^ 32 = (x.length + 2) / 3 * 4 := by omega
    rw [recoded, encode_small small]
    change mu_base64_decode (rfc2045 x) = .ok x
    rw [decode_allocated (by omega), whole]
    exact decode_loop_encoded nonempty [] (by rw [List.nil_append]; omega)

/-- Nothing is read or written outside of the buffers, and a text without whole quanta is refused. -/
structure Safe (input : List UInt8) : Prop where
  inside : mu_base64_decode input ≠ .fault
  refuses : input.length % 4 ≠ 0 → mu_base64_decode input = .einval

/-- Data come back through the two functions, and decoding is safe for a text, just within the limits of `int` and when
    what the decoder produces fits its buffer. -/
theorem base64_decode_iff (x input : List UInt8) :
    (recoded x = .ok x ∧ Safe input) ↔
      (x ≠ [] ∧ (x.length + 2) / 3 * 4 < 2 ^ 31) ∧
        if input.length % 2 ^ 32 < 2 ^ 31 then
          (Unfit input ∨ input ≠ [] ∧ input.length % 4 = 0) ∧ produced input ≤ input.length % 2 ^ 32
        else input.length % 4 = 0 := by
  refine and_congr (recoded_iff x) ?_
  by_cases fits : input.length % 2 ^ 32 < 2 ^ 31
  · rw [if_pos fits]
    have loop := decode_loop_safe input [] (Nat.zero_le (input.length % 2 ^ 32))
    rw [List.length_nil, Nat.zero_add, ← decode_allocated fits] at loop
    exact Iff.trans ⟨fun safe => ⟨safe.inside, safe.refuses⟩, fun both => ⟨both.1, both.2⟩⟩ loop
  · have outcome := decode_refused fits
    rw [if_neg fits]
    constructor
    · intro safe
      by_contra part
      have refused := safe.refuses part
      rw [outcome] at refused
      cases refused
    · intro whole
      refine ⟨?_, fun part => absurd whole part⟩
      rw [outcome]
      exact Outcome.noConfusion

/-- An empty text, and a text without its last character, make the decoder read behind the end. -/
theorem decoded_behind :
    mu_base64_encode [] = .ok [] ∧ mu_base64_decode [] = .fault ∧ mu_base64_decode (ascii "QUJ") = .fault := by
  decide +kernel

end Mailutils.Base64

import Mailutils.Filter

/-!
The tables of the base64 code (`libmailutils/filter/base64.c`) and the base64 text of RFC 2045.
-/
namespace Mailutils.Base64
open Mailutils.Transducer Mailutils.Filter

def b64tab : List UInt8 := ascii "ABCDEFGHIJKLMNOPQRSTUVWXYZabcdefghijklmnopqrstuvwxyz0123456789+/"

def b64val : List Int := [
  -1, -1, -1, -1, -1, -1, -1, -1, -1, -1, -1, -1, -1, -1, -1, -1,
  -1, -1, -1, -1, -1, -1, -1, -1, -1, -1, -1, -1, -1, -1, -1, -1,
  -1, -1, -1, -1, -1, -1, -1, -1, -1, -1, -1, 62, -1, -1, -1, 63,
  52, 53, 54, 55, 56, 57, 58, 59, 60, 61, -1, -1, -1, -1, -1, -1,
  -1, 0, 1, 2, 3, 4, 5, 6, 7, 8, 9, 10, 11, 12, 13, 14,
  15, 16, 17, 18, 19, 20, 21, 22, 23, 24, 25, -1, -1, -1, -1, -1,
  -1, 26, 27, 28, 29, 30, 31, 32, 33, 34, 35, 36, 37, 38, 39, 40,
  41, 42, 43, 44, 45, 46, 47, 48, 49, 50, 51, -1, -1, -1, -1, -1]


/-- The four digits of a number of 24 bits. -/
def digits (n : Nat) : List UInt8 := [n / 2 ^ 18, n / 2 ^ 12 % 64, n / 2 ^ 6 % 64, n % 64].map (b64tab.getD · 0)

/-- The base64 text of RFC 2045: three bytes become four digits; one or two
    bytes at the end are filled up with zero bits and `=`. -/
def rfc2045 : List UInt8 → List UInt8
  | a :: b :: c :: rest => digits (a.toNat * 2 ^ 16 + b.toNat * 2 ^ 8 + c.toNat) ++ rfc2045 rest
  | [a, b] => (digits (a.toNat * 2 ^ 16 + b.toNat * 2 ^ 8)).take 3 ++ [EQUAL]
  | [a] => (digits (a.toNat * 2 ^ 16)).take 2 ++ [EQUAL, EQUAL]
  | [] => []

private theorem b64val_b64tab (v : Fin 64) :
    b64tab.getD v 0 ≠ EQUAL ∧ (b64tab.getD v 0).toNat < 128 ∧ b64val.getD (b64tab.getD v 0).toNat 0 = v := by
  decide +revert +kernel

theorem b64val_digit {v : Nat} (digit : v < 64) (d : Int) : b64val.getD (b64tab.getD v 0).toNat d = v := by
  obtain ⟨_, low, value⟩ := b64val_b64tab ⟨v, digit⟩
  have any {i : Nat} (entry : i < 128) : b64val.getD i d = b64val.getD i 0 := by
    have entries : b64val.length = 128 := rfl
    simp [entries, entry]
  exact (any low).trans value

end Mailutils.Base64

import Mailutils.Cidr

/-!
The strings of networks: which of them `mu_cidr_from_string` reads inside of its arrays, with the
netmask that they name.
-/
namespace Mailutils.Cidr
open Mailutils.Text (strtoul convertLu_digits)

/-- The text is a decimal number. -/
def Digits (p : List UInt8) : Prop := p ≠ [] ∧ ∀ c ∈ p, isdigit c

theorem strtoul_digits {p : List UInt8} (digits : Digits p) :
    strtoul p = (if ulong ≤ decimal p then ulong - 1 else decimal p, []) := by
  have read := @convertLu_digits p [] digits.1 digits.2 (by intro c stop; cases stop)
  rw [List.append_nil] at read
  simp [strtoul, read]

/-- The address in front of the slash. -/
def ipbufOf (str : List UInt8) : List UInt8 := str.takeWhile (· ≠ SLASH)

/-- Nothing is written outside of the arrays, and a decimal prefix length is taken only when the
    address has as many bits, which are then the ones of the netmask. -/
structure ReadsPrefix (inet : InetPton) (address netmask : Bytes) (str : List UInt8) : Prop where
  inside : mu_cidr_from_string inet address netmask str ≠ .undefined
  length_le : ∀ p network, afterSlash str = some p → Digits p →
    mu_cidr_from_string inet address netmask str = .ok network → decimal p ≤ network.len * 8
  ones : ∀ p network, afterSlash str = some p → Digits p →
    mu_cidr_from_string inet address netmask str = .ok network →
      ∀ j < MU_INADDR_BYTES * 8, bit network.netmask j = decide (j < decimal p)

/-- The text after the slash, where it is taken for a prefix length: a decimal number of at most the bits
    of the address, or else a text (blank, signed or empty) of which an `int` counts at most 16 bytes. -/
def PrefixFits (family : Family) (p : List UInt8) : Prop :=
  (Digits p → decimal p ≤ family.bytes * 8) ∧
    (¬ Digits p → (toInt ((strtoul p).1 / 8)).toNat ≤ MU_INADDR_BYTES)

theorem masklen_to_netmask_eq_none {buf : Bytes} {masklen : Nat} :
    masklen_to_netmask buf masklen = none ↔ MU_INADDR_BYTES < (toInt (masklen / 8)).toNat := by
  rw [masklen_to_netmask]
  dsimp only
  split_ifs <;> simp_all

section
variable {inet : InetPton} {address netmask : Bytes} {str : List UInt8} {family : Family}
  {ipbuf bytes : List UInt8}

theorem from_string_eq (split : str.takeWhile (· ≠ SLASH) = ipbuf) (short : ipbuf.length < 41)
    (known : familyOf ipbuf = some family) (read : inet.pton family ipbuf = some bytes) :
    mu_cidr_from_string inet address netmask str =
      netmask_from_string inet family (_mu_inaddr_to_bytes bytes address) netmask ipbuf (afterSlash str) := by
  have notLong : ¬ 41 < ipbuf.length := by omega
  have notFull : ¬ ipbuf.length = 41 := by omega
  simp only [mu_cidr_from_string, split, notLong, notFull, if_false, known, read]

private theorem from_string_error (split : str.takeWhile (· ≠ SLASH) = ipbuf) (length : ipbuf.length ≠ 41)
    (unread : ipbuf.length < 41 → ∀ family bytes, familyOf ipbuf = some family → inet.pton family ipbuf ≠ some bytes) :
    ∃ rc, mu_cidr_from_string inet address netmask str = .error rc := by
  simp only [mu_cidr_from_string, split, length, if_false]
  by_cases long : 41 < ipbuf.length
  · exact ⟨_, if_pos long⟩
  · rw [if_neg long]
    cases known : familyOf ipbuf with
    | none => exact ⟨_, rfl⟩
    | some family =>
      cases read : inet.pton family ipbuf with
      | none => exact ⟨.MU_ERR_NONAME, by simp only [read]⟩
      | some bytes => exact absurd read (unread (by omega) family bytes known)

/-- The only way out of the netmask is a prefix length of too many bytes. -/
theorem netmask_from_string_undefined {slash : Option (List UInt8)} :
    netmask_from_string inet family address netmask ipbuf slash = .undefined ↔
      ∃ p, slash = some p ∧ (strtoul p).2 = [] ∧ MU_INADDR_BYTES < (toInt ((strtoul p).1 / 8)).toNat := by
  unfold netmask_from_string
  cases slash with
  | none =>
    cases mask : masklen_to_netmask netmask (family.bytes * 8) with
    | none =>
      have past := masklen_to_netmask_eq_none.mp mask
      cases family <;> exact absurd past (by decide)
    | some set => simp [mask]
  | some p =>
    by_cases number : (strtoul p).2 = []
    · cases mask : masklen_to_netmask netmask (strtoul p).1 with
      | none => simpa [number, mask] using masklen_to_netmask_eq_none.mp mask
      | some set =>
        have fits := mt (@masklen_to_netmask_eq_none netmask _).mpr (by rw [mask]; simp)
        simpa [number, mask] using fits
    · simp only [number, if_false]
      split_ifs
      · cases inet.pton family p <;> simp [number]
      · simp [number]

theorem netmask_from_string_accepted {slash : Option (List UInt8)} {p : List UInt8} (given : slash = some p)
    (number : (strtoul p).2 = []) (fits : (toInt ((strtoul p).1 / 8)).toNat ≤ MU_INADDR_BYTES) :
    ∃ network, netmask_from_string inet family address netmask ipbuf slash = .ok network ∧ network.family = family := by
  subst given
  unfold netmask_from_string
  cases mask : masklen_to_netmask netmask (strtoul p).1 with
  | none => exact absurd (masklen_to_netmask_eq_none.mp mask) (by omega)
  | some set => exact ⟨⟨family, family.bytes, address, set, rfl⟩, by simp [number, mask], rfl⟩

theorem bits_le_of_family {n : Nat} (bits : n ≤ family.bytes * 8) : n ≤ 128 := by
  have := family.bytes_le
  rw [MU_INADDR_BYTES] at this
  omega

theorem digits_small {p : List UInt8} (digits : Digits p) (small : decimal p ≤ 128) : strtoul p = (decimal p, []) := by
  rw [strtoul_digits digits, if_neg (by rw [ulong]; omega)]

theorem bytes_of_fits {p : List UInt8} (fits : PrefixFits family p) :
    (toInt ((strtoul p).1 / 8)).toNat ≤ MU_INADDR_BYTES := by
  by_cases digits : Digits p
  · have bits := bits_le_of_family (fits.1 digits)
    rw [digits_small digits bits, toInt_small (by dsimp only; omega), MU_INADDR_BYTES]
    dsimp only
    omega
  · exact fits.2 digits

end

/-- The networks are read as their strings say unless the address fills `ipbuf`, or a prefix length is
    greater than the address has bits. -/
theorem reads_prefix_iff (inet : InetPton) (address netmask : Bytes) (str : List UInt8) :
    ReadsPrefix inet address netmask str ↔
      (ipbufOf str).length ≠ 41 ∧ ((ipbufOf str).length < 41 →
        ∀ family bytes p, familyOf (ipbufOf str) = some family → inet.pton family (ipbufOf str) = some bytes →
          afterSlash str = some p → (strtoul p).2 = [] → PrefixFits family p) := by
  generalize split : ipbufOf str = ipbuf
  rw [ipbufOf] at split
  constructor
  · rintro ⟨inside, length_le, -⟩
    refine ⟨?_, fun short family bytes p known read slash number => ?_⟩
    · intro full
      apply inside
      simp only [mu_cidr_from_string, split, full, lt_irrefl, if_false, if_true]
    · rw [from_string_eq split short known read] at inside
      have fits : (toInt ((strtoul p).1 / 8)).toNat ≤ MU_INADDR_BYTES := by
        by_contra past
        exact inside (netmask_from_string_undefined.mpr ⟨p, slash, number, by omega⟩)
      refine ⟨fun digits => ?_, fun _ => fits⟩
      obtain ⟨network, accepted, same⟩ := @netmask_from_string_accepted inet
        (_mu_inaddr_to_bytes bytes address) netmask family ipbuf _ p slash number fits
      rw [← same, ← network.len_eq]
      exact length_le p network slash digits (by rw [from_string_eq split short known read, accepted])
  · rintro ⟨length, fits⟩
    by_cases unread : ipbuf.length < 41 → ∀ family bytes, familyOf ipbuf = some family →
        inet.pton family ipbuf ≠ some bytes
    · obtain ⟨rc, error⟩ := @from_string_error inet address netmask str ipbuf split length unread
      constructor <;> simp [error]
    · simp only [not_forall, not_not] at unread
      obtain ⟨short, family, bytes, known, read⟩ := unread
      have result := @from_string_eq inet address netmask str family ipbuf bytes split short known read
      refine ⟨?_, fun p network slash digits accepted => ?_, fun p network slash digits accepted => ?_⟩
      · rw [result]
        intro undefined
        obtain ⟨p, slash, number, past⟩ := netmask_from_string_undefined.mp undefined
        have := bytes_of_fits (fits short family bytes p known read slash number)
        omega
      all_goals
        rw [result] at accepted
        have number : (strtoul p).2 = [] := by rw [strtoul_digits digits]
        have bits := (fits short family bytes p known read slash number).1 digits
        obtain ⟨same, -, -, prefixed, -⟩ := netmask_from_string_ok accepted
      · rwa [network.len_eq, same]
      · intro j below
        have small := bits_le_of_family bits
        rw [bit_masklen (prefixed p slash number) j below, digits_small digits small, prefixBits_small (by omega)]

/-- A prefix length is read that is no prefix of the address, one that leaves the netmask, and an address
    that leaves `ipbuf`. -/
theorem prefix_too_long :
    (∃ network,
      mu_cidr_from_string dottedQuads (.replicate 16 0) (.replicate 16 0) (ascii "10.0.0.0/40") = .ok network ∧
      network.len * 8 = 32 ∧ decimal (ascii "40") = 40) ∧
    mu_cidr_from_string dottedQuads (.replicate 16 0) (.replicate 16 0) (ascii "10.0.0.0/136") = .undefined ∧
    mu_cidr_from_string dottedQuads (.replicate 16 0) (.replicate 16 0) (.replicate 41 49) = .undefined := by
  refine ⟨⟨⟨.AF_INET, 4, #v[10, 0, 0, 0, 0, 0, 0, 0, 0, 0, 0, 0, 0, 0, 0, 0],
    #v[255, 255, 255, 255, 255, 0, 0, 0, 0, 0, 0, 0, 0, 0, 0, 0], rfl⟩, by decide, rfl, by decide⟩,
    by decide, by decide⟩

end Mailutils.Cidr

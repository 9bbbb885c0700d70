import Mailutils.Text
import Mathlib.Data.Vector.Basic

/-!
Networks: how their strings are read and when an address is taken for a member.
-/
namespace Mailutils.Cidr
open Mailutils.Text (strtoul)

def MU_INADDR_BYTES : Nat := 16
/-- `unsigned char [MU_INADDR_BYTES]` -/
abbrev Bytes := Vector UInt8 16

inductive Family where
  | AF_INET
  | AF_INET6
  deriving DecidableEq, Repr

/-- The number of bytes of an address. -/
def Family.bytes : Family → Nat
  | .AF_INET => 4
  | .AF_INET6 => 16

theorem Family.bytes_le (family : Family) : family.bytes ≤ MU_INADDR_BYTES := by
  cases family <;> decide

/-- `struct mu_cidr`: the length is always that of an address of the family. -/
structure MuCidr where
  family : Family
  len : Nat
  address : Bytes
  netmask : Bytes
  len_eq : len = family.bytes
  deriving DecidableEq


/-- The loop of `mu_str_is_ipv4`. -/
def is_ipv4_loop (dot_count digit_count : Nat) : List UInt8 → Bool
  | [] => dot_count = 3
  | c :: addr =>
    if ¬ mu_isascii c then false
    else if c = DOT then if 3 < dot_count + 1 then dot_count + 1 = 3 else is_ipv4_loop (dot_count + 1) 0 addr
    else if ¬ (isdigit c ∧ digit_count + 1 ≤ 3) then false
    else is_ipv4_loop dot_count (digit_count + 1) addr

def mu_str_is_ipv4 (addr : List UInt8) : Bool := is_ipv4_loop 0 0 addr

/-- The loop of `mu_str_is_ipv6`. -/
def is_ipv6_loop (col_count dcol dig_count : Nat) : List UInt8 → Bool
  | [] => col_count = 7 ∨ dcol ≠ 0
  | c :: addr =>
    if ¬ mu_isascii c then false
    else if mu_isxdigit c then if 4 < dig_count + 1 then false else is_ipv6_loop col_count dcol (dig_count + 1) addr
    else if c = COLON then
      let dcol' := if col_count ≠ 0 ∧ dig_count = 0 then dcol + 1 else dcol
      if col_count ≠ 0 ∧ dig_count = 0 ∧ 1 < dcol' then false
      else if 7 < col_count + 1 then false
      else is_ipv6_loop (col_count + 1) dcol' 0 addr
    else false

def mu_str_is_ipv6 (addr : List UInt8) : Bool := is_ipv6_loop 0 0 0 addr

/-- `inet_pton`: the bytes of an address in network order, as many as the family has. -/
structure InetPton where
  pton : Family → List UInt8 → Option (List UInt8)
  length_pton : ∀ family text bytes, pton family text = some bytes → bytes.length = family.bytes

/-- The byte at an index of an array. -/
def byte (bytes : Bytes) (i : Nat) : UInt8 := bytes[i]?.getD 0

/-- `memcpy (bytes, buf, len)` of `_mu_inaddr_to_bytes`. -/
def _mu_inaddr_to_bytes (buf : List UInt8) (bytes : Bytes) : Bytes := Vector.ofFn fun i => buf.getD i bytes[i]

/-- The conversion of a `size_t` to an `int`. -/
def toInt (n : Nat) : Int :=
  let low := n % 4294967296
  if low < 2147483648 then low else (low : Int) - 4294967296

/-- `for (; n; n--) buf[i++] = c` -/
def fill (buf : Bytes) (c : UInt8) (i : Nat) : Nat → Bytes
  | 0 => buf
  | n + 1 => fill (buf.setIfInBounds i c) c (i + 1) n

/-- `masklen_to_netmask`; `none` when it writes past the end of the array. -/
def masklen_to_netmask (buf : Bytes) (masklen : Nat) : Option Bytes :=
  -- no round of the loop for a negative number
  let i := (toInt (masklen / 8)).toNat
  if MU_INADDR_BYTES < i then none
  else
    let buf := fill buf 0xff 0 i
    if i = MU_INADDR_BYTES then some buf
    else
      let cnt := 8 - masklen % 8
      let buf := buf.setIfInBounds i (UInt8.ofNat ((0xff >>> cnt) <<< cnt))
      some (fill buf 0 (i + 1) (MU_INADDR_BYTES - (i + 1)))

inductive Error where
  | MU_ERR_BUFSPACE
  | MU_ERR_FAMILY
  | MU_ERR_NONAME
  deriving DecidableEq, Repr

/-- What `mu_cidr_from_string` may end with. The last is a write outside of `ipbuf` or of a netmask. -/
inductive Result where
  | ok (cidr : MuCidr)
  | error (rc : Error)
  | undefined
  deriving DecidableEq

/-- The `family` of an address string. -/
def familyOf (ipbuf : List UInt8) : Option Family :=
  if mu_str_is_ipv4 ipbuf then some .AF_INET else if mu_str_is_ipv6 ipbuf then some .AF_INET6 else none

/-- What follows the slash of a network string. -/
def afterSlash (str : List UInt8) : Option (List UInt8) :=
  if SLASH ∈ str then some (str.dropWhile (· ≠ SLASH)).tail else none

/-- The part of `mu_cidr_from_string` that sets the netmask; `slash` is what follows the slash. -/
def netmask_from_string (inet : InetPton) (family : Family) (address netmask : Bytes) (ipbuf : List UInt8)
    (slash : Option (List UInt8)) : Result :=
  let done (mask : Bytes) : Result :=
    .ok { family := family, len := family.bytes, address := address, netmask := mask, len_eq := rfl }
  let prefixed (masklen : Nat) : Result :=
    match masklen_to_netmask netmask masklen with
    | some mask => done mask
    | none => .undefined
  match slash with
  | none => prefixed (family.bytes * 8)
  | some p =>
    let masklen := strtoul p
    if masklen.2 = [] then prefixed masklen.1
    -- the mask of an IPv6 network is not looked at, the address is once more
    else if family = .AF_INET ∧ mu_str_is_ipv4 p ∨ family = .AF_INET6 ∧ mu_str_is_ipv6 ipbuf then
      match inet.pton family p with
      | none => .error .MU_ERR_NONAME
      | some inaddr => done (_mu_inaddr_to_bytes inaddr netmask)
    else .error .MU_ERR_FAMILY

/-- `mu_cidr_from_string`; `address` and `netmask` are what the local structure holds before it is set. -/
def mu_cidr_from_string (inet : InetPton) (address netmask : Bytes) (str : List UInt8) : Result :=
  let ipbuf := str.takeWhile (· ≠ SLASH)
  if 41 < ipbuf.length then .error .MU_ERR_BUFSPACE
  -- the terminating zero goes to `ipbuf[41]`
  else if ipbuf.length = 41 then .undefined
  else
    match familyOf ipbuf with
    | none => .error .MU_ERR_FAMILY
    | some family =>
      match inet.pton family ipbuf with
      | none => .error .MU_ERR_NONAME
      | some inaddr =>
        netmask_from_string inet family (_mu_inaddr_to_bytes inaddr address) netmask ipbuf
          (afterSlash str)

def mu_cidr_match (a b : MuCidr) : Nat :=
  if a.family ≠ b.family then 1
  else if (List.range a.len).any fun i => byte a.address i ≠ byte b.address i &&& byte a.netmask i then 1
  else 0

/-- A bit of an address, counted from the most significant one of its first byte. -/
def bit (bytes : Bytes) (j : Nat) : Bool := (byte bytes (j / 8)).toBitVec.getMsbD (j % 8)

theorem byte_set (buf : Bytes) (c : UInt8) (i k : Nat) :
    byte (buf.setIfInBounds i c) k = if i = k ∧ k < 16 then c else byte buf k := by
  rw [byte, Vector.getElem?_setIfInBounds]
  by_cases here : i = k
  · subst here
    by_cases inside : i < 16
    · simp [inside]
    · simp [inside, byte]
  · simp [here, byte]

theorem byte_fill (buf : Bytes) (c : UInt8) (i n k : Nat) :
    byte (fill buf c i n) k = if i ≤ k ∧ k < i + n ∧ k < 16 then c else byte buf k := by
  induction n generalizing buf i with
  | zero =>
    have outside : ¬ (i ≤ k ∧ k < i + 0 ∧ k < 16) := by omega
    rw [fill, if_neg outside]
  | succ n ih =>
    rw [fill, ih, byte_set]
    by_cases here : i = k
    · subst here
      simp
    · have same : (i + 1 ≤ k ∧ k < i + 1 + n ∧ k < 16) ↔ (i ≤ k ∧ k < i + (n + 1) ∧ k < 16) := by omega
      rw [if_congr same rfl rfl, if_neg (fun both : i = k ∧ k < 16 => here both.1)]

private theorem getMsbD_prefix_byte : ∀ m < 8, ∀ j < 8,
    (UInt8.ofNat ((0xff >>> (8 - m)) <<< (8 - m))).toBitVec.getMsbD j = decide (j < m) := by
  decide

theorem getMsbD_ones : ∀ j < 8, (0xff : UInt8).toBitVec.getMsbD j = true := by
  decide

theorem toInt_small {n : Nat} (small : n < 2147483648) : (toInt n).toNat = n := by
  have low : n % 4294967296 = n := Nat.mod_eq_of_lt (by omega)
  simp only [toInt, low, if_pos small, Int.toNat_natCast]

/-- The number of leading bits a prefix length comes to. -/
def prefixBits (masklen : Nat) : Nat := (toInt (masklen / 8)).toNat * 8 + masklen % 8

theorem prefixBits_small {masklen : Nat} (small : masklen < 17179869184) : prefixBits masklen = masklen := by
  rw [prefixBits, toInt_small (by omega)]
  omega

theorem bit_masklen {buf mask : Bytes} {masklen : Nat} (computed : masklen_to_netmask buf masklen = some mask) :
    ∀ j < 128, bit mask j = decide (j < prefixBits masklen) := by
  intro j inside
  have index : j / 8 < 16 := by omega
  have rem : j % 8 < 8 := Nat.mod_lt j (by decide)
  have part : masklen % 8 < 8 := Nat.mod_lt masklen (by decide)
  rw [masklen_to_netmask] at computed
  rw [bit, prefixBits]
  generalize (toInt (masklen / 8)).toNat = bytes at computed ⊢
  have fits : ¬ MU_INADDR_BYTES < bytes := by
    intro past
    simp [past] at computed
  simp only [if_neg fits] at computed
  rw [MU_INADDR_BYTES] at fits computed
  by_cases full : bytes = 16
  · rw [if_pos full, Option.some.injEq] at computed
    rw [← computed, byte_fill, if_pos (by omega), getMsbD_ones _ rem]
    exact (decide_eq_true (by omega)).symm
  · rw [if_neg full, Option.some.injEq] at computed
    rw [← computed, byte_fill, byte_set, byte_fill]
    -- bytes behind the end of the prefix, the byte in which it ends, bytes in front of it
    rcases Nat.lt_trichotomy bytes (j / 8) with behind | here | front
    · rw [if_pos (by omega)]
      have zero : (0 : UInt8).toBitVec.getMsbD (j % 8) = false := by simp
      rw [zero]
      exact (decide_eq_false (by omega)).symm
    · rw [if_neg (by omega), if_pos (by omega), getMsbD_prefix_byte _ part _ rem]
      exact decide_eq_decide.mpr (by omega)
    · rw [if_neg (by omega), if_neg (by omega), if_pos (by omega), getMsbD_ones _ rem]
      exact (decide_eq_true (by omega)).symm

/-- The two addresses are the same in the bits that the netmask of the network selects. -/
def Agree (network address : MuCidr) : Prop :=
  ∀ j < network.len * 8, bit network.netmask j = true → bit network.address j = bit address.address j

/-- No bit of the address is set that the netmask does not select. -/
def NoHostBits (network : MuCidr) : Prop :=
  ∀ j < network.len * 8, bit network.netmask j = false → bit network.address j = false

private theorem match_eq_zero_iff {a b : MuCidr} (family : b.family = a.family) :
    mu_cidr_match a b = 0 ↔ ∀ i < a.len, byte a.address i = byte b.address i &&& byte a.netmask i := by
  rw [mu_cidr_match, if_neg (by simp [family])]
  simp

theorem byte_eq_and_iff (x y mask : UInt8) :
    x = y &&& mask ↔ ∀ k < 8, x.toBitVec.getMsbD k = (y.toBitVec.getMsbD k && mask.toBitVec.getMsbD k) := by
  rw [← UInt8.toBitVec_inj, UInt8.toBitVec_and]
  constructor
  · intro same k _
    rw [same, BitVec.getMsbD_and]
  · intro bits
    apply BitVec.eq_of_getMsbD_eq
    intro k inside
    rw [bits k inside, BitVec.getMsbD_and]

theorem match_eq_zero_iff_bits {a b : MuCidr} (family : b.family = a.family) :
    mu_cidr_match a b = 0 ↔ ∀ j < a.len * 8, bit a.address j = (bit b.address j && bit a.netmask j) := by
  rw [match_eq_zero_iff family]
  constructor
  · intro bytes j inside
    have index : j / 8 < a.len := by omega
    exact (byte_eq_and_iff _ _ _).mp (bytes (j / 8) index) (j % 8) (Nat.mod_lt j (by decide))
  · intro bits i inside
    rw [byte_eq_and_iff]
    intro k small
    have at_bit := bits (i * 8 + k) (by omega)
    have index : (i * 8 + k) / 8 = i := by omega
    have offset : (i * 8 + k) % 8 = k := by omega
    simpa only [bit, index, offset] using at_bit

theorem agree_refl (network : MuCidr) : Agree network network := by
  intro j _ _
  rfl

variable {network : MuCidr}

theorem noHostBits_of_match_self (same : mu_cidr_match network network = 0) : NoHostBits network := by
  intro j inside unselected
  rw [(match_eq_zero_iff_bits rfl).mp same j inside, unselected, Bool.and_false]

theorem match_iff_agree {network address : MuCidr} (clear : NoHostBits network)
    (family : address.family = network.family) : mu_cidr_match network address = 0 ↔ Agree network address := by
  rw [match_eq_zero_iff_bits family]
  constructor
  · intro equal j inside selected
    rw [equal j inside, selected, Bool.and_true]
  · intro agree j inside
    cases selected : bit network.netmask j with
    | true => rw [agree j inside selected, Bool.and_true]
    | false => rw [clear j inside selected, Bool.and_false]

/-- The network is the one its string names: the address in front of the slash, and the netmask
    of the prefix length, of the mask, or of a single address. -/
structure Denotes (inet : InetPton) (str : List UInt8) (network : MuCidr) : Prop where
  address : ∃ bytes, inet.pton network.family (str.takeWhile (· ≠ SLASH)) = some bytes ∧
    ∀ i < network.len, byte network.address i = bytes.getD i 0
  alone : afterSlash str = none → ∀ j < network.len * 8, bit network.netmask j = true
  prefixed : ∀ p, afterSlash str = some p → (strtoul p).2 = [] →
    ∀ j < network.len * 8, bit network.netmask j = decide (j < prefixBits (strtoul p).1)
  masked : ∀ p, afterSlash str = some p → (strtoul p).2 ≠ [] →
    ∃ bytes, inet.pton network.family p = some bytes ∧ ∀ i < network.len, byte network.netmask i = bytes.getD i 0

theorem byte_inaddr {buf : List UInt8} {i : Nat} (bytes : Bytes) (inside : i < buf.length) (small : i < 16) :
    byte (_mu_inaddr_to_bytes buf bytes) i = buf.getD i 0 := by
  rw [byte, _mu_inaddr_to_bytes, Vector.getElem?_ofFn, dif_pos small]
  simp [List.getD_eq_getElem?_getD, List.getElem?_eq_getElem inside]

variable {inet : InetPton}

theorem byte_pton {family : Family} {text buf : List UInt8}
    (read : inet.pton family text = some buf) (bytes : Bytes) :
    ∀ i < family.bytes, byte (_mu_inaddr_to_bytes buf bytes) i = buf.getD i 0 := by
  intro i inside
  have length := inet.length_pton family text buf read
  have bound : i < 16 := Nat.lt_of_lt_of_le inside family.bytes_le
  exact byte_inaddr bytes (by omega) bound

variable {address netmask : Bytes}

theorem netmask_from_string_ok {family : Family} {ipbuf : List UInt8}
    {slash : Option (List UInt8)}
    (done : netmask_from_string inet family address netmask ipbuf slash = .ok network) :
    network.family = family ∧ network.address = address ∧
    (slash = none → masklen_to_netmask netmask (family.bytes * 8) = some network.netmask) ∧
    (∀ p, slash = some p → (strtoul p).2 = [] → masklen_to_netmask netmask (strtoul p).1 = some network.netmask) ∧
    (∀ p, slash = some p → (strtoul p).2 ≠ [] →
      ∃ buf, inet.pton family p = some buf ∧ network.netmask = _mu_inaddr_to_bytes buf netmask) := by
  cases slash with
  | none =>
    unfold netmask_from_string at done
    dsimp only at done
    cases mask : masklen_to_netmask netmask (family.bytes * 8) with
    | none => simp [mask] at done
    | some bytes =>
      simp only [mask, Result.ok.injEq] at done
      subst done
      simp
  | some p =>
    unfold netmask_from_string at done
    dsimp only at done
    by_cases number : (strtoul p).2 = []
    · rw [if_pos number] at done
      cases mask : masklen_to_netmask netmask (strtoul p).1 with
      | none => simp [mask] at done
      | some bytes =>
        simp only [mask, Result.ok.injEq] at done
        subst done
        simp [number, mask]
    · rw [if_neg number] at done
      split at done
      · cases read : inet.pton family p with
        | none => simp [read] at done
        | some buf =>
          simp only [read, Result.ok.injEq] at done
          subst done
          simp [number, read]
      · cases done

theorem from_string_ok {str : List UInt8}
    (accepted : mu_cidr_from_string inet address netmask str = .ok network) :
    ∃ family buf, inet.pton family (str.takeWhile (· ≠ SLASH)) = some buf ∧
      netmask_from_string inet family (_mu_inaddr_to_bytes buf address) netmask (str.takeWhile (· ≠ SLASH))
        (afterSlash str) = .ok network := by
  rw [mu_cidr_from_string] at accepted
  generalize str.takeWhile (· ≠ SLASH) = ipbuf at accepted ⊢
  split at accepted
  · cases accepted
  · split at accepted
    · cases accepted
    · cases known : familyOf ipbuf with
      | none => simp [known] at accepted
      | some family =>
        cases read : inet.pton family ipbuf with
        | none => simp [known, read] at accepted
        | some buf =>
          simp only [known, read] at accepted
          exact ⟨family, buf, read, accepted⟩

theorem from_string_denotes {str : List UInt8}
    (accepted : mu_cidr_from_string inet address netmask str = .ok network) : Denotes inet str network := by
  obtain ⟨family, buf, read, done⟩ := from_string_ok accepted
  obtain ⟨same, addressed, alone, prefixed, masked⟩ := netmask_from_string_ok done
  have len : network.len = family.bytes := by rw [network.len_eq, same]
  have bits : network.len * 8 ≤ 128 := by
    have bytes : family.bytes ≤ 16 := family.bytes_le
    omega
  constructor
  · refine ⟨buf, by rwa [same], ?_⟩
    rw [addressed, len]
    exact byte_pton read address
  · intro no_slash j inside
    rw [bit_masklen (alone no_slash) j (by omega), prefixBits_small (by cases family <;> decide), ← len]
    exact decide_eq_true inside
  · intro p slash number j inside
    exact bit_masklen (prefixed p slash number) j (by omega)
  · intro p slash text
    obtain ⟨mask, pton, set⟩ := masked p slash text
    refine ⟨mask, by rwa [same], ?_⟩
    rw [set, len]
    exact byte_pton pton netmask

/-- The network that was read is the one its string names, and it decides membership exactly when
    the address in the string has no host bits. -/
theorem cidr_match_decides_iff (inet : InetPton) (address₀ netmask₀ : Bytes) (str : List UInt8) (network : MuCidr)
    (accepted : mu_cidr_from_string inet address₀ netmask₀ str = .ok network) :
    Denotes inet str network ∧
    ((∀ address : MuCidr, address.family = network.family →
      (mu_cidr_match network address = 0 ↔ Agree network address)) ↔ NoHostBits network) := by
  refine ⟨from_string_denotes accepted, ?_⟩
  constructor
  · intro decides
    exact noHostBits_of_match_self ((decides network rfl).mpr (agree_refl network))
  · intro clear address family
    exact match_iff_agree clear family

/-- Dotted decimal addresses, the only ones that the two strings below need. -/
def dottedQuads : InetPton where
  pton
    | .AF_INET, text =>
      let parts := text.splitOnP (· = DOT)
      if parts.length = 4 then some (parts.map fun digits => (decimal digits).toUInt8) else none
    | .AF_INET6, _ => none
  length_pton := by
    intro family text bytes read
    cases family with
    | AF_INET =>
      simp only [Option.ite_none_right_eq_some, Option.some.injEq] at read
      rw [← read.2, List.length_map, read.1, Family.bytes]
    | AF_INET6 => cases read

theorem cidr_match_decides_iff_ten : ∃ network,
    mu_cidr_from_string dottedQuads (.replicate 16 0) (.replicate 16 0) (ascii "10.0.0.0/8") = .ok network ∧
    Denotes dottedQuads (ascii "10.0.0.0/8") network ∧
    ((∀ address : MuCidr, address.family = network.family →
      (mu_cidr_match network address = 0 ↔ Agree network address)) ↔ NoHostBits network) := by
  refine ⟨⟨.AF_INET, 4, #v[10, 0, 0, 0, 0, 0, 0, 0, 0, 0, 0, 0, 0, 0, 0, 0],
    #v[255, 0, 0, 0, 0, 0, 0, 0, 0, 0, 0, 0, 0, 0, 0, 0], rfl⟩, by decide, ?_⟩
  exact cidr_match_decides_iff dottedQuads (.replicate 16 0) (.replicate 16 0) _ _ (by decide)

/-- `10.1.2.3/8` does not match its own address. -/
theorem host_bits_match_nothing : ∃ network,
    mu_cidr_from_string dottedQuads (.replicate 16 0) (.replicate 16 0) (ascii "10.1.2.3/8") = .ok network ∧
    Agree network network ∧ mu_cidr_match network network = 1 := by
  refine ⟨⟨.AF_INET, 4, #v[10, 1, 2, 3, 0, 0, 0, 0, 0, 0, 0, 0, 0, 0, 0, 0],
    #v[255, 0, 0, 0, 0, 0, 0, 0, 0, 0, 0, 0, 0, 0, 0, 0], rfl⟩, by decide, agree_refl _, by decide⟩

end Mailutils.Cidr

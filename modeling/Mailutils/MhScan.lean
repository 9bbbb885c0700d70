import Mailutils.Amd
import Mailutils.Text

/-!
Scanning an MH mailbox (`mh_scan0` of `libproto/mh/mh.c`). A file whose name is a number is looked up
in the message array and, if it is not found, put at the end of the array, which is only sorted when
all files were seen. After the first new message the array need not be sorted any more, so the look-up
may miss a message that is there, and it is listed twice (`scan_lists_once`). Whether it does depends on the
numbers at the positions it looks at.
-/
namespace Mailutils.Mh
open Mailutils.Text Mailutils.Amd

/-- `struct _mh_message`, with the attributes that matter. -/
structure Msg where
  seq_number : Nat
  /-- `MU_ATTRIBUTE_DELETED` -/
  deleted : Bool := false
  /-- `MU_ATTRIBUTE_MODIFIED` -/
  modified : Bool := false
  deriving DecidableEq, Repr

/-- The directory, in the order of `readdir`, the message array and the properties. -/
structure Mailbox where
  dir : List (List UInt8)
  msg_array : List Msg := []
  /-- `_MU_AMD_PROP_UIDNEXT` -/
  uidnext : Option Nat := none
  /-- `MU_AMD_F_INIT_SCAN` -/
  init_scan : Bool := false
  /-- `MU_AMD_VOLATILE_UIDNEXT` -/
  volatile_uidnext : Bool := false
  /-- Whether there is an `rmmproc`, so that `delete_msg` is `_mh_msg_delete`. -/
  rmmproc : Bool := false
  deriving DecidableEq, Repr

/-- The number that the name of a file is. -/
def entry_number (d_name : List UInt8) : Option Nat :=
  match d_name.head? with
  | none => none
  | some c => if isdigit c ∧ (strtoul d_name).2 = [] then some (strtoul d_name).1 else none

/-- A message is not scanned as deleted. -/
def Msg.clear_flags (msg : Msg) : Msg := { msg with deleted := false, modified := false }

/-- One number in the loop of `mh_scan0`. -/
def scan_entry (msg_array : List Msg) (num : Nat) : List Msg :=
  match amd_msg_lookup (msg_array.map Msg.seq_number) num with
  | (true, some index) => msg_array.modify (index - 1) Msg.clear_flags
  | _ => msg_array ++ [{ seq_number := num }]

def scan_entries (msg_array : List Msg) (dir : List (List UInt8)) : List Msg :=
  (dir.filterMap entry_number).foldl scan_entry msg_array

/-- `amd_sort`; `qsort` may leave messages of one number in any order. -/
def amd_sort (msg_array : List Msg) : List Msg :=
  msg_array.insertionSort fun a b => a.seq_number ≤ b.seq_number

/-- The largest value that can be read from a property; what is above was negative when it was stored. -/
def OFF_MAX : Nat := 9223372036854775807

/-- `amd_update_uidnext`, as far as the property goes. -/
def amd_update_uidnext (uidnext : Option Nat) (newval : Nat) : Option Nat :=
  let curval := uidnext.getD 1
  if curval > OFF_MAX ∨ newval < curval then uidnext else some newval

def mh_scan0 (mbox : Mailbox) : Mailbox :=
  let msg_array := amd_sort (scan_entries mbox.msg_array mbox.dir)
  let next_uid := ((_amd_get_message msg_array msg_array.length).elim 0 Msg.seq_number + 1) % ulong
  { mbox with msg_array, uidnext := amd_update_uidnext mbox.uidnext next_uid }

def Mailbox.numbers (mbox : Mailbox) : List Nat := mbox.msg_array.map Msg.seq_number

/-- What a number does to those that are there. -/
def scanNumber (numbers : List Nat) (num : Nat) : List Nat :=
  if (amd_msg_lookup numbers num).1 then numbers else numbers ++ [num]

private theorem numbers_modify (msg_array : List Msg) (index : Nat) {f : Msg → Msg}
    (keeps : ∀ msg, (f msg).seq_number = msg.seq_number) :
    (msg_array.modify index f).map Msg.seq_number = msg_array.map Msg.seq_number := by
  apply List.ext_getElem?
  intro i
  rw [List.getElem?_map, List.getElem?_modify, List.getElem?_map]
  cases msg_array[i]? with
  | none => rfl
  | some msg =>
    simp only [Option.map_some, Option.map_eq_map]
    split
    · rw [keeps]
    · rfl

private theorem scan_entry_numbers (msg_array : List Msg) (num : Nat) :
    (scan_entry msg_array num).map Msg.seq_number = scanNumber (msg_array.map Msg.seq_number) num := by
  rw [scan_entry, scanNumber]
  generalize search : amd_msg_lookup (msg_array.map Msg.seq_number) num = result
  rcases result with ⟨_ | _, _ | index⟩
  · rw [if_neg Bool.false_ne_true, List.map_append]
    rfl
  · rw [if_neg Bool.false_ne_true, List.map_append]
    rfl
  · obtain ⟨_, none_, _⟩ := lookup_sound search
    cases none_
  · rw [if_pos rfl]
    exact numbers_modify msg_array _ fun _ => rfl

theorem scan_entries_numbers (msg_array : List Msg) (dir : List (List UInt8)) :
    (scan_entries msg_array dir).map Msg.seq_number =
      (dir.filterMap entry_number).foldl scanNumber (msg_array.map Msg.seq_number) := by
  rw [scan_entries]
  generalize dir.filterMap entry_number = nums
  induction nums generalizing msg_array with
  | nil => rfl
  | cons num nums ih => rw [List.foldl_cons, List.foldl_cons, ih, scan_entry_numbers]

theorem mem_scanNumber (numbers : List Nat) (num : Nat) (n : Nat) :
    n ∈ scanNumber numbers num ↔ n ∈ numbers ∨ n = num := by
  rw [scanNumber]
  split
  next found =>
    obtain ⟨i, _, at_i⟩ := lookup_sound (Prod.ext found rfl)
    exact ⟨.inl, fun either => either.elim id fun same => same ▸ List.mem_of_getElem? at_i⟩
  · rw [List.mem_append, List.mem_singleton]

theorem mem_scanned (nums : List Nat) : ∀ (numbers : List Nat) (n : Nat),
    n ∈ nums.foldl scanNumber numbers ↔ n ∈ numbers ∨ n ∈ nums := by
  induction nums with
  | nil => intro numbers n; simp
  | cons num nums ih =>
    intro numbers n
    rw [List.foldl_cons, ih, mem_scanNumber, List.mem_cons, or_assoc]

/-- A number that is not there comes to the end. -/
def arrive (numbers : List Nat) (num : Nat) : List Nat := if num ∈ numbers then numbers else numbers ++ [num]

/-- Whenever the number of a file is among the old numbers, or those of the files before it, the numbers that a search
    for its position looks at are smaller before it and greater behind it. -/
def Recognised (old nums : List Nat) : Prop :=
  ∀ k (bound : k < nums.length), ∀ i < ((nums.take k).foldl arrive old).length,
    ((nums.take k).foldl arrive old)[i]? = some nums[k] →
      ∀ m ∈ probes ((nums.take k).foldl arrive old).length i, Aside ((nums.take k).foldl arrive old) i nums[k] m

instance (old nums : List Nat) : Decidable (Recognised old nums) :=
  inferInstanceAs (Decidable (∀ k (_ : k < nums.length), _))

theorem recognised_cons (old : List Nat) (num : Nat) (nums : List Nat) : Recognised old (num :: nums) ↔
    (∀ i < old.length, old[i]? = some num → ∀ m ∈ probes old.length i, Aside old i num m) ∧
      Recognised (arrive old num) nums := by
  constructor
  · intro all
    exact ⟨all 0 (Nat.succ_pos _), fun k bound => all (k + 1) (Nat.succ_lt_succ bound)⟩
  · rintro ⟨first, rest⟩ k bound
    cases k with
    | zero => exact first
    | succ k => exact rest k (Nat.lt_of_succ_lt_succ bound)

/-- A number that is there is found exactly if those that are looked at stand on the right sides. -/
theorem found_iff {numbers : List Nat} (nodup : numbers.Nodup) (num : Nat) :
    (num ∈ numbers → (amd_msg_lookup numbers num).1 = true) ↔
      ∀ i < numbers.length, numbers[i]? = some num → ∀ m ∈ probes numbers.length i, Aside numbers i num m := by
  constructor
  · intro found i _ here
    exact (lookup_iff nodup here).mp (found (List.mem_of_getElem? here))
  · intro aside mem
    obtain ⟨i, here⟩ := List.getElem?_of_mem mem
    exact (lookup_iff nodup here).mpr (aside i (List.getElem?_eq_some_iff.mp here).1 here)

theorem scanned_nodup (nums : List Nat) : ∀ numbers : List Nat,
    (nums.foldl scanNumber numbers).Nodup ↔ numbers.Nodup ∧ Recognised numbers nums := by
  induction nums with
  | nil => intro numbers; exact (and_iff_left fun k bound => absurd bound (Nat.not_lt_zero k)).symm
  | cons num nums ih =>
    intro numbers
    rw [List.foldl_cons, ih, recognised_cons, scanNumber, arrive]
    by_cases mem : num ∈ numbers
    · rw [if_pos mem]
      split
      next found =>
        refine and_congr_right fun nodup => ?_
        rw [and_iff_right ((found_iff nodup num).mp fun _ => found)]
      next missed =>
        -- it is put into the array a second time
        constructor
        · rintro ⟨nodup, _⟩
          exact absurd rfl ((List.nodup_append.mp nodup).2.2 num mem num List.mem_cons_self)
        · rintro ⟨nodup, found, _⟩
          exact absurd ((found_iff nodup num).mpr found mem) missed
    · have missed : ¬ (amd_msg_lookup numbers num).1 = true := by
        intro found
        obtain ⟨i, _, at_i⟩ := lookup_sound (Prod.ext found rfl)
        exact mem (List.mem_of_getElem? at_i)
      rw [if_neg mem, if_neg missed, ← List.concat_eq_append, List.nodup_concat, and_iff_right mem]
      refine and_congr_right fun nodup => ?_
      rw [and_iff_right ((found_iff nodup num).mp fun here => absurd here mem)]

/-- A name that is a decimal number. -/
def Decimal (name : List UInt8) : Prop := name ≠ [] ∧ ∀ c ∈ name, isdigit c

instance (name : List UInt8) : Decidable (Decimal name) := inferInstanceAs (Decidable (_ ∧ _))

theorem strtoul_decimal {name : List UInt8} (decimal_ : Decimal name) :
    strtoul name = (if ulong ≤ decimal name then ulong - 1 else decimal name, []) := by
  have read := @convertLu_digits name [] decimal_.1 decimal_.2 (by intro c stop; cases stop)
  rw [List.append_nil] at read
  rw [strtoul, read]
  rfl

theorem entry_number_decimal {name : List UInt8} (decimal_ : Decimal name) :
    entry_number name = some (if ulong ≤ decimal name then ulong - 1 else decimal name) := by
  rw [entry_number]
  obtain ⟨nonempty, digits⟩ := id decimal_
  cases name with
  | nil => exact absurd rfl nonempty
  | cons c cs =>
    rw [List.head?_cons]
    simp only
    rw [strtoul_decimal decimal_, if_pos ⟨digits c List.mem_cons_self, rfl⟩]

theorem entry_number_lt {name : List UInt8} {num : Nat} (number : entry_number name = some num) : num < ulong := by
  rw [entry_number] at number
  split at number
  · cases number
  · split at number
    · rw [← Option.some.inj number]
      exact strtoul_lt _
    · cases number

theorem amd_sort_perm (msg_array : List Msg) : (amd_sort msg_array).Perm msg_array :=
  List.perm_insertionSort _ _

theorem amd_sort_sorted (msg_array : List Msg) :
    ((amd_sort msg_array).map Msg.seq_number).Pairwise (· ≤ ·) := by
  rw [List.pairwise_map]
  have : Std.Total fun a b : Msg => a.seq_number ≤ b.seq_number := ⟨fun a b => le_total a.seq_number b.seq_number⟩
  have : IsTrans Msg fun a b => a.seq_number ≤ b.seq_number := ⟨fun a b c => le_trans⟩
  exact List.pairwise_insertionSort _ msg_array

/-- An array that is sorted is strictly increasing exactly if nothing was in it twice. -/
theorem amd_sort_increasing (msg_array : List Msg) :
    ((amd_sort msg_array).map Msg.seq_number).Pairwise (· < ·) ↔ (msg_array.map Msg.seq_number).Nodup := by
  rw [← ((amd_sort_perm msg_array).map Msg.seq_number).nodup_iff]
  constructor
  · intro increasing
    exact increasing.imp Nat.ne_of_lt
  · intro nodup
    exact ((amd_sort_sorted msg_array).and nodup).imp fun both => lt_of_le_of_ne both.1 both.2

theorem mem_scan0_numbers (mbox : Mailbox) (n : Nat) :
    n ∈ (mh_scan0 mbox).numbers ↔ n ∈ mbox.numbers ∨ n ∈ mbox.dir.filterMap entry_number := by
  rw [← mem_scanned, Mailbox.numbers, Mailbox.numbers, ← scan_entries_numbers]
  exact ((amd_sort_perm _).map Msg.seq_number).mem_iff

theorem scan0_increasing (mbox : Mailbox) :
    (mh_scan0 mbox).numbers.Pairwise (· < ·) ↔
      mbox.numbers.Nodup ∧ Recognised mbox.numbers (mbox.dir.filterMap entry_number) := by
  rw [← scanned_nodup, Mailbox.numbers, Mailbox.numbers, ← scan_entries_numbers]
  exact amd_sort_increasing _

/-- Every number that the name of a file is, is in the array exactly if all of them are numbers
    of the machine. -/
theorem scan0_contains {mbox : Mailbox} (sizes : ∀ n ∈ mbox.numbers, n < ulong) :
    (∀ name ∈ mbox.dir, Decimal name → decimal name ∈ (mh_scan0 mbox).numbers) ↔
      ∀ name ∈ mbox.dir, Decimal name → decimal name < ulong := by
  refine forall₃_congr fun name name_mem decimal_ => ?_
  rw [mem_scan0_numbers]
  constructor
  · rintro (old | new)
    · exact sizes _ old
    · obtain ⟨_, _, number⟩ := List.mem_filterMap.mp new
      exact entry_number_lt number
  · intro small
    refine .inr (List.mem_filterMap.mpr ⟨name, name_mem, ?_⟩)
    rw [entry_number_decimal decimal_, if_neg (Nat.not_le.mpr small)]

/-- After a scan each message is in the array, and only once, exactly if none was there twice, each number
    that is already there is recognised, and no name is too large a number. -/
theorem scan_lists_once (mbox : Mailbox) (sizes : ∀ n ∈ mbox.numbers, n < ulong) :
    ((mh_scan0 mbox).numbers.Pairwise (· < ·) ∧
        ∀ name ∈ mbox.dir, Decimal name → decimal name ∈ (mh_scan0 mbox).numbers) ↔
      mbox.numbers.Nodup ∧ Recognised mbox.numbers (mbox.dir.filterMap entry_number) ∧
        ∀ name ∈ mbox.dir, Decimal name → decimal name < ulong := by
  rw [scan0_increasing, scan0_contains sizes, and_assoc]

/-- The files `3` and `8` were scanned before; `1` is new. -/
def grown (names : List String) : Mailbox :=
  { mh_scan0 { dir := [ascii "3", ascii "8"] } with dir := names.map ascii }

/-- Seen first, it is at the end of the array when `8` is looked up. -/
theorem scan_lists_twice : (mh_scan0 (grown ["1", "8", "3"])).numbers = [1, 3, 8, 8] ∧
    ¬ (mh_scan0 (grown ["1", "8", "3"])).numbers.Pairwise (· < ·) := by
  decide +kernel

/-- Seen last, it does no harm. -/
theorem scan_lists_once_last :
    (∀ n ∈ (grown ["3", "8", "1"]).numbers, n < ulong) ∧ (mh_scan0 (grown ["3", "8", "1"])).numbers.Pairwise (· < ·) ∧
      ∀ name ∈ (grown ["3", "8", "1"]).dir, Decimal name →
        decimal name ∈ (mh_scan0 (grown ["3", "8", "1"])).numbers :=
  ⟨by decide +kernel, (scan_lists_once (grown ["3", "8", "1"]) (by decide +kernel)).mpr (by decide +kernel)⟩

end Mailutils.Mh

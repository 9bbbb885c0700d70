import Mathlib.Data.List.DropRight
import Mathlib.Data.List.TakeDrop

/-!
How `amd_expunge` takes messages out of the message array. Their slots are set to null first and
squeezed out afterwards, one run of null slots after the other from the end of the array; for every
pattern of runs this leaves the other messages in order (`squeeze_eq`). A callback that fails ends
the function at once. If a message was removed before, its slot stays null.
-/
namespace Mailutils.AmdExpunge

variable {M : Type}

/-- The callbacks, by the index of the message they are called for; the result `0` is success. -/
structure Driver where
  delete_msg : Option (Nat → Nat)
  cur_msg_file_name : Nat → Nat
  new_msg_file_name : Nat → Nat

/-- The message array; slots from `msg_count` on are not in use. -/
structure Array (M : Type) where
  msg_array : List (Option M)
  msg_count : Nat

/-- The slots that are in use. -/
def Array.used (array : Array M) : List (Option M) := array.msg_array.take array.msg_count

/-- What the callbacks return for a message that is marked as deleted. Whether the file is then
    renamed or unlinked is not looked at. -/
def remove_msg (driver : Driver) (i : Nat) : Nat :=
  match driver.delete_msg with
  | some delete_msg => delete_msg i
  | none => if driver.cur_msg_file_name i ≠ 0 then driver.cur_msg_file_name i else driver.new_msg_file_name i

/-- The variables of the first loop. -/
structure Loop (M : Type) where
  msg_array : List (Option M)
  last_expunged : Nat := 0
  expcount : Nat := 0

/-- The first loop, over the messages from index `i` on. -/
def expunge_loop (driver : Driver) (deleted : M → Bool) : List M → Nat → Loop M → Nat × Loop M
  | [], _, loop => (0, loop)
  | mhm :: rest, i, loop =>
    if deleted mhm then
      if remove_msg driver i ≠ 0 then (remove_msg driver i, loop)
      else
        expunge_loop driver deleted rest (i + 1)
          { msg_array := loop.msg_array.set i none, last_expunged := i, expcount := loop.expcount + 1 }
    else expunge_loop driver deleted rest (i + 1) loop

/-- `memmove (&array[dst], &array[src], n * sizeof (array[0]))` -/
def memmove {α : Type} (array : List α) (dst src n : Nat) : List α :=
  array.take dst ++ (array.drop src).take n ++ array.drop (dst + n)

/-- `amd_array_shrink`; the sum `index - count + 1` of `size_t`s also holds for `count = index + 1`. -/
def amd_array_shrink (array : Array M) (index count : Nat) : Array M :=
  { msg_array :=
      if array.msg_count - index - 1 ≠ 0 ∧ index < array.msg_count then
        memmove array.msg_array (index + 1 - count) (index + 1) (array.msg_count - index - 1)
      else array.msg_array
    msg_count := array.msg_count - count }

/-- `for (j = 1; j < last_expunged && !array[last_expunged-j-1]; j++);` -/
def null_run (msg_array : List (Option M)) (last_expunged : Nat) : Nat → Nat → Nat
  | 0, j => j
  | fuel + 1, j =>
    if j < last_expunged ∧ (msg_array.getD (last_expunged - j - 1) none).isNone then
      null_run msg_array last_expunged fuel (j + 1)
    else j

/-- `for (; last_expunged > 0 && array[last_expunged - 1]; last_expunged--);` -/
def skip_back (msg_array : List (Option M)) : Nat → Nat
  | 0 => 0
  | last_expunged + 1 =>
    if (msg_array.getD last_expunged none).isSome then skip_back msg_array last_expunged else last_expunged + 1

/-- The loop that squeezes the runs out, with at most so many rounds. -/
def squeeze : Nat → Array M → Nat → Array M
  | 0, array, _ => array
  | fuel + 1, array, last_expunged =>
    let j := null_run array.msg_array last_expunged last_expunged 1
    let array := amd_array_shrink array (last_expunged - 1) j
    let last_expunged := skip_back array.msg_array (last_expunged - j)
    if last_expunged = 0 then array else squeeze fuel array last_expunged

/-- `struct _amd_data`, as far as `amd_expunge` looks at it, with the messages in the array and what
    the first scan of the directory would make of the array. -/
structure Amd (M : Type) where
  messages : List M
  deleted : M → Bool
  driver : Driver
  /-- `MU_AMD_VOLATILE_UIDNEXT` -/
  volatile_uidnext : Bool
  /-- `MU_AMD_F_INIT_SCAN` -/
  init_scan : Bool
  scan : List (Option M) → List (Option M)

/-- What becomes of the array in `amd_set_uidvalidity`. -/
def amd_set_uidvalidity (amd : Amd M) (used : List (Option M)) : List (Option M) :=
  if amd.init_scan then used else amd.scan used

/-- `amd_expunge`: its result and `msg_array[0..msg_count)`. -/
def amd_expunge (amd : Amd M) : Nat × List (Option M) :=
  let msg_count := amd.messages.length
  if msg_count = 0 then (0, [])
  else
    let (rc, loop) := expunge_loop amd.driver amd.deleted amd.messages 0 { msg_array := amd.messages.map some }
    if rc ≠ 0 then (rc, loop.msg_array)
    else if loop.expcount ≠ 0 then
      let last_expunged := loop.last_expunged + 1
      let reset_uidvalidity := amd.volatile_uidnext ∧ last_expunged = msg_count
      let array := squeeze last_expunged { msg_array := loop.msg_array, msg_count } last_expunged
      (0, if reset_uidvalidity then amd_set_uidvalidity amd array.used else array.used)
    else (0, loop.msg_array)

theorem exists_rdropWhile_append {α : Type} (p : α → Bool) (l : List α) :
    ∃ tail, l = l.rdropWhile p ++ tail ∧ ∀ x ∈ tail, p x = true := by
  induction l using List.reverseRecOn with
  | nil => exact ⟨[], rfl, by simp⟩
  | append_singleton l a ih =>
    by_cases holds : p a = true
    · obtain ⟨tail, split, all⟩ := ih
      rw [List.rdropWhile_concat_pos _ _ _ holds]
      refine ⟨tail ++ [a], by rw [← List.append_assoc, ← split], ?_⟩
      intro x member
      rcases List.mem_append.mp member with before | last
      · exact all x before
      · rw [List.mem_singleton.mp last]
        exact holds
    · rw [List.rdropWhile_concat_neg _ _ _ holds]
      exact ⟨[], (List.append_nil _).symm, by simp⟩

private theorem skip_back_eq (front rest : List (Option M)) :
    skip_back (front ++ rest) front.length = (front.rdropWhile Option.isSome).length := by
  induction front using List.reverseRecOn generalizing rest with
  | nil => rfl
  | append_singleton front a ih =>
    have slot : (front ++ [a] ++ rest).getD front.length none = a := by
      simp [List.getD_eq_getElem?_getD]
    rw [List.length_append, List.length_singleton, skip_back, slot]
    by_cases used : a.isSome = true
    · rw [if_pos used, List.rdropWhile_concat_pos _ _ _ used, List.append_assoc, ih]
    · rw [if_neg used, List.rdropWhile_concat_neg _ _ _ used]
      simp

private theorem null_run_eq (nulls rest : List (Option M)) (front : List (Option M)) : ∀ fuel, front.length ≤ fuel →
    null_run (front ++ (nulls ++ rest)) (front ++ nulls).length fuel nulls.length =
      (front ++ nulls).length - (front.rdropWhile Option.isNone).length := by
  induction front using List.reverseRecOn generalizing nulls with
  | nil =>
    intro fuel _
    cases fuel with
    | zero => simp [null_run]
    | succ fuel => simp [null_run]
  | append_singleton front a ih =>
    intro fuel enough
    rw [List.length_append, List.length_singleton] at enough
    cases fuel with
    | zero => omega
    | succ fuel =>
      have slot : (front ++ [a] ++ (nulls ++ rest)).getD ((front ++ [a] ++ nulls).length - nulls.length - 1) none = a := by
        have index : (front ++ [a] ++ nulls).length - nulls.length - 1 = front.length := by
          simp only [List.length_append, List.length_singleton]
          omega
        rw [index]
        simp [List.getD_eq_getElem?_getD]
      have more : nulls.length < (front ++ [a] ++ nulls).length := by
        simp only [List.length_append, List.length_singleton]
        omega
      rw [null_run, slot]
      by_cases null : a.isNone = true
      · have next := ih (a :: nulls) fuel (by omega)
        rw [if_pos ⟨more, null⟩, List.rdropWhile_concat_pos _ _ _ null]
        simpa using next
      · rw [if_neg (fun both => null both.2), List.rdropWhile_concat_neg _ _ _ null]
        simp only [List.length_append, List.length_singleton]
        omega

/-- The array has at least as many slots as are in use. -/
def Array.Room (array : Array M) : Prop := array.msg_count ≤ array.msg_array.length

theorem shrink_used {array : Array M} {front nulls back : List (Option M)}
    (used : array.used = front ++ nulls ++ back) (room : array.Room) (some_ : nulls ≠ []) :
    (amd_array_shrink array ((front ++ nulls).length - 1) nulls.length).used = front ++ back ∧
    (amd_array_shrink array ((front ++ nulls).length - 1) nulls.length).Room := by
  have whole : array.msg_array = front ++ nulls ++ back ++ array.msg_array.drop array.msg_count := by
    rw [← used, Array.used, List.take_append_drop]
  have count : array.msg_count = front.length + nulls.length + back.length := by
    have length := congrArg List.length used
    rw [Array.used, List.length_take, Nat.min_eq_left room] at length
    rw [length, List.length_append, List.length_append]
  have positive : 0 < nulls.length := List.length_pos_iff.mpr some_
  have index : (front ++ nulls).length - 1 + 1 = (front ++ nulls).length := by
    rw [List.length_append]
    omega
  have length : (front ++ nulls).length = front.length + nulls.length := List.length_append
  rw [Array.Room] at room
  by_cases last : back = []
  · -- nothing to move
    have still : ¬ (array.msg_count - ((front ++ nulls).length - 1) - 1 ≠ 0 ∧
        (front ++ nulls).length - 1 < array.msg_count) := by
      rw [last, List.length_nil] at count
      omega
    subst last
    rw [List.length_nil] at count
    simp only [amd_array_shrink, Array.used, Array.Room, if_neg still]
    have left : array.msg_count - nulls.length = front.length := by omega
    rw [left, List.append_nil]
    constructor
    · rw [whole, List.append_nil, List.append_assoc]
      exact List.take_left
    · omega
  · have moves : back.length ≠ 0 ∧ (front ++ nulls).length - 1 < array.msg_count := by
      have more : 0 < back.length := List.length_pos_iff.mpr last
      omega
    have size : array.msg_count - ((front ++ nulls).length - 1) - 1 = back.length := by omega
    have dst : (front ++ nulls).length - nulls.length = front.length := by omega
    have left : array.msg_count - nulls.length = (front ++ back).length := by
      rw [List.length_append]
      omega
    have moved : memmove array.msg_array front.length (front ++ nulls).length back.length =
        (front ++ back) ++ array.msg_array.drop (front.length + back.length) := by
      rw [memmove]
      congr 1
      rw [whole, List.append_assoc, List.drop_left, List.take_left, List.append_assoc, List.take_left]
    simp only [amd_array_shrink, Array.used, Array.Room, index, size, dst, left, moved]
    rw [if_pos moves]
    constructor
    · exact List.take_left
    · simp only [List.length_append]
      omega

theorem map_some_of_isSome {l : List (Option M)} (all : ∀ x ∈ l, x.isSome = true) : (l.filterMap id).map some = l := by
  induction l with
  | nil => rfl
  | cons x l ih =>
    obtain ⟨value, rfl⟩ := Option.isSome_iff_exists.mp (all x List.mem_cons_self)
    rw [List.filterMap_cons_some (show id (some value) = some value from rfl), List.map_cons,
      ih fun y member => all y (List.mem_cons_of_mem _ member)]

theorem filterMap_nulls {l : List (Option M)} (all : ∀ x ∈ l, x.isNone = true) : l.filterMap id = [] := by
  rw [List.filterMap_eq_nil_iff]
  intro x member
  exact Option.isNone_iff_eq_none.mp (all x member)

/-- For every pattern of null slots, the last of them at `last_expunged - 1`, the array is squeezed to the
    messages that are left, in order. -/
theorem squeeze_eq (fuel : Nat) : ∀ (array : Array M) (front back : List (Option M)), front.length < fuel →
    array.used = front ++ [none] ++ back → array.Room → (∀ x ∈ back, x.isSome = true) →
    (squeeze fuel array (front.length + 1)).used = (array.used.filterMap id).map some := by
  induction fuel with
  | zero =>
    intro array front back short
    omega
  | succ fuel ih =>
    intro array front back short used room all
    -- the run of null slots that ends at the last one
    obtain ⟨nulls, split, null⟩ := exists_rdropWhile_append Option.isNone front
    generalize kept_eq : front.rdropWhile Option.isNone = kept at split
    have unused (array : Array M) : array.msg_array = array.used ++ array.msg_array.drop array.msg_count := by
      rw [Array.used, List.take_append_drop]
    have run : null_run array.msg_array (front.length + 1) (front.length + 1) 1 = (nulls ++ [none]).length := by
      have counted := null_run_eq [none] (back ++ array.msg_array.drop array.msg_count) front (front.length + 1)
        (Nat.le_succ _)
      rw [unused array, used]
      simp only [List.append_assoc, List.length_append, List.length_singleton, kept_eq] at counted ⊢
      rw [counted, split, List.length_append]
      omega
    have used' : array.used = kept ++ (nulls ++ [none]) ++ back := by
      rw [used, split]
      simp
    have place : (kept ++ (nulls ++ [none])).length = front.length + 1 := by
      rw [split]
      simp [Nat.add_assoc]
    obtain ⟨shrunk, room'⟩ := shrink_used used' room (by simp)
    rw [place] at shrunk room'
    have same : array.used.filterMap id = (kept ++ back).filterMap id := by
      have none_left : (nulls ++ [none]).filterMap id = [] := by
        apply filterMap_nulls
        intro x member
        rcases List.mem_append.mp member with before | last
        · exact null x before
        · rw [List.mem_singleton.mp last]
          rfl
      rw [used', List.filterMap_append, List.filterMap_append, none_left, List.append_nil, List.filterMap_append]
    rw [squeeze, run]
    generalize amd_array_shrink array (front.length + 1 - 1) (nulls ++ [none]).length = array' at shrunk room'
    -- back over the messages in front of the run
    have back_to : front.length + 1 - (nulls ++ [none]).length = kept.length := by
      rw [← place, List.length_append]
      omega
    have skipped : skip_back array'.msg_array kept.length = (kept.rdropWhile Option.isSome).length := by
      rw [unused array', shrunk, List.append_assoc]
      exact skip_back_eq kept _
    obtain ⟨messages, kept_split, present⟩ := exists_rdropWhile_append Option.isSome kept
    have last_null := List.rdropWhile_last_not Option.isSome kept
    generalize kept.rdropWhile Option.isSome = before at kept_split skipped last_null
    have all' : ∀ x ∈ messages ++ back, x.isSome = true := by
      intro x member
      rcases List.mem_append.mp member with here | later
      · exact present x here
      · exact all x later
    rw [back_to, skipped, same, ← shrunk]
    by_cases done : before = []
    · subst done
      rw [List.length_nil, if_pos rfl]
      rw [List.nil_append] at kept_split
      rw [shrunk, kept_split, map_some_of_isSome all']
    · obtain ⟨front', last, rfl⟩ : ∃ front' last, before = front' ++ [last] :=
        ⟨_, _, (List.dropLast_append_getLast done).symm⟩
      have null_last : last = none := by
        have not_some := last_null done
        rw [List.getLast_append_singleton] at not_some
        simpa using not_some
      have shorter : front'.length < fuel := by
        rw [split, kept_split] at short
        simp only [List.length_append, List.length_singleton] at short
        omega
      rw [if_neg (by simp), List.length_append, List.length_singleton]
      refine ih array' front' (messages ++ back) shorter ?_ room' all'
      rw [shrunk, kept_split, null_last, List.append_assoc]

section
variable (driver : Driver) (deleted : M → Bool)

/-- The loop passes the message at this index, removing it if it is marked. -/
def passes (p : M × Nat) : Bool := !deleted p.1 || remove_msg driver p.2 == 0

/-- The slot of a message that the loop has passed. -/
def slot (p : M × Nat) : Option M := if deleted p.1 then none else some p.1

/-- What the variables of the loop say about the slots it has passed. -/
def Marked (loop : Loop M) (passed : List (Option M)) : Prop :=
  loop.expcount = 0 ∧ (∀ x ∈ passed, x.isSome = true) ∨
  loop.expcount ≠ 0 ∧ ∃ front back, passed = front ++ [none] ++ back ∧ front.length = loop.last_expunged ∧
    ∀ x ∈ back, x.isSome = true

variable {driver deleted}

theorem Marked.kept {loop : Loop M} {passed : List (Option M)} (marked : Marked loop passed) (mhm : M) :
    Marked loop (passed ++ [some mhm]) := by
  rcases marked with ⟨none_, all⟩ | ⟨some_, front, back, split, last, all⟩
  · refine .inl ⟨none_, ?_⟩
    intro x member
    rcases List.mem_append.mp member with before | here
    · exact all x before
    · rw [List.mem_singleton.mp here]
      rfl
  · refine .inr ⟨some_, front, back ++ [some mhm], by rw [split, List.append_assoc], last, ?_⟩
    intro x member
    rcases List.mem_append.mp member with before | here
    · exact all x before
    · rw [List.mem_singleton.mp here]
      rfl

theorem expunge_loop_spec (rest : List M) : ∀ (passed : List (Option M)) (loop : Loop M),
    loop.msg_array = passed ++ rest.map some → Marked loop passed →
    let result := expunge_loop driver deleted rest passed.length loop
    let before := (rest.zipIdx passed.length).takeWhile (passes driver deleted)
    let after := (rest.zipIdx passed.length).dropWhile (passes driver deleted)
    result.2.msg_array = passed ++ before.map (slot deleted) ++ (after.map Prod.fst).map some ∧
    Marked result.2 (passed ++ before.map (slot deleted)) ∧ (result.1 = 0 ↔ after = []) := by
  induction rest with
  | nil =>
    intro passed loop array marked
    simpa [expunge_loop] using ⟨by simpa using array, marked⟩
  | cons mhm rest ih =>
    intro passed loop array marked
    rw [List.zipIdx_cons]
    dsimp only
    by_cases marked_deleted : deleted mhm = true
    · by_cases fail : remove_msg driver passed.length ≠ 0
      · -- the loop ends here
        have stop : ¬ passes driver deleted (mhm, passed.length) = true := by simp [passes, marked_deleted, fail]
        rw [expunge_loop, if_pos marked_deleted, if_pos fail, List.takeWhile_cons_of_neg stop,
          List.dropWhile_cons_of_neg stop]
        refine ⟨?_, by simpa using marked, by simp [fail]⟩
        simp [array]
      · have go : passes driver deleted (mhm, passed.length) = true := by simpa [passes, marked_deleted] using fail
        rw [expunge_loop, if_pos marked_deleted, if_neg fail, List.takeWhile_cons_of_pos go,
          List.dropWhile_cons_of_pos go]
        have next := ih (passed ++ [none]) ⟨loop.msg_array.set passed.length none, passed.length, loop.expcount + 1⟩
          (by rw [array]; simp) (.inr ⟨Nat.succ_ne_zero _, passed, [], by simp, rfl, by simp⟩)
        simpa [slot, marked_deleted] using next
    · have go : passes driver deleted (mhm, passed.length) = true := by simp [passes, marked_deleted]
      rw [expunge_loop, if_neg marked_deleted, List.takeWhile_cons_of_pos go, List.dropWhile_cons_of_pos go]
      have next := ih (passed ++ [some mhm]) loop (by rw [array]; simp) (marked.kept mhm)
      simpa [slot, marked_deleted] using next

end

namespace Amd
variable (amd : Amd M)

/-- The messages that the loop passes, with their indices. -/
def passed : List (M × Nat) := amd.messages.zipIdx.takeWhile (passes amd.driver amd.deleted)

/-- The message at which a callback fails, and those behind it. -/
def left : List (M × Nat) := amd.messages.zipIdx.dropWhile (passes amd.driver amd.deleted)

/-- The messages that are not marked as deleted. -/
def kept : List M := amd.messages.filter fun mhm => !amd.deleted mhm

/-- The former array without the messages whose removal was carried out. -/
def expected : List M := (amd.passed.filter fun p => !amd.deleted p.1).map Prod.fst ++ amd.left.map Prod.fst

/-- The array has no null slot and is what it should be. -/
def Usable : Prop := (amd_expunge amd).2 = amd.expected.map some

/-- The array is scanned once more in the end: the last message was removed, the next UID is to be set back,
    and the directory was not scanned for it before. -/
def Rescans : Prop :=
  amd.volatile_uidnext = true ∧ amd.messages.getLast?.any amd.deleted = true ∧ amd.init_scan = false

end Amd

theorem filterMap_slot (deleted : M → Bool) (l : List (M × Nat)) :
    (l.map (slot deleted)).filterMap id = (l.filter fun p => !deleted p.1).map Prod.fst := by
  induction l with
  | nil => rfl
  | cons p l ih =>
    by_cases marked : deleted p.1 = true
    · simp [slot, marked, ← ih]
    · simp [slot, marked, ← ih]

theorem passed_of_all {amd : Amd M} (all : amd.left = []) : amd.passed = amd.messages.zipIdx := by
  have parts := @List.takeWhile_append_dropWhile _ (passes amd.driver amd.deleted) amd.messages.zipIdx
  rw [← Amd.left, all, List.append_nil] at parts
  exact parts

theorem slots_of_all {amd : Amd M} (all : amd.left = []) :
    amd.passed.map (slot amd.deleted) = amd.messages.map fun mhm => slot amd.deleted (mhm, 0) := by
  have mapped : (amd.messages.zipIdx.map Prod.fst).map (fun mhm => slot amd.deleted (mhm, 0)) =
      amd.messages.zipIdx.map (slot amd.deleted) := List.map_map
  rw [passed_of_all all, ← mapped, List.zipIdx_map_fst]

theorem expected_of_all {amd : Amd M} (all : amd.left = []) : amd.expected = amd.kept := by
  have filtered : (amd.messages.zipIdx.map Prod.fst).filter (fun mhm => !amd.deleted mhm) =
      (amd.messages.zipIdx.filter fun p => !amd.deleted p.1).map Prod.fst := List.filter_map
  rw [List.zipIdx_map_fst] at filtered
  rw [Amd.expected, all, passed_of_all all, List.map_nil, List.append_nil, Amd.kept, filtered]

theorem failed_usable_iff (amd : Amd M) :
    amd.passed.map (slot amd.deleted) ++ (amd.left.map Prod.fst).map some = amd.expected.map some ↔
      ∀ p ∈ amd.passed, amd.deleted p.1 = false := by
  rw [Amd.expected, List.map_append, List.append_cancel_right_eq, ← filterMap_slot]
  constructor
  · intro same p member
    have slot_mem : slot amd.deleted p ∈ amd.passed.map (slot amd.deleted) := List.mem_map_of_mem member
    rw [same, List.mem_map] at slot_mem
    obtain ⟨mhm, -, present⟩ := slot_mem
    by_contra marked
    rw [Bool.not_eq_false] at marked
    rw [slot, if_pos marked] at present
    cases present
  · intro none_
    refine (map_some_of_isSome ?_).symm
    intro x member
    obtain ⟨p, passed, rfl⟩ := List.mem_map.mp member
    rw [slot, none_ p passed]
    rfl

theorem last_expunged_iff {amd : Amd M} {front back : List (Option M)} (all : amd.left = [])
    (split : amd.passed.map (slot amd.deleted) = front ++ [none] ++ back) (present : ∀ x ∈ back, x.isSome = true) :
    front.length + 1 = amd.messages.length ↔ amd.messages.getLast?.any amd.deleted = true := by
  rw [slots_of_all all] at split
  have length := congrArg List.length split
  rw [List.length_map, List.length_append, List.length_append, List.length_singleton] at length
  have last := congrArg List.getLast? split
  rw [List.getLast?_map] at last
  cases back using List.reverseRecOn with
  | nil =>
    rw [List.append_nil, List.getLast?_concat] at last
    obtain ⟨mhm, is_last, null⟩ := Option.map_eq_some_iff.mp last
    rw [is_last]
    have marked : amd.deleted mhm = true := by simpa [slot] using null
    simp [marked, length]
  | append_singleton back x =>
    rw [← List.append_assoc, List.getLast?_concat] at last
    obtain ⟨mhm, is_last, rfl⟩ := Option.map_eq_some_iff.mp last
    rw [is_last]
    have some_ := present _ (List.mem_append_right _ (List.mem_singleton_self _))
    have kept : amd.deleted mhm = false := by simpa [slot] using some_
    simp [kept, length]

/-- The array is left usable exactly if no callback fails after a message was removed, and a scan that follows
    the removal of the last message changes nothing. -/
theorem expunge_usable_iff (amd : Amd M) :
    amd.Usable ↔ (amd.left ≠ [] → ∀ p ∈ amd.passed, amd.deleted p.1 = false) ∧
      (amd.left = [] → amd.Rescans → amd.scan (amd.kept.map some) = amd.kept.map some) := by
  by_cases empty : amd.messages.length = 0
  · -- nothing to do
    have none_ : amd.messages = [] := List.length_eq_zero_iff.mp empty
    have no_left : amd.left = [] := by rw [Amd.left, none_]; rfl
    have no_kept : amd.kept = [] := by rw [Amd.kept, none_]; rfl
    rw [Amd.Usable, amd_expunge, expected_of_all no_left, no_kept]
    simp [no_left, Amd.Rescans, none_]
  · obtain ⟨array, marked, ended⟩ := @expunge_loop_spec M amd.driver amd.deleted amd.messages []
      { msg_array := amd.messages.map some } rfl (.inl ⟨rfl, by simp⟩)
    rw [List.nil_append, List.length_nil] at marked
    rw [List.nil_append, List.length_nil] at array
    rw [List.length_nil] at ended
    change _ ↔ amd.left = [] at ended
    change _ = amd.passed.map (slot amd.deleted) ++ (amd.left.map Prod.fst).map some at array
    change Marked _ (amd.passed.map (slot amd.deleted)) at marked
    rw [Amd.Usable, amd_expunge]
    dsimp only
    rw [if_neg empty]
    generalize expunge_loop amd.driver amd.deleted amd.messages 0 _ = result at array marked ended
    obtain ⟨rc, loop⟩ := result
    dsimp only at array marked ended ⊢
    by_cases failed : rc ≠ 0
    · have some_left : amd.left ≠ [] := fun none_ => failed (ended.mpr none_)
      rw [if_pos failed, array, failed_usable_iff]
      simp [some_left]
    · have all : amd.left = [] := ended.mp (not_not.mp failed)
      have kept : (amd.passed.map (slot amd.deleted)).filterMap id = amd.kept := by
        rw [filterMap_slot, ← expected_of_all all, Amd.expected, all, List.map_nil, List.append_nil]
      rw [if_neg failed, expected_of_all all]
      rw [all, List.map_nil, List.map_nil, List.append_nil] at array
      simp only [all, ne_eq, not_true_eq_false, false_implies, true_and, true_implies]
      rcases marked with ⟨none_, present⟩ | ⟨some_, front, back, split, last, present⟩
      · -- no message was removed
        have same : loop.msg_array = amd.kept.map some := by rw [array, ← kept, map_some_of_isSome present]
        have no_rescan : ¬ amd.Rescans := by
          rintro ⟨-, marked_last, -⟩
          cases is_last : amd.messages.getLast? with
          | none =>
            rw [is_last] at marked_last
            cases marked_last
          | some mhm =>
            have marked : amd.deleted mhm = true := by simpa [is_last] using marked_last
            have here := present (slot amd.deleted (mhm, 0)) (by
              rw [slots_of_all all]
              exact List.mem_map_of_mem (List.mem_of_getLast? is_last))
            simp [slot, marked] at here
        rw [if_neg (not_not.mpr none_)]
        simp [same, no_rescan]
      · have length : amd.messages.length = loop.msg_array.length := by
          rw [array, passed_of_all all]
          simp
        have used : Array.used ⟨loop.msg_array, amd.messages.length⟩ = front ++ [none] ++ back := by
          rw [Array.used, length, List.take_length, array, split]
        have squeezed := squeeze_eq (front.length + 1) ⟨loop.msg_array, amd.messages.length⟩ front back
          (Nat.lt_succ_self _) used (Nat.le_of_eq length) present
        rw [used, ← split, kept, last] at squeezed
        have reset : amd.volatile_uidnext = true ∧ loop.last_expunged + 1 = amd.messages.length ↔
            amd.volatile_uidnext = true ∧ amd.messages.getLast?.any amd.deleted = true := by
          rw [← last, last_expunged_iff all split present]
        rw [if_pos some_, squeezed, if_congr reset rfl rfl]
        by_cases rescans : amd.Rescans
        · obtain ⟨volatile, marked, no_scan⟩ := rescans
          simp [volatile, marked, no_scan, amd_set_uidvalidity, Amd.Rescans]
        · simp only [rescans, false_implies, iff_true]
          split
          next cond =>
            have scanned : amd.init_scan = true := by
              by_contra no_scan
              exact rescans ⟨cond.1, cond.2, by simpa using no_scan⟩
            simp [amd_set_uidvalidity, scanned]
          next => rfl

/-- Two messages are marked, and the callback fails at the second. -/
def failing : Amd Nat where
  messages := [10, 20]
  deleted := fun _ => true
  driver := { delete_msg := some id, cur_msg_file_name := fun _ => 0, new_msg_file_name := fun _ => 0 }
  volatile_uidnext := false
  init_scan := true
  scan := id

theorem failed_expunge_leaves_null : amd_expunge failing = (1, [none, some 20]) ∧ ¬ failing.Usable := by
  have run : amd_expunge failing = (1, [none, some 20]) := by decide
  refine ⟨run, ?_⟩
  rw [Amd.Usable, run]
  decide

end Mailutils.AmdExpunge

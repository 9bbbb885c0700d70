import Mathlib.Data.List.Sort
import Mathlib.Order.Defs.LinearOrder

/-!
The message array of a mailbox that is a directory (`libmailutils/base/amd.c`). Messages are found in it by a binary
search, after a look at its first and its last element. The search may miss a message in an array that is not sorted,
but it does not find one that is not there (`lookup_sound`), and finds one that is there if the elements it looks at
stand on the right sides (`lookup_iff`); in a sorted array it finds the place of every message (`lookup_place`).
New messages are put at their places, so that the array stays sorted (`amd_array_sorted`).
-/
namespace Mailutils.Amd

variable {K : Type} [LinearOrder K]

/-- `amd_msg_bsearch` between `first` and, not included, `stop`, with what was stored at `pret`. -/
def amd_msg_bsearch (array : List K) (msg : K) : Nat → Nat → Nat → Option Nat → Bool × Option Nat
  | 0, _, _, pret => (false, pret)
  | fuel + 1, first, stop, pret =>
    if first < stop then
      let mid := (first + (stop - 1)) / 2
      match array[mid]? with
      | none => (false, pret)
      | some found =>
        if msg < found then amd_msg_bsearch array msg fuel first mid pret
        else if found < msg then amd_msg_bsearch array msg fuel (mid + 1) stop (some mid)
        else (true, some mid)
    else (false, pret)

/-- `amd_msg_lookup`: whether it was found, and the number of the message, or of the one after which
    it belongs. -/
def amd_msg_lookup (array : List K) (msg : K) : Bool × Option Nat :=
  match array.head?, array.getLast? with
  | some first, some last =>
    if msg < first then (false, some 0)
    else if msg = first then (true, some 1)
    else if last < msg then (false, some array.length)
    else if msg = last then (true, some array.length)
    else
      let (found, i) := amd_msg_bsearch array msg (array.length + 1) 0 array.length none
      (found, i.map (· + 1))
  | _, _ => (false, some 0)

def _amd_get_message {M : Type} (array : List M) (msgno : Nat) : Option M :=
  if msgno = 0 then none else array[msgno - 1]?

theorem bsearch_within {array : List K} {msg : K} : ∀ (fuel first stop : Nat) (pret : Option Nat) {index : Option Nat},
    amd_msg_bsearch array msg fuel first stop pret = (true, index) →
      ∃ i, index = some i ∧ array[i]? = some msg ∧ first ≤ i ∧ i < stop := by
  intro fuel
  induction fuel with
  | zero => intro _ _ _ _ found; cases found
  | succ fuel ih =>
    intro first stop pret index found
    rw [amd_msg_bsearch] at found
    split at found
    · simp only at found
      split at found
      · cases found
      next at_mid =>
        split at found
        · obtain ⟨i, eq, at_i, low, high⟩ := ih _ _ _ found
          exact ⟨i, eq, at_i, low, by omega⟩
        · split at found
          · obtain ⟨i, eq, at_i, low, high⟩ := ih _ _ _ found
            exact ⟨i, eq, at_i, by omega, high⟩
          next not_below not_above =>
            obtain ⟨_, rfl⟩ := Prod.mk.inj found
            exact ⟨_, rfl, by rw [at_mid, le_antisymm (not_lt.mp not_below) (not_lt.mp not_above)], by omega, by omega⟩
    · cases found

theorem lookup_sound {array : List K} {msg : K} {index : Option Nat} (found : amd_msg_lookup array msg = (true, index)) :
    ∃ i, index = some (i + 1) ∧ array[i]? = some msg := by
  rw [amd_msg_lookup] at found
  split at found
  next first last head final =>
    split at found
    · cases found
    · split at found
      next same =>
        obtain ⟨_, rfl⟩ := Prod.mk.inj found
        exact ⟨0, rfl, by rw [← List.head?_eq_getElem?, head, same]⟩
      · split at found
        · cases found
        · split at found
          next same =>
            obtain ⟨_, rfl⟩ := Prod.mk.inj found
            have positive : 0 < array.length := by
              cases array with
              | nil => cases head
              | cons _ _ => exact Nat.succ_pos _
            refine ⟨array.length - 1, by rw [Nat.sub_add_cancel positive], ?_⟩
            rw [← List.getLast?_eq_getElem?, final, same]
          · generalize search : amd_msg_bsearch array msg (array.length + 1) 0 array.length none = result at found
            obtain ⟨yes, place⟩ := result
            obtain ⟨rfl, rfl⟩ := Prod.mk.inj found
            obtain ⟨i, rfl, at_i, -⟩ := bsearch_within _ _ _ _ search
            exact ⟨i, rfl, at_i⟩
  · cases found

/-- The positions that a binary search for the position `i` looks at. -/
def bisect (i : Nat) : Nat → Nat → Nat → List Nat
  | 0, _, _ => []
  | fuel + 1, first, stop =>
    let mid := (first + (stop - 1)) / 2
    if i < mid then mid :: bisect i fuel first mid
    else if mid < i then mid :: bisect i fuel (mid + 1) stop
    else [mid]

/-- The positions that `amd_msg_lookup` looks at for what is at the position `i` of `n`. -/
def probes (n i : Nat) : List Nat :=
  if i = 0 then [0] else if i = n - 1 then [0, n - 1] else 0 :: (n - 1) :: bisect i (n + 1) 0 n

/-- What is at a position is on the right side of `msg`, which is at the position `i`. -/
def Aside (array : List K) (i : Nat) (msg : K) (m : Nat) : Prop :=
  ∀ other ∈ array[m]?, (m < i → other < msg) ∧ (i < m → msg < other)

instance (array : List K) (i : Nat) (msg : K) (m : Nat) : Decidable (Aside array i msg m) :=
  inferInstanceAs (Decidable (∀ other ∈ array[m]?, _))

section
variable {array : List K} (nodup : array.Nodup) {i : Nat} {msg : K} (here : array[i]? = some msg)
include nodup here

private theorem bsearch_iff (fuel : Nat) : ∀ (first stop : Nat) (pret : Option Nat), first ≤ i → i < stop →
    stop ≤ array.length → stop < fuel + first →
    ((amd_msg_bsearch array msg fuel first stop pret).1 = true ↔ ∀ m ∈ bisect i fuel first stop, Aside array i msg m) := by
  have only {k : Nat} (there : array[k]? = some msg) : k = i := by
    obtain ⟨lt, _⟩ := List.getElem?_eq_some_iff.mp there
    exact (List.getElem?_inj lt nodup).mp (there.trans here.symm)
  have aside_self : Aside array i msg i := fun _ _ => ⟨fun lt => absurd lt (Nat.lt_irrefl i), fun lt => absurd lt (Nat.lt_irrefl i)⟩
  induction fuel with
  | zero => intro first stop _ low high _ enough; omega
  | succ fuel ih =>
    intro first stop pret low high within enough
    rw [amd_msg_bsearch, if_pos (by omega), bisect]
    dsimp only
    generalize mid_is : (first + (stop - 1)) / 2 = mid
    have mid_lt : mid < array.length := by omega
    have at_mid := List.getElem?_eq_getElem mid_lt
    -- a search that goes to the other side does not find the message
    have missed (first stop : Nat) (pret : Option Nat) (outside : i < first ∨ stop ≤ i) :
        ¬ (amd_msg_bsearch array msg fuel first stop pret).1 = true := by
      intro found
      obtain ⟨k, _, there, low, high⟩ := bsearch_within fuel first stop pret (Prod.ext found rfl)
      have := only there
      omega
    rw [at_mid]
    dsimp only
    rcases Nat.lt_trichotomy i mid with left | rfl | right
    · have aside : Aside array i msg mid ↔ msg < array[mid] := by
        simp [Aside, at_mid, left, Nat.lt_asymm left]
      rw [if_pos left, List.forall_mem_cons, aside]
      by_cases less : msg < array[mid]
      · rw [if_pos less, ih first mid pret low left (by omega) (by omega)]
        simp [less]
      · have other : array[mid] ≠ msg := fun same => by
          have := only (same ▸ at_mid)
          omega
        rw [if_neg less, if_pos (lt_of_le_of_ne (not_lt.mp less) other)]
        exact iff_of_false (missed _ _ _ (by omega)) fun both => less both.1
    · have same : array[i] = msg := by
        rw [at_mid] at here
        exact Option.some.inj here
      rw [if_neg same.not_gt, if_neg same.not_lt, if_neg (Nat.lt_irrefl i), if_neg (Nat.lt_irrefl i)]
      simpa using aside_self
    · have aside : Aside array i msg mid ↔ array[mid] < msg := by
        simp [Aside, at_mid, right, Nat.lt_asymm right]
      rw [if_neg (Nat.lt_asymm right), if_pos right, List.forall_mem_cons, aside]
      by_cases less : array[mid] < msg
      · rw [if_neg (lt_asymm less), if_pos less, ih (mid + 1) stop _ right high within (by omega)]
        simp [less]
      · have other : array[mid] ≠ msg := fun same => by
          have := only (same ▸ at_mid)
          omega
        rw [if_pos (lt_of_le_of_ne (not_lt.mp less) other.symm)]
        exact iff_of_false (missed _ _ _ (by omega)) fun both => less both.1

/-- A message is found exactly if what stands at the positions that are looked at is on its right side. -/
theorem lookup_iff : (amd_msg_lookup array msg).1 = true ↔ ∀ m ∈ probes array.length i, Aside array i msg m := by
  obtain ⟨lt, at_i⟩ := List.getElem?_eq_some_iff.mp here
  have first_lt : 0 < array.length := by omega
  have last_lt : array.length - 1 < array.length := by omega
  have apart {k : Nat} (bound : k < array.length) (other : k ≠ i) : array[k] ≠ msg := fun same =>
    other ((List.getElem?_inj bound nodup).mp ((List.getElem?_eq_getElem bound).trans (same ▸ here.symm)))
  have before {k : Nat} (bound : k < array.length) (less : k < i) : Aside array i msg k ↔ array[k] < msg := by
    simp [Aside, List.getElem?_eq_getElem bound, less, Nat.lt_asymm less]
  have behind {k : Nat} (bound : k < array.length) (less : i < k) : Aside array i msg k ↔ msg < array[k] := by
    simp [Aside, List.getElem?_eq_getElem bound, less, Nat.lt_asymm less]
  have self : Aside array i msg i := by simp [Aside]
  have head : array.head? = some array[0] := by rw [List.head?_eq_getElem?, List.getElem?_eq_getElem]
  have final : array.getLast? = some array[array.length - 1] := by
    rw [List.getLast?_eq_getElem?, List.getElem?_eq_getElem]
  rw [amd_msg_lookup, head, final, probes]
  dsimp only
  by_cases front : i = 0
  · subst front
    simpa [at_i] using self
  · rw [if_neg front]
    rcases lt_or_gt_of_ne (apart first_lt (Ne.symm front)) with above | below
    · rw [if_neg above.not_gt, if_neg above.ne']
      have first := (before first_lt (Nat.pos_of_ne_zero front)).mpr above
      by_cases back : i = array.length - 1
      · have same : array[array.length - 1] = msg := by simpa [← back] using at_i
        rw [if_neg same.not_lt, if_pos same.symm, if_pos back, ← back]
        simpa using ⟨first, self⟩
      · rw [if_neg back, List.forall_mem_cons, List.forall_mem_cons, behind last_lt (by omega)]
        rcases lt_or_gt_of_ne (apart last_lt (Ne.symm back)) with beyond | inner
        · rw [if_pos beyond]
          exact iff_of_false (by simp) fun both => beyond.not_gt both.2.1
        · rw [if_neg inner.not_gt, if_neg inner.ne]
          have search := bsearch_iff nodup here (array.length + 1) 0 array.length none (Nat.zero_le i) lt le_rfl (by omega)
          simpa [first, inner] using search
    · rw [if_pos below]
      refine iff_of_false (by simp) fun all => below.not_gt ((before first_lt (Nat.pos_of_ne_zero front)).mp (all 0 ?_))
      split <;> exact List.mem_cons_self
end

/-- The number of messages before another one in an array. -/
def place (array : List K) (msg : K) : Nat := array.countP (· < msg)

theorem lt_place {array : List K} (sorted : array.Pairwise (· < ·)) (msg : K) :
    ∀ (i : Nat) (bound : i < array.length), array[i] < msg ↔ i < place array msg := by
  induction array with
  | nil => exact fun i bound => absurd bound (Nat.not_lt_zero i)
  | cons k array ih =>
    obtain ⟨first, rest⟩ := List.pairwise_cons.mp sorted
    intro i bound
    by_cases less : k < msg
    · have count : place (k :: array) msg = place array msg + 1 := List.countP_cons_of_pos (by simpa using less)
      rw [count]
      cases i with
      | zero => simp [less]
      | succ i => simpa using ih rest i (Nat.lt_of_succ_lt_succ bound)
    · have count : place (k :: array) msg = 0 := by
        rw [place, List.countP_eq_zero]
        intro other member
        rw [decide_eq_true_eq, not_lt]
        rcases List.mem_cons.mp member with rfl | member
        · exact not_lt.mp less
        · exact (not_lt.mp less).trans (first other member).le
      rw [count]
      refine ⟨fun below => ?_, fun none_before => absurd none_before (Nat.not_lt_zero i)⟩
      cases i with
      | zero => exact absurd below less
      | succ i => exact absurd ((first _ (List.getElem_mem _)).trans below) less

theorem place_le (array : List K) (msg : K) : place array msg ≤ array.length := List.countP_le_length

theorem at_place {array : List K} (sorted : array.Pairwise (· < ·)) {msg : K} {i : Nat} (bound : i < array.length)
    (same : array[i] = msg) : i = place array msg := by
  have not_before : ¬ i < place array msg := fun before => lt_irrefl msg (same ▸ (lt_place sorted msg i bound).mpr before)
  by_contra other
  have earlier : place array msg < i := by omega
  have less := List.pairwise_iff_getElem.mp sorted _ i (by omega) bound earlier
  rw [same, lt_place sorted msg _ (by omega)] at less
  exact lt_irrefl _ less

/-- The place is between `first` and `stop` all the time, and what was stored last is the one before it. -/
theorem bsearch_place {array : List K} (sorted : array.Pairwise (· < ·)) (msg : K) (fuel : Nat) :
    ∀ (first stop : Nat) (pret : Option Nat), first ≤ place array msg → place array msg ≤ stop →
    stop ≤ array.length → (∀ i (bound : i < array.length), stop ≤ i → msg < array[i]) → stop < fuel + first →
    amd_msg_bsearch array msg fuel first stop pret =
      if msg ∈ array then (true, some (place array msg))
      else (false, if first = place array msg then pret else some (place array msg - 1)) := by
  induction fuel with
  | zero =>
    intro first stop _ low high _ _ enough
    omega
  | succ fuel ih =>
    intro first stop pret low high within above enough
    rw [amd_msg_bsearch]
    split
    next more =>
      dsimp only
      generalize mid_is : (first + (stop - 1)) / 2 = mid
      have mid_lt : mid < array.length := by omega
      have order := lt_place sorted msg mid mid_lt
      rw [List.getElem?_eq_getElem mid_lt]
      dsimp only
      rcases lt_trichotomy msg array[mid] with greater | same | less
      · rw [if_pos greater]
        refine ih _ _ _ low ?_ mid_lt.le ?_ (by omega)
        · exact Nat.le_of_not_lt fun before => greater.not_gt (order.mpr before)
        · intro i bound later
          rcases Nat.eq_or_lt_of_le later with rfl | later
          · exact greater
          · exact greater.trans (List.pairwise_iff_getElem.mp sorted mid i mid_lt bound later)
      · rw [if_neg same.not_lt, if_neg same.not_gt, if_pos (same ▸ List.getElem_mem mid_lt),
          at_place sorted mid_lt same.symm]
      · rw [if_neg less.not_gt, if_pos less, ih _ _ _ (order.mp less) high within above (by omega)]
        have before := order.mp less
        rw [if_neg (show first ≠ place array msg by omega)]
        congr 2
        split
        next last => rw [← last, Nat.succ_sub_one]
        next => rfl
    next done =>
      have absent : msg ∉ array := by
        intro member
        obtain ⟨i, bound, same⟩ := List.getElem_of_mem member
        have := at_place sorted bound same
        exact lt_irrefl msg (same ▸ above i bound (by omega))
      rw [if_neg absent, if_pos (show first = place array msg by omega)]

theorem lookup_place {array : List K} (sorted : array.Pairwise (· < ·)) (msg : K) :
    amd_msg_lookup array msg =
      if msg ∈ array then (true, some (place array msg + 1)) else (false, some (place array msg)) := by
  have order := lt_place sorted msg
  have most := place_le array msg
  cases shape : array with
  | nil => rfl
  | cons k rest =>
    rw [← shape]
    have some_there : 0 < array.length := by rw [shape]; exact Nat.succ_pos _
    have head : array.head? = some array[0] := by rw [List.head?_eq_getElem?, List.getElem?_eq_getElem]
    have final : array.getLast? = some array[array.length - 1] := by
      rw [List.getLast?_eq_getElem?, List.getElem?_eq_getElem]
    -- a message that is not at its place is not there
    have absent : (∀ bound : place array msg < array.length, array[place array msg] ≠ msg) → msg ∉ array := by
      intro other member
      obtain ⟨i, bound, same⟩ := List.getElem_of_mem member
      have here := at_place sorted bound same
      subst here
      exact other bound same
    rw [amd_msg_lookup, head, final]
    dsimp only
    rcases lt_trichotomy msg array[0] with below | same | above
    · have zero : place array msg = 0 := by
        have := (order 0 some_there).not.mp below.not_gt
        omega
      rw [if_pos below, if_neg (absent fun _ => by simp only [zero]; exact below.ne'), zero]
    · rw [if_neg same.not_lt, if_pos same, if_pos (same ▸ List.getElem_mem some_there),
        ← at_place sorted some_there same.symm]
    · rw [if_neg above.not_gt, if_neg above.ne']
      have last_lt : array.length - 1 < array.length := by omega
      have last := order _ last_lt
      rcases lt_trichotomy msg array[array.length - 1] with inner | same | beyond
      · rw [if_neg inner.not_gt, if_neg inner.ne, bsearch_place sorted msg _ 0 array.length none (Nat.zero_le _) most le_rfl
          (fun i bound later => by omega) (by omega)]
        have positive := (order 0 some_there).mp above
        split
        next => rfl
        next =>
          rw [if_neg (by omega)]
          simp only [Option.map_some, Prod.mk.injEq, true_and, Option.some.injEq]
          omega
      · rw [if_neg same.not_gt, if_pos same, if_pos (same ▸ List.getElem_mem last_lt),
          ← at_place sorted last_lt same.symm]
        simp only [Prod.mk.injEq, true_and, Option.some.injEq]
        omega
      · have all : place array msg = array.length := by
          have := last.mp beyond
          omega
        rw [if_pos beyond, if_neg (absent fun bound => by omega), all]

/-- `msg_array` with room for `msg_max` messages, of which the first `msg_count` are set. -/
structure MsgArray (K : Type) where
  msg_array : List (Option K) := []
  msg_count : Nat := 0

def AMD_MSG_INC : Nat := 64

/-- The messages that are set. -/
def MsgArray.messages (amd : MsgArray K) : List K := (amd.msg_array.take amd.msg_count).filterMap id

def amd_array_expand (amd : MsgArray K) (index : Nat) : MsgArray K :=
  let cells :=
    if amd.msg_count = amd.msg_array.length then amd.msg_array ++ List.replicate AMD_MSG_INC none else amd.msg_array
  { msg_array :=
      -- `memmove`
      if amd.msg_count > index then
        cells.take (index + 1) ++ (cells.drop index).take (amd.msg_count - index) ++ cells.drop (amd.msg_count + 1)
      else cells
    msg_count := amd.msg_count + 1 }

/-- Whether the message is there, the array, and the index. -/
def _amd_message_lookup_or_insert (amd : MsgArray K) (key : K) : Bool × MsgArray K × Nat :=
  let (found, index) := amd_msg_lookup amd.messages key
  if found then (true, amd, index.getD 0) else (false, amd_array_expand amd (index.getD 0), index.getD 0)

inductive Rc
  | ok | eexist
  deriving DecidableEq, Repr

def _amd_message_insert (amd : MsgArray K) (msg : K) : Rc × MsgArray K :=
  let (found, amd, index) := _amd_message_lookup_or_insert amd msg
  if found then (.eexist, amd) else (.ok, { amd with msg_array := amd.msg_array.set index (some msg) })

/-- A sequence of insertions. -/
def insert_all : List K → MsgArray K → List Rc × MsgArray K
  | [], amd => ([], amd)
  | msg :: msgs, amd =>
    let (rc, amd) := _amd_message_insert amd msg
    let (rcs, amd) := insert_all msgs amd
    (rc :: rcs, amd)

/-- The messages, each in its cell, with cells left. -/
structure Holds (amd : MsgArray K) (msgs : List K) : Prop where
  count : amd.msg_count = msgs.length
  cells : ∃ rest, amd.msg_array = msgs.map some ++ rest

omit [LinearOrder K] in
variable {msgs : List K} {amd : MsgArray K}

theorem Holds.messages (holds : Holds amd msgs) : amd.messages = msgs := by
  obtain ⟨rest, cells⟩ := holds.cells
  rw [MsgArray.messages, cells, holds.count, List.take_left' (by rw [List.length_map]),
    List.filterMap_map]
  exact List.filterMap_some

/-- A cell is set after those from it on have been moved by one, over the first of the rest. -/
theorem move_set {α : Type*} (front back : List α) (x v : α) (rest : List α) :
    (if front.length + back.length > front.length then
        (front ++ back ++ x :: rest).take (front.length + 1) ++
          ((front ++ back ++ x :: rest).drop front.length).take (front.length + back.length - front.length) ++
          (front ++ back ++ x :: rest).drop (front.length + back.length + 1)
      else front ++ back ++ x :: rest).set front.length v = front ++ v :: back ++ rest := by
  cases back with
  | nil => simp
  | cons b back =>
    have dropped : (front ++ b :: back ++ x :: rest).drop (front.length + (b :: back).length + 1) = rest := by
      rw [show front.length + (b :: back).length + 1 = (front ++ b :: back ++ [x]).length by simp; omega,
        show front ++ b :: back ++ x :: rest = front ++ b :: back ++ [x] ++ rest by simp, List.drop_left]
    rw [if_pos (by simp), dropped, List.append_assoc front, List.drop_left, Nat.add_sub_cancel_left, List.take_left,
      List.take_length_add_append, List.cons_append, List.take_succ_cons, List.take_zero]
    simp

/-- The message at its place, between those before it and those after it. -/
def inserted (msgs : List K) (msg : K) : List K := msgs.take (place msgs msg) ++ msg :: msgs.drop (place msgs msg)

private theorem mem_inserted (msgs : List K) (msg k : K) : k ∈ inserted msgs msg ↔ k ∈ msgs ∨ k = msg := by
  rw [inserted, List.mem_append, List.mem_cons, or_left_comm, ← List.mem_append, List.take_append_drop, or_comm]

theorem sorted_inserted (sorted : msgs.Pairwise (· < ·)) {msg : K} (new : msg ∉ msgs) :
    (inserted msgs msg).Pairwise (· < ·) := by
  have before : ∀ k ∈ msgs.take (place msgs msg), k < msg := by
    intro k member
    obtain ⟨i, bound, rfl⟩ := List.getElem_of_mem member
    rw [List.length_take] at bound
    rw [List.getElem_take]
    exact (lt_place sorted msg i (by omega)).mpr (by omega)
  have after : ∀ k ∈ msgs.drop (place msgs msg), msg < k := by
    intro k member
    obtain ⟨i, bound, rfl⟩ := List.getElem_of_mem member
    rw [List.length_drop] at bound
    rw [List.getElem_drop]
    have inside : place msgs msg + i < msgs.length := by omega
    refine lt_of_le_of_ne (not_lt.mp fun less => ?_) fun same => new (same ▸ List.getElem_mem inside)
    have := (lt_place sorted msg _ inside).mp less
    omega
  rw [inserted, List.pairwise_append, List.pairwise_cons]
  refine ⟨sorted.sublist (List.take_sublist ..), ⟨after, sorted.sublist (List.drop_sublist ..)⟩, fun a left b right => ?_⟩
  rcases List.mem_cons.mp right with rfl | right
  · exact before a left
  · exact (before a left).trans (after b right)

theorem holds_insert (holds : Holds amd msgs) (msg : K) :
    Holds { amd_array_expand amd (place msgs msg) with
      msg_array := (amd_array_expand amd (place msgs msg)).msg_array.set (place msgs msg) (some msg) }
      (inserted msgs msg) := by
  obtain ⟨rest, cells⟩ := holds.cells
  have most := place_le msgs msg
  have before : ((msgs.take (place msgs msg)).map some).length = place msgs msg := by
    rw [List.length_map, List.length_take]
    omega
  have after : place msgs msg + ((msgs.drop (place msgs msg)).map some).length = amd.msg_count := by
    rw [List.length_map, List.length_drop, holds.count]
    omega
  have room : ∃ x more, (if amd.msg_count = amd.msg_array.length then
        amd.msg_array ++ List.replicate AMD_MSG_INC none else amd.msg_array) =
      (msgs.take (place msgs msg)).map some ++ (msgs.drop (place msgs msg)).map some ++ x :: more := by
    rw [← List.map_append, List.take_append_drop, cells, holds.count]
    cases rest with
    | nil =>
      rw [List.append_nil, List.length_map, if_pos rfl]
      exact ⟨none, List.replicate 63 none, rfl⟩
    | cons x more =>
      rw [if_neg (by simp)]
      exact ⟨x, more, rfl⟩
  obtain ⟨x, more, room⟩ := room
  refine ⟨?_, more, ?_⟩
  · show amd.msg_count + 1 = _
    rw [inserted, List.length_append, List.length_cons, ← after, List.length_map, List.length_take]
    omega
  · have moved := move_set ((msgs.take (place msgs msg)).map some) ((msgs.drop (place msgs msg)).map some) x (some msg) more
    rw [before, after] at moved
    simp only [amd_array_expand, room, moved, inserted, List.map_append, List.map_cons]

theorem insert_holds (holds : Holds amd msgs) (sorted : msgs.Pairwise (· < ·))
    (msg : K) :
    (_amd_message_insert amd msg).1 = (if msg ∈ msgs then .eexist else .ok) ∧
      Holds (_amd_message_insert amd msg).2 (if msg ∈ msgs then msgs else inserted msgs msg) := by
  unfold _amd_message_insert _amd_message_lookup_or_insert
  rw [holds.messages, lookup_place sorted msg]
  by_cases there : msg ∈ msgs
  · rw [if_pos there, if_pos there, if_pos there]
    exact ⟨rfl, holds⟩
  · rw [if_neg there, if_neg there, if_neg there]
    exact ⟨rfl, holds_insert holds msg⟩

theorem insert_all_holds (msgs : List K) : ∀ (amd : MsgArray K) (old : List K), Holds amd old →
    old.Pairwise (· < ·) →
    (∃ new, Holds (insert_all msgs amd).2 new ∧ new.Pairwise (· < ·) ∧ ∀ k, k ∈ new ↔ k ∈ old ∨ k ∈ msgs) ∧
      ∀ (i : Nat) (bound : i < msgs.length), (insert_all msgs amd).1[i]? =
        some (if msgs[i] ∈ old ∨ msgs[i] ∈ msgs.take i then .eexist else .ok) := by
  induction msgs with
  | nil =>
    intro amd old holds sorted
    exact ⟨⟨old, holds, sorted, fun k => by simp⟩, fun i bound => absurd bound (Nat.not_lt_zero i)⟩
  | cons msg msgs ih =>
    intro amd old holds sorted
    obtain ⟨rc, holds'⟩ := insert_holds holds sorted msg
    have sorted' : (if msg ∈ old then old else inserted old msg).Pairwise (· < ·) := by
      split
      next => exact sorted
      next new => exact sorted_inserted sorted new
    have members : ∀ k, k ∈ (if msg ∈ old then old else inserted old msg) ↔ k ∈ old ∨ k = msg := by
      intro k
      split
      next there => exact ⟨Or.inl, fun either => either.elim id fun same => same ▸ there⟩
      next => exact mem_inserted old msg k
    obtain ⟨⟨new, holds'', sorted'', all⟩, rcs⟩ := ih _ _ holds' sorted'
    refine ⟨⟨new, holds'', sorted'', fun k => ?_⟩, fun i bound => ?_⟩
    · rw [all, members, List.mem_cons, or_assoc]
    · cases i with
      | zero =>
        show some (_amd_message_insert amd msg).1 = _
        rw [rc]
        simp
      | succ i =>
        show (insert_all msgs (_amd_message_insert amd msg).2).1[i]? = _
        rw [rcs i (Nat.lt_of_succ_lt_succ bound)]
        simp only [members, List.getElem_cons_succ, List.take_succ_cons, List.mem_cons, or_assoc]

/-- In a sorted array a message is found with its number, and another one has its place; and a sequence of insertions
    makes the sorted array of the messages, with `EEXIST` for those that had come before. -/
theorem amd_array_sorted {array : List K} (sorted : array.Pairwise (· < ·)) (msg : K) (msgs : List K) :
    ((∀ i (bound : i < array.length), array[i] = msg → amd_msg_lookup array msg = (true, some (i + 1))) ∧
      (msg ∉ array → ∃ slot ≤ array.length, amd_msg_lookup array msg = (false, some slot) ∧
        ∀ i (bound : i < array.length), if i < slot then array[i] < msg else msg < array[i])) ∧
      ((insert_all msgs {}).2.messages.Pairwise (· < ·) ∧
        (∀ k, k ∈ (insert_all msgs {}).2.messages ↔ k ∈ msgs) ∧
        ∀ (i : Nat) (bound : i < msgs.length), (insert_all msgs {}).1[i]? =
          some (if msgs[i] ∈ msgs.take i then .eexist else .ok)) := by
  have spec := lookup_place sorted msg
  have empty : Holds ({} : MsgArray K) [] := ⟨rfl, [], rfl⟩
  obtain ⟨⟨new, holds, sorted', all⟩, rcs⟩ := insert_all_holds msgs {} [] empty List.Pairwise.nil
  refine ⟨⟨fun i bound same => ?_, fun absent => ?_⟩, ?_, fun k => ?_, fun i bound => ?_⟩
  · rw [spec, if_pos (same ▸ List.getElem_mem bound), ← at_place sorted bound same]
  · rw [if_neg absent] at spec
    refine ⟨place array msg, place_le array msg, spec, fun i bound => ?_⟩
    split
    next before => exact (lt_place sorted msg i bound).mpr before
    next after =>
      refine lt_of_le_of_ne (not_lt.mp fun less => ?_) fun same => absent (same ▸ List.getElem_mem bound)
      exact after ((lt_place sorted msg i bound).mp less)
  · rw [holds.messages]
    exact sorted'
  · rw [holds.messages, all]
    simp
  · rw [rcs i bound]
    simp

theorem amd_array_sorted_three :
    (∃ slot ≤ 3, amd_msg_lookup [1, 3, 5] 4 = (false, some slot)) ∧
      (insert_all [3, 1, 3] ({} : MsgArray Nat)).2.messages.Pairwise (· < ·) := by
  obtain ⟨⟨_, belongs⟩, sorted, _⟩ := amd_array_sorted (show [1, 3, 5].Pairwise (· < ·) by decide) 4 [3, 1, 3]
  obtain ⟨slot, bound, found, _⟩ := belongs (by decide)
  exact ⟨⟨slot, bound, found⟩, sorted⟩

end Mailutils.Amd

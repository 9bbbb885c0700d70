import Mailutils.MsgsetAdd
import Mailutils.Subtract
import Mathlib.Data.List.Perm.Subperm

/-!
Counting and visiting the messages of a set (`libmailutils/msgset/count.c`, `foreachnum.c`). Visiting joins the
ranges of the set first, counting does not: it counts a message as often as it has been added. Both agree on sets
whose ranges do not overlap (`count_visits`).
-/
namespace Mailutils.MessageSet
open Mailutils.Subtract

def count_messages (count : Nat) (r : Msgrange) : Nat := size (count + size (r.msg_end + 2 ^ 64 - r.msg_beg + 1))

def mu_msgset_count (mset : Msgset) : Nat := mset.list.foldl count_messages 0

section Visit
variable {σ : Type} (action : σ → Nat → Except Code σ)

/-- `call_action`: a number of another mode is translated first, and left out if there is no such message. -/
def call_action (same : Bool) (translate : Nat → Except Code Nat) (s : σ) (i : Nat) : Except Code σ :=
  if same then action s i
  else
    match translate i with
    | .ok n => action s n
    | .error .MU_ERR_NOENT => .ok s
    | .error rc => .error rc

/-- The loop of `procrange` upwards: `none` when it is not done with so many rounds. -/
def visit_up (fin : Nat) : Nat → Nat → σ → Option (Except Code σ)
  | 0, _, _ => none
  | fuel + 1, i, s =>
    if i ≤ fin then
      match action s i with
      | .ok s => visit_up fin fuel (size (i + 1)) s
      | .error rc => some (.error rc)
    else some (.ok s)

/-- The loop of `procrange` downwards. -/
def visit_down (beg : Nat) : Nat → Nat → σ → Option (Except Code σ)
  | 0, _, _ => none
  | fuel + 1, i, s =>
    if i ≥ beg then
      match action s i with
      | .ok s => visit_down beg fuel (size (i + 2 ^ 64 - 1)) s
      | .error rc => some (.error rc)
    else some (.ok s)

def procrange (backward : Bool) (fuel : Nat) (mp : Msgrange) (s : σ) : Option (Except Code σ) :=
  if backward then visit_down action mp.msg_beg fuel mp.msg_end s else visit_up action mp.msg_end fuel mp.msg_beg s

/-- `mu_list_foreach_dir`, over the list in the order in which it is walked through. -/
def foreach (proc : Msgrange → σ → Option (Except Code σ)) : List Msgrange → σ → Option (Except Code σ)
  | [], s => some (.ok s)
  | r :: rest, s =>
    match proc r s with
    | some (.ok s) => foreach proc rest s
    | other => other

/-- `mu_msgset_foreach_num`; `same` says that it is called in the mode of the set. -/
def mu_msgset_foreach_num (same backward : Bool) (translate : Nat → Except Code Nat) (fuel : Nat) (mset : Msgset)
    (s : σ) : Option (Except Code σ) :=
  let list := (mu_msgset_aggregate mset).list
  foreach (procrange (call_action action same translate) backward fuel) (if backward then list.reverse else list) s

end Visit

/-- An action that notes the number it is called with. -/
def note (visited : List Nat) (n : Nat) : Except Code (List Nat) := .ok (visited ++ [n])

/-- The messages of a range, in order. -/
def messages (r : Msgrange) : List Nat := List.range' r.msg_beg (r.msg_end + 1 - r.msg_beg)

private theorem visit_up_range (fin : Nat) (small : fin + 1 < 2 ^ 64) (k more : Nat) : ∀ i visited, i + k = fin + 1 →
    visit_up note fin (k + 1 + more) i visited = some (.ok (visited ++ List.range' i k)) := by
  induction k with
  | zero =>
    rintro i visited rfl
    rw [Nat.zero_add, Nat.add_comm, visit_up, if_neg (by omega), List.range'_zero, List.append_nil]
  | succ k ih =>
    intro i visited ends
    have next : size (i + 1) = i + 1 := Nat.mod_eq_of_lt (by omega)
    rw [Nat.add_right_comm, visit_up, if_pos (by omega), note]
    simp only [next]
    rw [ih (i + 1) _ (by omega), List.range'_succ, List.append_assoc, List.singleton_append]

private theorem visit_down_range (beg : Nat) (positive : 1 ≤ beg) (k more : Nat) : ∀ i visited, i + 1 = beg + k → i < 2 ^ 64 →
    visit_down note beg (k + 1 + more) i visited = some (.ok (visited ++ (List.range' beg k).reverse)) := by
  induction k with
  | zero =>
    intro i visited ends _
    rw [Nat.zero_add, Nat.add_comm, visit_down, if_neg (by omega), List.range'_zero, List.reverse_nil, List.append_nil]
  | succ k ih =>
    intro i visited ends small
    have next : size (i + 2 ^ 64 - 1) = i - 1 := by
      rw [size, show i + 2 ^ 64 - 1 = i - 1 + 2 ^ 64 by omega, Nat.add_mod_right, Nat.mod_eq_of_lt (by omega)]
    have here : beg + 1 * k = i := by omega
    rw [Nat.add_right_comm, visit_down, if_pos (by omega), note]
    simp only [next]
    rw [ih (i - 1) _ (by omega) (by omega), List.range'_concat, List.reverse_append, here, List.append_assoc]
    rfl

/-- A range with an end, behind which there is another number. -/
def Countable (r : Msgrange) : Prop := Finite r ∧ r.msg_end + 1 < 2 ^ 64

theorem countable_valid {r : Msgrange} (countable : Countable r) : r.Valid ∧ r.msg_end ≠ MU_MSGNO_LAST := by
  obtain ⟨⟨inOrder, positive, small⟩, _⟩ := countable
  have closed : r.msg_end ≠ MU_MSGNO_LAST := Nat.ne_of_gt (Nat.lt_of_lt_of_le positive inOrder)
  exact ⟨⟨positive, .inr inOrder, by omega, small⟩, closed⟩

theorem mem_messages {r : Msgrange} (countable : Countable r) (n : Nat) : n ∈ messages r ↔ r.Has n := by
  rw [has_closed (countable_valid countable).2, messages, List.mem_range'_1]
  have := countable.1.1
  omega

variable {list : List Msgrange}

theorem mem_visits (countable : ∀ r ∈ list, Countable r) (n : Nat) :
    n ∈ list.flatMap messages ↔ Has list n := by
  rw [List.mem_flatMap]
  constructor
  · rintro ⟨r, member, here⟩
    exact ⟨r, member, (mem_messages (countable r member) n).mp here⟩
  · rintro ⟨r, member, has⟩
    exact ⟨r, member, (mem_messages (countable r member) n).mpr has⟩

theorem call_note (translate : Nat → Except Code Nat) : call_action note true translate = note := by
  funext visited n
  rfl

theorem foreach_up (list : List Msgrange) (visited : List Nat) (countable : ∀ r ∈ list, Countable r) :
    foreach (procrange note false (2 ^ 64)) list visited = some (.ok (visited ++ list.flatMap messages)) := by
  induction list generalizing visited with
  | nil => simp [foreach]
  | cons r rest ih =>
    obtain ⟨⟨⟨inOrder, positive, small⟩, last⟩, countable⟩ := List.forall_mem_cons.mp countable
    have visit := visit_up_range r.msg_end last (r.msg_end + 1 - r.msg_beg)
      (2 ^ 64 - (r.msg_end + 1 - r.msg_beg + 1)) r.msg_beg visited (by omega)
    rw [Nat.add_sub_cancel' (by omega)] at visit
    rw [foreach, procrange, if_neg (by simp), visit]
    simp only
    rw [ih _ countable, List.flatMap_cons, List.append_assoc, messages]

theorem foreach_down (list : List Msgrange) (visited : List Nat) (countable : ∀ r ∈ list, Countable r) :
    foreach (procrange note true (2 ^ 64)) list visited =
      some (.ok (visited ++ list.flatMap fun r => (messages r).reverse)) := by
  induction list generalizing visited with
  | nil => simp [foreach]
  | cons r rest ih =>
    obtain ⟨⟨⟨inOrder, positive, small⟩, last⟩, countable⟩ := List.forall_mem_cons.mp countable
    have visit := visit_down_range r.msg_beg positive (r.msg_end + 1 - r.msg_beg)
      (2 ^ 64 - (r.msg_end + 1 - r.msg_beg + 1)) r.msg_end visited (by omega) small
    rw [Nat.add_sub_cancel' (by omega)] at visit
    rw [foreach, procrange, if_pos rfl, visit]
    simp only
    rw [ih _ countable, List.flatMap_cons, List.append_assoc, messages]

theorem visits_increasing (canonical : Canonical list) (countable : ∀ r ∈ list, Countable r) :
    (list.flatMap messages).Pairwise (· < ·) := by
  rw [List.pairwise_flatMap]
  refine ⟨fun r _ => List.pairwise_lt_range' _ Nat.one_pos, ?_⟩
  refine canonical.imp_of_mem ?_
  intro a b memberA memberB apart x inA y inB
  have := (has_closed (countable_valid (countable a memberA)).2 x).mp ((mem_messages (countable a memberA) x).mp inA)
  have := ((mem_messages (countable b memberB) y).mp inB).1
  have := apart.2.2
  omega

/-- No message is in two of the ranges. -/
def Separate (list : List Msgrange) : Prop := list.Pairwise fun a b => ¬ ∃ n, a.Has n ∧ b.Has n

theorem count_run (list : List Msgrange) (countable : ∀ r ∈ list, Countable r) {count : Nat} (small : count < 2 ^ 64) :
    list.foldl count_messages count = size (count + (list.flatMap messages).length) := by
  induction list generalizing count with
  | nil => exact (Nat.mod_eq_of_lt small).symm
  | cons r rest ih =>
    obtain ⟨countableR, countable⟩ := List.forall_mem_cons.mp countable
    have inOrder := countableR.1.1
    have here : size (r.msg_end + 2 ^ 64 - r.msg_beg + 1) = (messages r).length := by
      have small := countableR.2
      rw [messages, List.length_range', size, show r.msg_end + 2 ^ 64 - r.msg_beg + 1 =
        r.msg_end + 1 - r.msg_beg + 2 ^ 64 by omega, Nat.add_mod_right, Nat.mod_eq_of_lt (by omega)]
    have wraps : size (count + (messages r).length) < 2 ^ 64 := Nat.mod_lt _ (by decide)
    rw [List.foldl_cons, count_messages, here, ih countable wraps, List.flatMap_cons, List.length_append, size, size,
      size, Nat.mod_add_mod, Nat.add_assoc]

theorem count_separate (countable : ∀ r ∈ list, Countable r) (separate : Separate list)
    {visited : List Nat} (nodup : visited.Nodup) (same : ∀ n, n ∈ visited ↔ Has list n) :
    list.foldl count_messages 0 = visited.length := by
  have own : (list.flatMap messages).Nodup := by
    rw [List.Nodup, List.pairwise_flatMap]
    refine ⟨fun r _ => List.nodup_range', ?_⟩
    refine separate.imp_of_mem ?_
    rintro a b memberA memberB apart x inA y inB rfl
    exact apart ⟨x, (mem_messages (countable a memberA) x).mp inA, (mem_messages (countable b memberB) x).mp inB⟩
  have perm : (list.flatMap messages).Perm visited :=
    (List.perm_ext_iff_of_nodup own nodup).mpr fun n => (mem_visits countable n).trans (same n).symm
  have bounded : (list.flatMap messages).length ≤ 2 ^ 64 - 1 := by
    have inside : list.flatMap messages ⊆ List.range' 1 (2 ^ 64 - 1) := by
      intro n member
      obtain ⟨r, memberR, has⟩ := (mem_visits countable n).mp member
      have positive := (countable r memberR).1.2.1
      have small := (countable r memberR).2
      have := (has_closed (countable_valid (countable r memberR)).2 n).mp has
      rw [List.mem_range'_1]
      omega
    have fits := (own.subperm inside).length_le
    rwa [List.length_range'] at fits
  rw [count_run list countable (by decide), ← perm.length_eq, Nat.zero_add]
  exact Nat.mod_eq_of_lt (by omega)

theorem separate_of_canonical (canonical : Canonical list) : Separate list :=
  canonical.imp fun {a b} apart both => by
    obtain ⟨n, inA, inB⟩ := both
    have := ((has_closed apart.2.1 n).mp inA).2
    have := apart.2.2
    have := inB.1
    omega

/-- A call that adds a range to a set or takes one out, in some mode. -/
inductive Op
  | add (beg fin mode : Nat)
  | sub (beg fin mode : Nat)

/-- The set after a call. -/
def Op.apply (translate translate' : Nat → Nat → Except Code (Nat × Nat))
    (mset : Msgset) : Op → Msgset
  | .add beg fin mode => (mu_msgset_add_range translate mset beg fin mode).2
  | .sub beg fin mode => (mu_msgset_sub_range translate' mset beg fin mode).2

/-- The ranges are finite; one that is added does not end at the largest number. -/
def Op.Allowed : Op → Prop
  | .add beg fin _ => fin ≠ 0 ∧ beg + 1 < 2 ^ 64 ∧ fin + 1 < 2 ^ 64
  | .sub _ fin _ => fin ≠ 0

/-- The set that calls build, from an empty one. -/
def built (translate translate' : Nat → Nat → Except Code (Nat × Nat))
    (mode : Nat) (ops : List Op) : Msgset :=
  ops.foldl (Op.apply translate translate') ⟨[], false, mode⟩

/-- What holds of such a set. -/
structure Built (mset : Msgset) : Prop where
  countable : ∀ r ∈ mset.list, Countable r
  marked : mset.aggregated = true → Canonical mset.list

variable {mset : Msgset}

theorem Built.joined (built : Built mset) :
    Canonical (mu_msgset_aggregate mset).list ∧ (∀ n, Has (mu_msgset_aggregate mset).list n ↔ Has mset.list n) ∧
      ∀ r ∈ (mu_msgset_aggregate mset).list, Countable r := by
  obtain ⟨canonical, has, valid, closed⟩ := aggregate_finite mset
    (fun r member => (countable_valid (built.countable r member)).1)
    (fun r member => (countable_valid (built.countable r member)).2) built.marked
  refine ⟨canonical, has, fun r member => ?_⟩
  have inOrder := (valid r member).2.1.resolve_left (closed r member)
  -- the last message of a joined range is one of the set
  obtain ⟨r', member', has'⟩ := (has r.msg_end).mp
    ⟨r, member, (has_closed (closed r member) _).mpr ⟨inOrder, Nat.le_refl _⟩⟩
  have countable := built.countable r' member'
  have bound := ((has_closed (countable_valid countable).2 _).mp has').2
  have := countable.2
  exact ⟨⟨inOrder, (valid r member).1, (valid r member).2.2.2⟩, by omega⟩

theorem sub_loop_built (canonical : Canonical list) (countable : ∀ r ∈ list, Countable r)
    {lo hi : Nat} (inOrder : lo ≤ hi) (small : hi + 1 ≠ 2 ^ 64) :
    Canonical (sub_loop lo hi list) ∧ ∀ r ∈ sub_loop lo hi list, Countable r := by
  have finite : ∀ r ∈ list, Finite r := fun r member => (countable r member).1
  have left := sub_front [] canonical finite inOrder fun wraps => absurd wraps small
  rw [sub_loop, ite_self, List.append_nil, List.append_nil] at left
  rw [left]
  refine ⟨remains_canonical canonical finite inOrder, fun s member => ?_⟩
  rcases List.mem_append.mp member with member | member
  · obtain ⟨r, member, piece⟩ := List.mem_filterMap.mp member
    obtain ⟨finiteS, -, ends, -⟩ := below_piece (finite r member) piece
    exact ⟨finiteS, Nat.lt_of_le_of_lt (Nat.succ_le_succ ends) (countable r member).2⟩
  · obtain ⟨r, member, piece⟩ := List.mem_filterMap.mp member
    obtain ⟨finiteS, -, ends, -⟩ := above_piece (finite r member) (upper_above piece).1
    exact ⟨finiteS, ends ▸ (countable r member).2⟩

variable {beg fin : Nat}

theorem sub_finite_built (canonical : Canonical list) (countable : ∀ r ∈ list, Countable r)
    (inOrder : beg ≤ fin) :
    Canonical (sub_finite list beg fin) ∧ ∀ r ∈ sub_finite list beg fin, Countable r := by
  cases shape : list with
  | nil => exact ⟨List.Pairwise.nil, fun r member => absurd member List.not_mem_nil⟩
  | cons first rest =>
    rw [shape] at canonical countable
    have last : rest.getLastD first ∈ first :: rest := by
      rw [List.getLastD_eq_getLast?]
      cases ends : rest.getLast? with
      | none => exact List.mem_cons_self
      | some r => exact List.mem_cons_of_mem _ (List.mem_of_getLast? ends)
    obtain ⟨⟨_, _, _⟩, ends⟩ := countable _ last
    have begins := (countable first List.mem_cons_self).1
    simp only [sub_finite]
    generalize from' : (if beg < first.msg_beg then first.msg_beg else beg) = lo
    split
    · exact ⟨canonical, countable⟩
    rw [if_pos (countable_valid (countable _ last)).2]
    split
    · exact ⟨canonical, countable⟩
    · next reaches =>
      generalize (rest.getLastD first) = r at *
      refine sub_loop_built canonical countable ?_ ?_
      · split <;> split at from' <;> omega
      · split <;> omega

/-- What `_mu_msgset_translate_pair` answers for a range with an end: numbers of messages, in order. -/
def Sane (translate : Nat → Nat → Except Code (Nat × Nat)) : Prop :=
  ∀ beg fin n m, beg ≤ fin → fin ≠ MU_MSGNO_LAST → translate beg fin = .ok (n, m) → 1 ≤ n ∧ n ≤ m ∧ m + 1 < 2 ^ 64

section
variable {translate translate' : Nat → Nat → Except Code (Nat × Nat)}

theorem ordered_ends (beg : Nat) {fin : Nat} (finite : fin ≠ 0) :
    let ends := if fin ≠ 0 ∧ beg > fin then (fin, beg) else (beg, fin)
    ends.1 ≤ ends.2 ∧ ends.2 ≠ MU_MSGNO_LAST ∧ ends.1 = min beg fin ∧ ends.2 = max beg fin := by
  simp only [MU_MSGNO_LAST]
  split
  · dsimp only
    omega
  · dsimp only
    omega

theorem add_built (built : Built mset) (mode : Nat)
    (sane : mode ≠ mset.mode → Sane translate) (allowed : (Op.add beg fin mode).Allowed) :
    Built (mu_msgset_add_range translate mset beg fin mode).2 := by
  have added (n m : Nat) (ok : 1 ≤ n ∧ n ≤ m ∧ m + 1 < 2 ^ 64) :
      Built { mset with list := mset.list ++ [⟨n, m⟩], aggregated := false } := by
    refine ⟨fun r member => ?_, fun marked => absurd marked Bool.false_ne_true⟩
    rcases List.mem_append.mp member with member | same
    · exact built.countable r member
    · rw [List.mem_singleton.mp same]
      exact ⟨⟨ok.2.1, ok.1, by dsimp only; omega⟩, ok.2.2⟩
  obtain ⟨finite, small, small'⟩ := allowed
  unfold mu_msgset_add_range
  split
  · exact built
  · next positive =>
    dsimp only
    have inOrder := ordered_ends beg finite
    generalize (if fin ≠ 0 ∧ beg > fin then (fin, beg) else (beg, fin)) = ends at inOrder ⊢
    split
    · exact built
    · next n m ok =>
      refine added n m ?_
      split at ok
      · next other => exact sane other _ _ n m inOrder.1 inOrder.2.1 ok
      · obtain rfl : ends = (n, m) := Except.ok.inj ok
        obtain ⟨le, last, rfl, rfl⟩ := inOrder
        dsimp only at *
        omega

theorem sub_built (built : Built mset) (mode : Nat)
    (sane : mode ≠ mset.mode → Sane translate') (allowed : (Op.sub beg fin mode).Allowed) :
    Built (mu_msgset_sub_range translate' mset beg fin mode).2 := by
  obtain ⟨canonical, -, countable⟩ := built.joined
  have cut (n m : Nat) (finite : m ≠ MU_MSGNO_LAST) (inOrder : n ≤ m) :
      Built { mu_msgset_aggregate mset with
        list := if m = MU_MSGNO_LAST then sub_msgno_last (mu_msgset_aggregate mset).list n
          else sub_finite (mu_msgset_aggregate mset).list n m } := by
    rw [if_neg finite]
    have left := sub_finite_built canonical countable inOrder
    exact ⟨left.2, fun _ => left.1⟩
  replace allowed : fin ≠ 0 := allowed
  unfold mu_msgset_sub_range
  split
  · exact built
  · dsimp only
    have inOrder := ordered_ends beg allowed
    generalize (if fin ≠ 0 ∧ beg > fin then (fin, beg) else (beg, fin)) = ends at inOrder ⊢
    split
    · exact built
    · exact built
    · next n m ok =>
      split at ok
      · next other =>
        obtain ⟨positive, le, -⟩ := sane other _ _ n m inOrder.1 inOrder.2.1 ok
        exact cut n m (Nat.ne_of_gt (Nat.lt_of_lt_of_le positive le)) le
      · obtain rfl : ends = (n, m) := Except.ok.inj ok
        exact cut n m inOrder.2.1 inOrder.1

theorem run_built (sane : Sane translate) (sane' : Sane translate') (ops : List Op) (allowed : ∀ op ∈ ops, op.Allowed)
    (start : Built mset) : Built (ops.foldl (Op.apply translate translate') mset) := by
  induction ops generalizing mset with
  | nil => exact start
  | cons op ops ih =>
    obtain ⟨allowedOp, allowed⟩ := List.forall_mem_cons.mp allowed
    refine ih allowed ?_
    cases op with
    | add beg fin mode => exact add_built start mode (fun _ => sane) allowedOp
    | sub beg fin mode => exact sub_built start mode (fun _ => sane') allowedOp

end

/-- Counting a set that calls have built agrees with visiting it if its ranges do not overlap. -/
theorem count_visits (translate translate' : Nat → Nat → Except Code (Nat × Nat)) (sane : Sane translate)
    (sane' : Sane translate') (mode : Nat) (ops : List Op) (allowed : ∀ op ∈ ops, op.Allowed)
    (separate : Separate (built translate translate' mode ops).list) (number : Nat → Except Code Nat) :
    ∃ visited : List Nat,
      mu_msgset_foreach_num note true false number (2 ^ 64) (built translate translate' mode ops) [] =
        some (.ok visited) ∧
      mu_msgset_foreach_num note true true number (2 ^ 64) (built translate translate' mode ops) [] =
        some (.ok visited.reverse) ∧
      visited.Pairwise (· < ·) ∧ visited.reverse.Pairwise (· > ·) ∧
      (∀ n, n ∈ visited ↔ Has (built translate translate' mode ops).list n) ∧
      mu_msgset_count (built translate translate' mode ops) = visited.length := by
  have invariant : Built (built translate translate' mode ops) :=
    run_built sane sane' ops allowed ⟨fun r member => absurd member List.not_mem_nil, fun marked => by cases marked⟩
  generalize built translate translate' mode ops = mset at *
  obtain ⟨canonical, has, countable⟩ := invariant.joined
  have increasing := visits_increasing canonical countable
  have same (n : Nat) := (mem_visits countable n).trans (has n)
  refine ⟨(mu_msgset_aggregate mset).list.flatMap messages, ?_, ?_, increasing, List.pairwise_reverse.mpr increasing,
    same, count_separate invariant.countable separate (increasing.imp Nat.ne_of_lt) same⟩
  · rw [mu_msgset_foreach_num, call_note]
    exact foreach_up _ [] countable
  · rw [mu_msgset_foreach_num, call_note, List.reverse_flatMap]
    exact foreach_down _ [] fun r member => countable r (List.mem_reverse.mp member)

theorem count_visits_case : ∃ visited : List Nat,
    mu_msgset_foreach_num note true false .ok (2 ^ 64)
      (built (fun _ _ => .error .failure) (fun _ _ => .error .failure) 0 [.add 3 5 0, .add 9 7 0, .sub 4 4 0]) [] =
        some (.ok visited) ∧ visited.length = 5 := by
  have allowed : ∀ op ∈ [Op.add 3 5 0, .add 9 7 0, .sub 4 4 0], op.Allowed := by
    simp [Op.Allowed]
  obtain ⟨visited, up, -, -, -, -, count⟩ := count_visits (fun _ _ => .error .failure)
    (fun _ _ => .error .failure) (fun _ _ _ _ _ _ ok => by cases ok) (fun _ _ _ _ _ _ ok => by cases ok) 0
    [.add 3 5 0, .add 9 7 0, .sub 4 4 0] allowed (separate_of_canonical (by decide)) .ok
  exact ⟨visited, up, count.symm.trans (by decide)⟩

/-- A message of two ranges is counted twice. -/
theorem count_twice :
    ∃ visited, mu_msgset_foreach_num note true false .ok 5
        (built (fun _ _ => .error .failure) (fun _ _ => .error .failure) 0 [.add 1 2 0, .add 2 3 0]) [] =
          some (.ok visited) ∧
      mu_msgset_count (built (fun _ _ => .error .failure) (fun _ _ => .error .failure) 0 [.add 1 2 0, .add 2 3 0]) = 4 ∧
      visited.length = 3 :=
  ⟨[1, 2, 3], by decide, by decide, rfl⟩

end Mailutils.MessageSet

import Mailutils.MsgsetCount
import Mailutils.MsgsetPrint

/-!
Runs of calls on message sets, and adding one set to another (`libmailutils/msgset/addset.c`). A range that is taken out
of a set can take a message with it that should stay. Over a whole run nothing else goes wrong: no message is left that
should not be, and each one that is lost comes directly behind a range that was taken out (`run_between`). Which of two
sets is added to the other makes no difference (`add_commutes`).
-/
namespace Mailutils.MessageSet
open Mailutils.Subtract

/-- `add_range` for the ranges of a list, until it fails. -/
def add_ranges (translate : Nat → Nat → Except Code (Nat × Nat)) (mode : Nat) : List Msgrange → Msgset → Code × Msgset
  | [], dest => (.ok, dest)
  | r :: ranges, dest =>
    match mu_msgset_add_range translate dest r.msg_beg r.msg_end mode with
    | (.ok, dest) => add_ranges translate mode ranges dest
    | failed => failed

/-- The sets are two objects. -/
def mu_msgset_add (translate : Nat → Nat → Except Code (Nat × Nat)) (a b : Msgset) : Code × Msgset :=
  add_ranges translate b.mode b.list a

/-- The messages that a call should leave, if one that removes a range takes `past` messages behind it as well. -/
def Op.leaves (past : Nat) (members : Nat → Prop) : Op → Nat → Prop
  | .add beg fin _, n => members n ∨ min beg fin ≤ n ∧ n ≤ max beg fin
  | .sub beg fin _, n => members n ∧ ¬ (min beg fin ≤ n ∧ n ≤ max beg fin + past)

def should (past : Nat) (ops : List Op) : Nat → Prop := ops.foldl (Op.leaves past) fun _ => False

/-- A call in the mode of the set, for a range of messages. -/
def Op.Plain (mode : Nat) : Op → Prop
  | .add beg _ mode' => 1 ≤ beg ∧ mode' = mode
  | .sub beg fin mode' => 1 ≤ beg ∧ beg + 1 < 2 ^ 64 ∧ fin + 1 < 2 ^ 64 ∧ mode' = mode

/-- What a removal may leave. -/
def Removed (lo hi : Nat) (list list' : List Msgrange) : Prop :=
  (∀ n, Has list' n → Has list n ∧ ¬ (lo ≤ n ∧ n ≤ hi)) ∧ ∀ n, Has list n → ¬ (lo ≤ n ∧ n ≤ hi + 1) → Has list' n

section
variable {list : List Msgrange} {lo hi : Nat}

private theorem sub_loop_removed (canonical : Canonical list) (finite : ∀ r ∈ list, Finite r) (inOrder : lo ≤ hi)
    (small : hi + 1 < 2 ^ 64) : Removed lo hi list (sub_loop lo hi list) := by
  have left := sub_front [] canonical finite inOrder fun wraps => absurd wraps (Nat.ne_of_lt small)
  rw [sub_loop, ite_self, List.append_nil, List.append_nil] at left
  rw [left]
  constructor
  · intro n has
    rcases (has_append _ _ n).mp has with has | has
    · obtain ⟨has, less⟩ := (has_below finite n).mp has
      exact ⟨has, by omega⟩
    · obtain ⟨r, member, -, has, more⟩ := (has_upper finite n).mp has
      exact ⟨⟨r, member, has⟩, by omega⟩
  · intro n has other
    rw [has_append, has_below finite, has_upper finite]
    by_cases less : n < lo
    · exact .inl ⟨has, less⟩
    · obtain ⟨r, member, has⟩ := has
      -- of a range that is lost, one message would be left
      have within := ((has_finite (finite r member) n).mp has).2
      refine .inr ⟨r, member, fun lost => ?_, has, by omega⟩
      have := lost.2.2
      omega

theorem ends_bound (canonical : Canonical list) (finite : ∀ r ∈ list, Finite r) {first last : Msgrange}
    (head : list.head? = some first) (tail : list.getLast? = some last) {n : Nat} (has : Has list n) :
    first.msg_beg ≤ n ∧ n ≤ last.msg_end := by
  obtain ⟨r, member, has⟩ := has
  obtain ⟨above, below⟩ := (has_finite (finite r member) n).mp has
  refine ⟨Nat.le_trans ?_ above, Nat.le_trans below (ends_le_last canonical finite tail r member)⟩
  obtain ⟨rest, rfl⟩ := List.head?_eq_some_iff.mp head
  rcases List.mem_cons.mp member with rfl | member
  · exact Nat.le_refl _
  · exact Nat.le_of_lt ((List.pairwise_cons.mp canonical).1 r member).1

theorem sub_finite_removed (canonical : Canonical list) (finite : ∀ r ∈ list, Finite r) (inOrder : lo ≤ hi)
    (small : hi + 1 < 2 ^ 64) : Removed lo hi list (sub_finite list lo hi) := by
  cases shape : list with
  | nil => exact ⟨fun n has => absurd has (not_has_nil n), fun n has => absurd has (not_has_nil n)⟩
  | cons first rest =>
    have tail : list.getLast? = some (rest.getLastD first) := by
      rw [shape, List.getLast?_cons, List.getLastD_eq_getLast?]
    have bound {n : Nat} (has : Has list n) := ends_bound canonical finite (by rw [shape]; rfl) tail has
    have closed := finite_closed (finite _ (List.mem_of_getLast? tail))
    have same (outside : ∀ n, Has list n → ¬ (lo ≤ n ∧ n ≤ hi)) : Removed lo hi list list :=
      ⟨fun n has => ⟨has, outside n has⟩, fun n has _ => has⟩
    simp only [sub_finite, ← shape, if_pos closed]
    split
    · exact same fun n has => by have := bound has; omega
    generalize from' : (if lo < first.msg_beg then first.msg_beg else lo) = lo'
    generalize to' : (if hi > (rest.getLastD first).msg_end then (rest.getLastD first).msg_end else hi) = hi'
    split
    · exact same fun n has => by have := bound has; split at from' <;> omega
    · have walk : Removed lo' hi' list (sub_loop lo' hi' list) := sub_loop_removed canonical finite
        (by split at from' <;> split at to' <;> omega) (by split at to' <;> omega)
      refine ⟨fun n has => ?_, fun n has other => ?_⟩
      · obtain ⟨has, outside⟩ := walk.1 n has
        have := bound has
        exact ⟨has, by split at from' <;> split at to' <;> omega⟩
      · have := bound has
        exact walk.2 n has (by split at from' <;> split at to' <;> omega)
end

section
variable {translate translate' : Nat → Nat → Except Code (Nat × Nat)}

/-- A call in the mode of the set asks the mailbox for nothing. -/
theorem plain_built {mset : Msgset} (start : Built mset) {op : Op} (allowed : op.Allowed) (plain : op.Plain mset.mode) :
    Built (op.apply translate translate' mset) := by
  cases op with
  | add beg fin mode => exact add_built start mode (fun other => absurd plain.2 other) allowed
  | sub beg fin mode => exact sub_built start mode (fun other => absurd plain.2.2.2 other) allowed

theorem leaves_step {mset : Msgset} (start : Built mset) {op : Op} (allowed : op.Allowed) (plain : op.Plain mset.mode)
    {least most : Nat → Prop} (low : ∀ n, least n → Has mset.list n) (high : ∀ n, Has mset.list n → most n) :
    (op.apply translate translate' mset).mode = mset.mode ∧
      (∀ n, op.leaves 1 least n → Has (op.apply translate translate' mset).list n) ∧
      ∀ n, Has (op.apply translate translate' mset).list n → op.leaves 0 most n := by
  cases op with
  | add beg fin mode =>
    obtain ⟨positive, rfl⟩ := plain
    have has (n : Nat) : Has (mset.list ++ [ordered beg fin]) n ↔
        Has mset.list n ∨ min beg fin ≤ n ∧ n ≤ max beg fin := by
      rw [has_append, has_cons, ordered_has allowed.1, or_iff_left (not_has_nil n)]
    rw [Op.apply, add_range_ok translate mset fin (Nat.ne_of_gt positive)]
    exact ⟨rfl, fun n here => (has n).mpr (here.imp_left (low n)), fun n here => ((has n).mp here).imp_left (high n)⟩
  | sub beg fin mode =>
    obtain ⟨positive, small, small', rfl⟩ := plain
    by_cases empty : mset.list = []
    · rw [Op.apply, mu_msgset_sub_range, if_pos empty]
      exact ⟨rfl, fun n here => low n here.1, fun n here => absurd (empty ▸ here) (not_has_nil n)⟩
    · obtain ⟨canonical, has, countable⟩ := start.joined
      have removed := sub_finite_removed canonical (fun r member => (countable r member).1)
        (show min beg fin ≤ max beg fin by omega) (by omega)
      have mode : (mu_msgset_aggregate mset).mode = mset.mode := by
        unfold mu_msgset_aggregate
        split_ifs <;> rfl
      rw [Op.apply, sub_range_finite translate' mset allowed empty]
      refine ⟨mode, fun n here => removed.2 n ((has n).mpr (low n here.1)) here.2, fun n here => ?_⟩
      obtain ⟨here, outside⟩ := removed.1 n here
      exact ⟨high n ((has n).mp here), outside⟩

theorem leaves_run (ops : List Op) : ∀ {mset : Msgset}
    {least most : Nat → Prop}, Built mset → (∀ op ∈ ops, op.Allowed ∧ op.Plain mset.mode) →
    (∀ n, least n → Has mset.list n) → (∀ n, Has mset.list n → most n) →
    (∀ n, ops.foldl (Op.leaves 1) least n → Has (ops.foldl (Op.apply translate translate') mset).list n) ∧
      ∀ n, Has (ops.foldl (Op.apply translate translate') mset).list n → ops.foldl (Op.leaves 0) most n := by
  induction ops with
  | nil => exact fun _ _ low high => ⟨low, high⟩
  | cons op ops ih =>
    intro mset least most start allowed low high
    obtain ⟨⟨allowedOp, plain⟩, allowed⟩ := List.forall_mem_cons.mp allowed
    obtain ⟨mode, low, high⟩ := leaves_step start allowedOp plain low high
    exact ih (plain_built start allowedOp plain) (mode ▸ allowed) low high

/-- After any calls on an empty set, in its mode, all messages are there that should be, but for those directly behind
    a range that was taken out, and no others. -/
theorem run_between (mode : Nat) (ops : List Op)
    (allowed : ∀ op ∈ ops, op.Allowed ∧ op.Plain mode) :
    (∀ n, should 1 ops n → Has (built translate translate' mode ops).list n) ∧
      ∀ n, Has (built translate translate' mode ops).list n → should 0 ops n :=
  leaves_run ops ⟨fun r member => absurd member List.not_mem_nil, fun marked => by cases marked⟩ allowed
    (fun n none => none.elim) (not_has_nil · ·)

/-- `1,5:7` without `3:6`. -/
theorem run_between_case : Has (built (fun _ _ => .error .failure) (fun _ _ => .error .failure) 0
    [.add 1 1 0, .add 5 7 0, .sub 3 6 0]).list 1 := by
  refine (run_between 0 _ ?_).1 1 ?_
  · simp [Op.Allowed, Op.Plain]
  · simp [should, Op.leaves]

theorem add_ranges_ok (ranges : List Msgrange) : ∀ {dest : Msgset}, Built dest → (∀ r ∈ ranges, Countable r) →
    ∃ sum, add_ranges translate dest.mode ranges dest = (.ok, sum) ∧ Built sum ∧
      ∀ n, Has sum.list n ↔ Has dest.list n ∨ Has ranges n := by
  induction ranges with
  | nil => exact fun {dest} start _ => ⟨dest, rfl, start, fun n => (or_iff_left (not_has_nil n)).symm⟩
  | cons r ranges ih =>
    intro dest start countable
    obtain ⟨here, countable⟩ := List.forall_mem_cons.mp countable
    have call := add_range_ok translate dest r.msg_end (Nat.ne_of_gt here.1.2.1)
    rw [ordered, if_neg fun swapped => absurd here.1.1 (Nat.not_le_of_gt swapped.2)] at call
    have longer : Built { dest with list := dest.list ++ [r], aggregated := false } := by
      refine ⟨fun s member => ?_, fun marked => by cases marked⟩
      rcases List.mem_append.mp member with member | same
      · exact start.countable s member
      · rwa [List.mem_singleton.mp same]
    obtain ⟨sum, added, next, has⟩ := ih longer countable
    refine ⟨sum, by rw [add_ranges, call]; exact added, next, fun n => ?_⟩
    rw [has, has_append, has_cons, has_cons, or_iff_left (not_has_nil n), or_assoc]

/-- Adding a set gives the union, and in canonical form the same one whichever set is added to the other. -/
theorem add_commutes {a b : Msgset} (left : Built a) (right : Built b) (modes : a.mode = b.mode) :
    ∃ sum sum', mu_msgset_add translate a b = (.ok, sum) ∧ mu_msgset_add translate b a = (.ok, sum') ∧
      (mu_msgset_aggregate sum).list = (mu_msgset_aggregate sum').list ∧
      ∀ n, Has (mu_msgset_aggregate sum).list n ↔ Has a.list n ∨ Has b.list n := by
  obtain ⟨sum, added, next, has⟩ := @add_ranges_ok translate b.list a left right.countable
  obtain ⟨sum', added', next', has'⟩ := @add_ranges_ok translate a.list b right left.countable
  obtain ⟨canonical, joined, countable⟩ := next.joined
  obtain ⟨canonical', joined', countable'⟩ := next'.joined
  rw [mu_msgset_add, mu_msgset_add, ← modes, added, modes, added']
  refine ⟨sum, sum', rfl, rfl, ?_, fun n => (joined n).trans (has n)⟩
  refine canonical_ext canonical canonical' (fun r member => (countable_valid (countable r member)).1)
    (fun r member => (countable_valid (countable' r member)).1) fun n => ?_
  rw [joined, joined', has, has', or_comm]

theorem add_commutes_two : ∃ sum sum', mu_msgset_add (fun _ _ => .error .failure) ⟨[⟨1, 2⟩], false, 0⟩
      ⟨[⟨2, 5⟩], false, 0⟩ = (.ok, sum) ∧
    mu_msgset_add (fun _ _ => .error .failure) ⟨[⟨2, 5⟩], false, 0⟩ ⟨[⟨1, 2⟩], false, 0⟩ = (.ok, sum') ∧
      (mu_msgset_aggregate sum).list = (mu_msgset_aggregate sum').list := by
  have start (r : Msgrange) (ends : r.msg_beg ≤ r.msg_end ∧ 1 ≤ r.msg_beg ∧ r.msg_end < 9) : Built ⟨[r], false, 0⟩ := by
    refine ⟨fun s member => ?_, fun marked => by cases marked⟩
    rw [List.mem_singleton.mp member]
    exact ⟨⟨ends.1, ends.2.1, by omega⟩, by omega⟩
  obtain ⟨sum, sum', added, added', same, -⟩ := @add_commutes (fun _ _ => .error .failure) _ _
    (start ⟨1, 2⟩ (by decide)) (start ⟨2, 5⟩ (by decide)) rfl
  exact ⟨sum, sum', added, added', same⟩

end
end Mailutils.MessageSet

import Mailutils.MsgsetAdd

/-!
The complement of a message set (`libmailutils/msgset/negate.c`). The gaps before, between and behind the ranges are
added to a new set, each tested for by a strict comparison of its ends: a gap of a single message is left out. The
complement is right, and right again when it is taken twice, just when no message stands alone (`negate_iff`).
-/
namespace Mailutils.MessageSet

/-- Adding in the set's own mode asks the mailbox for nothing. -/
def add_own (mset : Msgset) (beg fin : Nat) : Except Code Msgset :=
  match mu_msgset_add_range (fun _ _ => .error .failure) mset beg fin mset.mode with
  | (.ok, mset) => .ok mset
  | (rc, _) => .error rc

theorem add_own_ok (mset : Msgset) {beg fin : Nat} (positive : beg ≠ 0) (inOrder : beg ≤ fin) :
    add_own mset beg fin = .ok { mset with list := mset.list ++ [⟨beg, fin⟩], aggregated := false } := by
  have kept : ordered beg fin = ⟨beg, fin⟩ := if_neg fun swapped => by omega
  rw [add_own, add_range_ok _ mset fin positive, kept]

/-- The closure is the new set and the number behind the ranges seen so far. -/
def _invert_range (clos : Msgset × Nat) (range : Msgrange) : Except Code (Msgset × Nat) :=
  if clos.2 < range.msg_beg - 1 then
    (add_own clos.1 clos.2 (range.msg_beg - 1)).map fun nset => (nset, size (range.msg_end + 1))
  else .ok (clos.1, size (range.msg_end + 1))

def mu_msgset_negate (mbox : Option Mailbox) (msgset : Msgset) : Except Code Msgset :=
  match mbox with
  | none => .error .MU_ERR_NOT_OPEN
  | some mbox => do
    let msgset := mu_msgset_aggregate msgset
    let total ← mbox.messages_count
    let total ← if msgset.mode ≠ MU_MSGSET_NUM then mbox.msgno_to_uid total else .ok total
    let (nset, next_num) ← msgset.list.foldlM _invert_range (⟨[], false, msgset.mode⟩, 1)
    if next_num < total then add_own nset next_num total else .ok nset

/-- The gaps of more than one message before the ranges of a list, from the number `next` on. -/
def gaps (next : Nat) : List Msgrange → List Msgrange
  | [] => []
  | r :: rest =>
    (if next < r.msg_beg - 1 then [⟨next, r.msg_beg - 1⟩] else []) ++ gaps (r.msg_end + 1) rest

/-- The number behind the last range of a list. -/
def behind (next : Nat) : List Msgrange → Nat
  | [] => next
  | r :: rest => behind (r.msg_end + 1) rest

/-- The gaps, with that behind the last range up to `total`. -/
def allGaps (next total : Nat) (list : List Msgrange) : List Msgrange :=
  gaps next list ++ if behind next list < total then [⟨behind next list, total⟩] else []

private theorem behind_ne_zero {next : Nat} (list : List Msgrange) (positive : next ≠ 0) : behind next list ≠ 0 := by
  induction list generalizing next with
  | nil => exact positive
  | cons r rest ih => exact ih (Nat.succ_ne_zero _)

theorem invert_next {clos clos' : Msgset × Nat} {range : Msgrange} (step : _invert_range clos range = .ok clos') :
    clos'.2 = size (range.msg_end + 1) := by
  unfold _invert_range at step
  split at step
  · cases added : add_own clos.1 clos.2 (range.msg_beg - 1) with
    | error rc => simp [added, Except.map] at step
    | ok nset =>
      rw [added] at step
      rw [← Except.ok.inj step]
  · rw [← Except.ok.inj step]

theorem invert_run (list : List Msgrange) (nset : Msgset) (next : Nat) (positive : next ≠ 0)
    (small : ∀ r ∈ list, r.msg_end + 1 < 2 ^ 64) (fresh : nset.aggregated = false) :
    list.foldlM _invert_range (nset, next) =
      .ok ({ nset with list := nset.list ++ gaps next list }, behind next list) := by
  induction list generalizing nset next with
  | nil => simp [gaps, behind, pure, Except.pure]
  | cons r rest ih =>
    obtain ⟨smallR, small⟩ := List.forall_mem_cons.mp small
    have kept : size (r.msg_end + 1) = r.msg_end + 1 := Nat.mod_eq_of_lt smallR
    rw [List.foldlM_cons, _invert_range, kept]
    by_cases gap : next < r.msg_beg - 1
    · rw [if_pos gap, add_own_ok nset positive (Nat.le_of_lt gap)]
      simp only [Except.map, bind, Except.bind]
      rw [ih _ _ (by simp) small rfl]
      simp [gaps, behind, gap, fresh]
    · rw [if_neg gap]
      simp only [bind, Except.bind]
      rw [ih _ _ (by simp) small fresh]
      simp [gaps, behind, gap]

theorem has_gap (a b n : Nat) : Has (if a < b then [⟨a, b⟩] else []) n ↔ a < b ∧ a ≤ n ∧ n ≤ b := by
  by_cases gap : a < b
  · have finite : Msgrange.msg_end ⟨a, b⟩ ≠ MU_MSGNO_LAST := Nat.ne_of_gt (Nat.zero_lt_of_lt gap)
    rw [if_pos gap, has_cons, has_closed finite]
    simp [not_has_nil, gap]
  · simp [not_has_nil, gap]

theorem allGaps_has {list : List Msgrange} (next total : Nat) (canonical : Canonical list)
    (valid : ∀ r ∈ list, r.Valid) (closed : ∀ r ∈ list, r.msg_end ≠ MU_MSGNO_LAST)
    (from_next : ∀ r ∈ list, next ≤ r.msg_beg) (to_total : ∀ r ∈ list, r.msg_end ≤ total) (n : Nat) :
    Has (allGaps next total list) n ↔ next ≤ n ∧ n ≤ total ∧ ¬ Has list n ∧
      ∃ m, next ≤ m ∧ m ≤ total ∧ (m = n + 1 ∨ n = m + 1) ∧ ¬ Has list m := by
  induction list generalizing next with
  | nil =>
    rw [allGaps, gaps, behind, List.nil_append, has_gap]
    simp only [not_has_nil, not_false_eq_true, and_true, true_and]
    constructor
    · rintro ⟨more, lower, upper⟩
      refine ⟨lower, upper, ?_⟩
      by_cases first : n < total
      · exact ⟨n + 1, by omega, by omega, .inl rfl⟩
      · exact ⟨n - 1, by omega, by omega, .inr (by omega)⟩
    · rintro ⟨lower, upper, m, lower', upper', near⟩
      omega
  | cons r rest ih =>
    obtain ⟨validR, valid⟩ := List.forall_mem_cons.mp valid
    obtain ⟨closedR, closed⟩ := List.forall_mem_cons.mp closed
    obtain ⟨fromR, from_next⟩ := List.forall_mem_cons.mp from_next
    obtain ⟨toR, to_total⟩ := List.forall_mem_cons.mp to_total
    obtain ⟨apart, canonical⟩ := List.pairwise_cons.mp canonical
    have inOrder := validR.2.1.resolve_left closedR
    have later (k : Nat) (has : Has rest k) : r.msg_end + 1 < k := by
      obtain ⟨r', member, has⟩ := has
      exact Nat.lt_of_lt_of_le (apart r' member).2.2 has.1
    have split : Has (allGaps next total (r :: rest)) n ↔
        (next < r.msg_beg - 1 ∧ next ≤ n ∧ n ≤ r.msg_beg - 1) ∨ Has (allGaps (r.msg_end + 1) total rest) n := by
      rw [allGaps, gaps, behind, List.append_assoc, ← allGaps, has_append, has_gap]
    rw [split, ih (r.msg_end + 1) canonical valid closed (fun r' member => Nat.le_of_lt (apart r' member).2.2) to_total]
    simp only [has_cons, has_closed closedR, not_or, not_and, Nat.not_le]
    constructor
    · rintro (⟨gap, lower, upper⟩ | ⟨lower, upper, none, m, lower', upper', near, none'⟩)
      · -- before the range
        have none (k : Nat) (before : k ≤ r.msg_beg - 1) : ¬ Has rest k := fun has => by
          have := later k has
          omega
        refine ⟨lower, by omega, ⟨by omega, none n upper⟩, ?_⟩
        by_cases first : n < r.msg_beg - 1
        · exact ⟨n + 1, by omega, by omega, .inl rfl, by omega, none _ (by omega)⟩
        · exact ⟨n - 1, by omega, by omega, .inr (by omega), by omega, none _ (by omega)⟩
      · exact ⟨by omega, upper, ⟨by omega, none⟩, m, by omega, upper', near, by omega, none'⟩
    · rintro ⟨lower, upper, ⟨outside, none⟩, m, lower', upper', near, outside', none'⟩
      by_cases before : n < r.msg_beg
      · exact .inl (by omega)
      · exact .inr ⟨by omega, upper, none, m, by omega, upper', near, none'⟩

/-- A mailbox of `total` messages. -/
def holding (total : Nat) : Mailbox := ⟨.ok total, fun _ => .error .failure, fun _ => .error .failure, .error .failure⟩

/-- A set of message numbers, all of them messages of a mailbox. -/
structure Numbers (total : Nat) (mset : Msgset) : Prop where
  mode : mset.mode = MU_MSGSET_NUM
  valid : ∀ r ∈ mset.list, r.Valid
  closed : ∀ r ∈ mset.list, r.msg_end ≠ MU_MSGNO_LAST
  marked : mset.aggregated = true → Canonical mset.list
  within : ∀ n, Has mset.list n → n ≤ total

theorem negate_eq {total : Nat} {mset : Msgset} (numbers : Numbers total mset) :
    mu_msgset_negate (some (holding total)) mset =
      ((mu_msgset_aggregate mset).list.foldlM _invert_range (⟨[], false, MU_MSGSET_NUM⟩, 1)).bind fun clos =>
        if clos.2 < total then add_own clos.1 clos.2 total else .ok clos.1 := by
  have mode : (mu_msgset_aggregate mset).mode = MU_MSGSET_NUM := by
    rw [← numbers.mode, mu_msgset_aggregate]
    split_ifs <;> rfl
  rw [mu_msgset_negate]
  simp only [holding, bind, Except.bind, mode, ne_eq, not_true_eq_false, if_false]

theorem gap_member {a b : Nat} {r : Msgrange} (member : r ∈ if a < b then [Msgrange.mk a b] else []) :
    a < b ∧ r = ⟨a, b⟩ := by
  split at member
  · next gap => exact ⟨gap, List.mem_singleton.mp member⟩
  · cases member

theorem allGaps_valid {list : List Msgrange} {next total : Nat} (positive : next ≠ 0) (small : total < 2 ^ 64)
    (to_total : ∀ r ∈ list, r.msg_beg ≤ total) :
    ∀ r ∈ allGaps next total list, r.Valid ∧ r.msg_end ≠ MU_MSGNO_LAST ∧ r.msg_end ≤ total := by
  have valid {a b : Nat} (positive : a ≠ 0) (gap : a < b) (bound : b ≤ total) :
      (Msgrange.mk a b).Valid ∧ b ≠ MU_MSGNO_LAST ∧ b ≤ total :=
    ⟨⟨Nat.one_le_iff_ne_zero.mpr positive, .inr (Nat.le_of_lt gap), show a < 2 ^ 64 by omega, show b < 2 ^ 64 by omega⟩,
      Nat.ne_of_gt (Nat.zero_lt_of_lt gap), bound⟩
  induction list generalizing next with
  | nil =>
    intro r member
    rw [allGaps, gaps, behind, List.nil_append] at member
    obtain ⟨gap, rfl⟩ := gap_member member
    exact valid positive gap (Nat.le_refl _)
  | cons c rest ih =>
    obtain ⟨toC, to_total⟩ := List.forall_mem_cons.mp to_total
    intro r member
    rw [allGaps, gaps, behind, List.append_assoc, ← allGaps, List.mem_append] at member
    rcases member with member | member
    · obtain ⟨gap, rfl⟩ := gap_member member
      exact valid positive gap (by omega)
    · exact ih (by simp) to_total r member

theorem negate_ok {total : Nat} (small : total < 2 ^ 64) {mset : Msgset} (numbers : Numbers total mset)
    (below : ¬ Has mset.list (2 ^ 64 - 1)) :
    ∃ nset, mu_msgset_negate (some (holding total)) mset = .ok nset ∧ Numbers total nset ∧
      ∀ n, Has nset.list n ↔ 1 ≤ n ∧ n ≤ total ∧ ¬ Has mset.list n ∧
        ∃ m, 1 ≤ m ∧ m ≤ total ∧ (m = n + 1 ∨ n = m + 1) ∧ ¬ Has mset.list m := by
  obtain ⟨canonical, has, valid, closed⟩ := aggregate_finite mset numbers.valid numbers.closed numbers.marked
  have ends (r : Msgrange) (member : r ∈ (mu_msgset_aggregate mset).list) :
      r.msg_beg ≤ r.msg_end ∧ Has mset.list r.msg_end := by
    have inOrder := (valid r member).2.1.resolve_left (closed r member)
    exact ⟨inOrder, (has _).mp ⟨r, member, (has_closed (closed r member) _).mpr ⟨inOrder, Nat.le_refl _⟩⟩⟩
  have to_total (r : Msgrange) (member : r ∈ (mu_msgset_aggregate mset).list) : r.msg_end ≤ total :=
    numbers.within _ (ends r member).2
  have run := invert_run (mu_msgset_aggregate mset).list ⟨[], false, MU_MSGSET_NUM⟩ 1 (by simp)
    (fun r member => by
      have bound := to_total r member
      have notTop : r.msg_end ≠ 2 ^ 64 - 1 := fun top => below (top ▸ (ends r member).2)
      omega) rfl
  have positive : behind 1 (mu_msgset_aggregate mset).list ≠ 0 := behind_ne_zero _ (by simp)
  have gaps := allGaps_valid Nat.one_ne_zero small fun r member => (ends r member).1.trans (to_total r member)
  refine ⟨⟨allGaps 1 total (mu_msgset_aggregate mset).list, false, MU_MSGSET_NUM⟩, ?_, ⟨rfl, fun r member =>
    (gaps r member).1, fun r member => (gaps r member).2.1, fun marked => (by cases marked), ?_⟩, ?_⟩
  · rw [negate_eq numbers, run]
    simp only [Except.bind, List.nil_append, allGaps]
    split
    · next more => rw [add_own_ok _ positive (Nat.le_of_lt more)]
    · rw [List.append_nil]
  · rintro n ⟨r, member, has⟩
    have := gaps r member
    exact (((has_closed this.2.1 n).mp has).2).trans this.2.2
  · intro n
    rw [allGaps_has 1 total canonical valid closed (fun r member => (valid r member).1) to_total]
    simp only [has]

theorem negate_top {total : Nat} (small : total < 2 ^ 64) {mset : Msgset} (numbers : Numbers total mset)
    (top : Has mset.list (2 ^ 64 - 1)) (nset : Msgset) : mu_msgset_negate (some (holding total)) mset ≠ .ok nset := by
  obtain ⟨canonical, has, valid, closed⟩ := aggregate_finite mset numbers.valid numbers.closed numbers.marked
  have all : 2 ^ 64 - 1 ≤ total := numbers.within _ top
  obtain ⟨r, member, inside⟩ := (has _).mpr top
  have last : r.msg_end = 2 ^ 64 - 1 := by
    have := ((has_closed (closed r member) _).mp inside).2
    have := (valid r member).2.2.2
    omega
  obtain ⟨front, back, split⟩ := List.append_of_mem member
  -- no range can stand behind that one
  have none : back = [] := by
    by_contra more
    obtain ⟨r', member'⟩ := List.exists_mem_of_ne_nil back more
    rw [split] at canonical
    have apart := (List.pairwise_cons.mp (List.pairwise_append.mp canonical).2.1).1 r' member'
    have := (valid r' (by simp [split, member'])).2.2.1
    have := apart.2.2
    omega
  rw [negate_eq numbers, split, none, List.foldlM_append]
  cases before : front.foldlM _invert_range (⟨[], false, MU_MSGSET_NUM⟩, 1) with
  | error rc => simp [bind, Except.bind]
  | ok clos =>
    cases here : _invert_range clos r with
    | error rc => simp [bind, Except.bind, here]
    | ok clos' =>
      have overflow : size (2 ^ 64 - 1 + 1) = 0 := by decide
      have zero : clos'.2 = 0 := by rw [invert_next here, last, overflow]
      simp only [List.foldlM_cons, List.foldlM_nil, bind, Except.bind, here, pure, Except.pure, zero]
      rw [if_pos (by omega)]
      simp [add_own, mu_msgset_add_range]

/-- The complement of a set of message numbers, and the complement of that, are right exactly when every message of
    the mailbox has a neighbour that is in the set if it is itself, and out of it if it is not. -/
theorem negate_iff (total : Nat) (small : total < 2 ^ 64) (mset : Msgset) (numbers : Numbers total mset) :
    (∃ nset, mu_msgset_negate (some (holding total)) mset = .ok nset ∧
      (∀ n, Has nset.list n ↔ 1 ≤ n ∧ n ≤ total ∧ ¬ Has mset.list n) ∧
      ∃ back, mu_msgset_negate (some (holding total)) nset = .ok back ∧ ∀ n, Has back.list n ↔ Has mset.list n) ↔
      total + 1 < 2 ^ 64 ∧ ∀ n, 1 ≤ n → n ≤ total →
        ∃ m, 1 ≤ m ∧ m ≤ total ∧ (m = n + 1 ∨ n = m + 1) ∧ (Has mset.list m ↔ Has mset.list n) := by
  constructor
  · rintro ⟨nset, negated, complement, back, negated', same⟩
    have below : ¬ Has mset.list (2 ^ 64 - 1) := fun top => negate_top small numbers top nset negated
    obtain ⟨nset', negation, numbers', has⟩ := negate_ok small numbers below
    obtain rfl : nset' = nset := Except.ok.inj (negation.symm.trans negated)
    have below' : ¬ Has nset'.list (2 ^ 64 - 1) := fun top => negate_top small numbers' top back negated'
    obtain ⟨back', negation', -, has'⟩ := negate_ok small numbers' below'
    obtain rfl : back' = back := Except.ok.inj (negation'.symm.trans negated')
    refine ⟨?_, fun n lower upper => ?_⟩
    · rw [complement] at below'
      by_contra large
      exact below' ⟨by omega, by omega, below⟩
    · by_cases inside : Has mset.list n
      · obtain ⟨-, -, -, m, lower', upper', near, outside⟩ := (has' n).mp ((same n).mpr inside)
        refine ⟨m, lower', upper', near, iff_of_true ?_ inside⟩
        by_contra none
        exact outside ((complement m).mpr ⟨lower', upper', none⟩)
      · obtain ⟨-, -, -, m, lower', upper', near, outside⟩ := (has n).mp ((complement n).mpr ⟨lower, upper, inside⟩)
        exact ⟨m, lower', upper', near, iff_of_false outside inside⟩
  · rintro ⟨room, neighbours⟩
    have below : ¬ Has mset.list (2 ^ 64 - 1) := fun top => by
      have := numbers.within _ top
      omega
    obtain ⟨nset, negation, numbers', has⟩ := negate_ok small numbers below
    have complement (n : Nat) : Has nset.list n ↔ 1 ≤ n ∧ n ≤ total ∧ ¬ Has mset.list n := by
      rw [has]
      refine ⟨fun all => ⟨all.1, all.2.1, all.2.2.1⟩, ?_⟩
      rintro ⟨lower, upper, outside⟩
      obtain ⟨m, lower', upper', near, same⟩ := neighbours n lower upper
      exact ⟨lower, upper, outside, m, lower', upper', near, fun inside => outside (same.mp inside)⟩
    have below' : ¬ Has nset.list (2 ^ 64 - 1) := fun top => by
      have := numbers'.within _ top
      omega
    obtain ⟨back, negation', -, has'⟩ := negate_ok small numbers' below'
    refine ⟨nset, negation, complement, back, negation', fun n => ?_⟩
    rw [has']
    constructor
    · rintro ⟨lower, upper, outside, -⟩
      by_contra none
      exact outside ((complement n).mpr ⟨lower, upper, none⟩)
    · intro inside
      have lower : 1 ≤ n := by
        obtain ⟨r, member, has⟩ := inside
        exact (numbers.valid r member).1.trans has.1
      have upper := numbers.within n inside
      obtain ⟨m, lower', upper', near, same⟩ := neighbours n lower upper
      exact ⟨lower, upper, fun out => ((complement n).mp out).2.2 inside, m, lower', upper', near,
        fun out => ((complement m).mp out).2.2 (same.mpr inside)⟩

/-- Of six messages, the complement of `3:4`. -/
theorem negate_middle :
    ∃ nset, mu_msgset_negate (some (holding 6)) ⟨[⟨3, 4⟩], false, MU_MSGSET_NUM⟩ = .ok nset ∧
      (∀ n, Has nset.list n ↔ 1 ≤ n ∧ n ≤ 6 ∧ ¬ Has [⟨3, 4⟩] n) ∧
      ∃ back, mu_msgset_negate (some (holding 6)) nset = .ok back ∧ ∀ n, Has back.list n ↔ Has [⟨3, 4⟩] n := by
  refine (negate_iff 6 (by decide) ⟨[⟨3, 4⟩], false, MU_MSGSET_NUM⟩
    ⟨rfl, by decide, by decide, by simp, ?_⟩).mpr ⟨by decide, ?_⟩
  · rintro n ⟨r, member, has⟩
    obtain rfl := List.mem_singleton.mp member
    have : n ≤ 4 := ((has_closed (by decide) n).mp has).2
    omega
  · intro n lower upper
    have neighbours : ∀ n ≤ 6, 1 ≤ n → ∃ m ≤ 6, 1 ≤ m ∧ (m = n + 1 ∨ n = m + 1) ∧
        (Has [⟨3, 4⟩] m ↔ Has [⟨3, 4⟩] n) := by decide
    obtain ⟨m, upper', lower', near⟩ := neighbours n upper lower
    exact ⟨m, lower', upper', near⟩

/-- Of two messages, the complement of the first should be the second; it is empty. -/
theorem negate_single :
    mu_msgset_negate (some (holding 2)) ⟨[⟨1, 1⟩], false, MU_MSGSET_NUM⟩ = .ok ⟨[], false, MU_MSGSET_NUM⟩ ∧
      ¬ (Has [] 2 ↔ 1 ≤ 2 ∧ 2 ≤ 2 ∧ ¬ Has [⟨1, 1⟩] 2) := by
  decide

end Mailutils.MessageSet

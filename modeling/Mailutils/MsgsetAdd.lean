import Mailutils.MessageSet

/-!
Adding a range of messages to a message set (`libmailutils/msgset/add.c`), which the other operations on sets are
made of. The range is put in order and appended as it is; nothing is joined before a set is aggregated.
-/
namespace Mailutils.MessageSet

/-- `translate` is `_mu_msgset_translate_pair`, which asks the mailbox. -/
def mu_msgset_add_range (translate : Nat → Nat → Except Code (Nat × Nat)) (mset : Msgset) (beg fin mode : Nat) :
    Code × Msgset :=
  if beg = 0 then (.EINVAL, mset)
  else
    let pair := if fin ≠ 0 ∧ beg > fin then (fin, beg) else (beg, fin)
    match if mode ≠ mset.mode then translate pair.1 pair.2 else .ok pair with
    | .error rc => (rc, mset)
    | .ok (beg, fin) => (.ok, { mset with list := mset.list ++ [⟨beg, fin⟩], aggregated := false })

/-- The range that is stored: an open one as it is, another with its ends in order. -/
def ordered (beg fin : Nat) : Msgrange := if fin ≠ 0 ∧ beg > fin then ⟨fin, beg⟩ else ⟨beg, fin⟩

theorem add_range_ok (translate : Nat → Nat → Except Code (Nat × Nat)) (mset : Msgset) {beg : Nat} (fin : Nat)
    (positive : beg ≠ 0) :
    mu_msgset_add_range translate mset beg fin mset.mode =
      (.ok, { mset with list := mset.list ++ [ordered beg fin], aggregated := false }) := by
  unfold mu_msgset_add_range ordered
  rw [if_neg positive]
  split <;> simp

theorem ordered_valid {beg fin : Nat} (positive : beg ≠ 0) (small : beg < 2 ^ 64) (small' : fin < 2 ^ 64) :
    (ordered beg fin).Valid := by
  unfold ordered Msgrange.Valid MU_MSGNO_LAST
  split
  · next swapped => exact ⟨Nat.one_le_iff_ne_zero.mpr swapped.1, .inr (Nat.le_of_lt swapped.2), small', small⟩
  · next kept =>
    refine ⟨Nat.one_le_iff_ne_zero.mpr positive, ?_, small, small'⟩
    dsimp only
    omega

theorem ordered_has {beg fin : Nat} (finite : fin ≠ 0) (n : Nat) :
    (ordered beg fin).Has n ↔ min beg fin ≤ n ∧ n ≤ max beg fin := by
  unfold ordered Msgrange.Has MU_MSGNO_LAST
  split
  · next swapped =>
    dsimp only
    omega
  · next kept =>
    dsimp only
    omega

theorem aggregate_finite (mset : Msgset) (valid : ∀ r ∈ mset.list, r.Valid)
    (closed : ∀ r ∈ mset.list, r.msg_end ≠ MU_MSGNO_LAST) (marked : mset.aggregated = true → Canonical mset.list) :
    Canonical (mu_msgset_aggregate mset).list ∧ (∀ n, Has (mu_msgset_aggregate mset).list n ↔ Has mset.list n) ∧
      (∀ r ∈ (mu_msgset_aggregate mset).list, r.Valid) ∧
      ∀ r ∈ (mu_msgset_aggregate mset).list, r.msg_end ≠ MU_MSGNO_LAST := by
  by_cases done : mset.aggregated = true
  · have same : mu_msgset_aggregate mset = mset := by rw [mu_msgset_aggregate, if_pos done]
    rw [same]
    exact ⟨marked done, fun _ => .rfl, valid, closed⟩
  · obtain ⟨front, back, split, outcome⟩ := aggregate_outcome mset (by simpa using done) valid
    have none : back = [] := by
      rcases outcome.nearly.back with none | ⟨o, rfl, opened⟩
      · exact none
      · -- an open range would have messages beyond every finite one
        obtain ⟨bound, all⟩ := has_bounded closed
        have beyond : Has (front ++ [o]) (max (bound + 1) o.msg_beg) :=
          ⟨o, by simp, (has_open opened _).mpr (Nat.le_max_right _ _)⟩
        have := all _ ((outcome.has _).mp beyond)
        omega
    rw [split]
    refine ⟨outcome.canonical.mpr (joinable_closed closed), outcome.has, outcome.nearly.valid, ?_⟩
    rw [none, List.append_nil]
    exact outcome.nearly.closed

end Mailutils.MessageSet

import Mathlib.Algebra.BigOperators.Group.Finset.Basic
import Mathlib.Algebra.Order.BigOperators.Group.Finset
import Mathlib.Algebra.GroupWithZero.Action.Defs
import Mathlib.Logic.Function.Basic
import Mathlib.Tactic.SplitIfs

/-!
Hash tables with linear probing: a table of `m` slots, each element in the first free
slot from its home on, around the end of the table. Every element can be reached from
its home over occupied slots (`Reach`); then a probe that comes to an empty slot has
seen all that could match. An element is deleted by moving back those behind it that
cannot be reached over the hole (`backshift`).
-/
namespace Mailutils.OpenAddressing

/-- The slot after another. -/
def succ (m i : Nat) : Nat := if i + 1 ≥ m then 0 else i + 1

/-- The number of slots from one to another. -/
def dist (m a b : Nat) : Nat := if a ≤ b then b - a else b + m - a

section
variable {m a b c i j r : Nat}

theorem succ_lt (inside : i < m) : succ m i < m := by
  unfold succ
  split
  · omega
  · omega

@[simp] theorem dist_self (m a : Nat) : dist m a a = 0 := by simp [dist]

theorem dist_lt (left : a < m) (right : b < m) : dist m a b < m := by
  unfold dist
  split
  · omega
  · omega

private theorem dist_pos (left : a < m) (other : a ≠ b) : 0 < dist m a b := by
  unfold dist
  split
  · omega
  · omega

theorem dist_inj (left : a < m) (right : b < m) (right' : c < m) (same : dist m a b = dist m a c) : b = c := by
  unfold dist at same
  split_ifs at same
  · omega
  · omega
  · omega
  · omega

theorem dist_succ (left : a < m) (right : i < m) (other : succ m i ≠ a) : dist m a (succ m i) = dist m a i + 1 := by
  unfold succ dist at *
  split_ifs at * <;> omega

theorem dist_last (left : a < m) (right : i < m) (same : succ m i = a) : dist m a i + 1 = m := by
  unfold succ dist at *
  split_ifs at * <;> omega

private theorem dist_trans (left : a < m) (middle : b < m) (right : c < m) (between : dist m a b ≤ dist m a c) :
    dist m a c = dist m a b + dist m b c := by
  unfold dist at *
  split_ifs at * <;> omega

/-- The slots `r` after `j`, up to `i`. -/
def Within (m j r i : Nat) : Prop := 0 < dist m j r ∧ dist m j r ≤ dist m j i

theorem within_iff (hole : j < m) (home : r < m) (slot : i < m) :
    (j < r ∧ r ≤ i) ∨ (i < j ∧ j < r) ∨ (r ≤ i ∧ i < j) ↔ Within m j r i := by
  unfold Within dist
  split_ifs <;> omega

/-- A home that is not between the hole and the slot has the hole on its way to the
    slot. -/
theorem hole_on_way (hole : j < m) (home : r < m) (slot : i < m) (other : j ≠ i) :
    ¬ Within m j r i ↔ dist m r j < dist m r i := by
  unfold Within dist
  split_ifs <;> omega
end

/-- What a probe comes to: an element that matches, an empty slot, or its start. -/
inductive Probe where
  | found (i : Nat)
  | empty (i : Nat)
  | full
deriving DecidableEq, Repr

section
variable {α : Type*}

/-- The slots from `i` on, until one is empty or matches or the probe is back at `pos`. -/
def probe (m : Nat) (tab : Nat → Option α) (hit : α → Bool) (pos : Nat) : Nat → Nat → Probe
  | 0, _ => .full
  | fuel + 1, i =>
    match tab i with
    | none => .empty i
    | some e =>
      if hit e then .found i
      else if succ m i = pos then .full
      else probe m tab hit pos fuel (succ m i)

/-- The elements that are taken back once a slot is empty. `j` is the empty slot and `i`
    the one that was looked at last. -/
def backshift (m : Nat) (home : α → Nat) : Nat → (Nat → Option α) → Nat → Nat → Nat → Option α
  | 0, tab, _, _ => tab
  | fuel + 1, tab, j, i =>
    let i := succ m i
    match tab i with
    | none => tab
    | some e =>
      let r := home e
      if (j < r ∧ r ≤ i) ∨ (i < j ∧ j < r) ∨ (r ≤ i ∧ i < j) then backshift m home fuel tab j i
      else backshift m home fuel (Function.update (Function.update tab j (some e)) i none) i i

/-- The elements in the table. -/
def Stored (m : Nat) (tab : Nat → Option α) (e : α) : Prop := ∃ i < m, tab i = some e

/-- The slots before `i`, from `pos` on, hold elements that do not match. -/
def Passed (m : Nat) (tab : Nat → Option α) (hit : α → Bool) (pos i : Nat) : Prop :=
  ∀ s < m, dist m pos s < dist m pos i → ∃ e, tab s = some e ∧ hit e = false

/-- No empty slot is between an element's home and its own, `hole` apart. -/
def ReachOver (m : Nat) (home : α → Nat) (tab : Nat → Option α) (hole : Nat → Prop) : Prop :=
  ∀ i < m, ∀ e, tab i = some e → ∀ s < m, dist m (home e) s < dist m (home e) i → tab s ≠ none ∨ hole s

/-- Every element can be reached from its home. -/
def Reach (m : Nat) (home : α → Nat) (tab : Nat → Option α) : Prop := ReachOver m home tab fun _ => False

/-- No element is in two slots. -/
def Single (m : Nat) (tab : Nat → Option α) : Prop :=
  ∀ i < m, ∀ k < m, ∀ e, tab i = some e → tab k = some e → i = k

/-- The homes are slots. -/
def Homes (m : Nat) (home : α → Nat) (tab : Nat → Option α) : Prop := ∀ e, Stored m tab e → home e < m

variable {m : Nat} {tab : Nat → Option α} {hit : α → Bool} {home : α → Nat} {pos i j k : Nat} {e : α}

/-- What each of the three ends says about the table. -/
def Probe.Shows (m : Nat) (tab : Nat → Option α) (hit : α → Bool) (pos : Nat) : Probe → Prop
  | .found k => k < m ∧ ∃ e, tab k = some e ∧ hit e = true
  | .empty k => k < m ∧ tab k = none ∧ Passed m tab hit pos k
  | .full => ∀ s < m, ∃ e, tab s = some e ∧ hit e = false

theorem passed_succ (start : pos < m) (inside : i < m) (other : succ m i ≠ pos) (passed : Passed m tab hit pos i)
    (here : tab i = some e) (miss : hit e = false) : Passed m tab hit pos (succ m i) := by
  intro s bound before
  rw [dist_succ start inside other] at before
  by_cases same : s = i
  · exact ⟨e, same ▸ here, miss⟩
  · have differs : dist m pos s ≠ dist m pos i := fun h => same (dist_inj start bound inside h)
    exact passed s bound (by omega)

theorem passed_last (start : pos < m) (inside : i < m) (last : succ m i = pos) (passed : Passed m tab hit pos i)
    (here : tab i = some e) (miss : hit e = false) (s : Nat) (bound : s < m) :
    ∃ e, tab s = some e ∧ hit e = false := by
  by_cases same : s = i
  · exact ⟨e, same ▸ here, miss⟩
  · have differs : dist m pos s ≠ dist m pos i := fun h => same (dist_inj start bound inside h)
    have total := dist_last start inside last
    have within := dist_lt start bound
    exact passed s bound (by omega)

theorem probe_shows (start : pos < m) (fuel : Nat) :
    ∀ i, i < m → m ≤ dist m pos i + fuel → Passed m tab hit pos i →
      (probe m tab hit pos fuel i).Shows m tab hit pos := by
  induction fuel with
  | zero =>
    intro i inside enough
    have := dist_lt start inside
    omega
  | succ fuel ih =>
    intro i inside enough passed
    rw [probe]
    split
    next none_here => exact ⟨inside, none_here, passed⟩
    next e here =>
      cases hits : hit e with
      | true => exact ⟨inside, e, here, hits⟩
      | false =>
        simp only [Bool.false_eq_true, if_false]
        split
        next last => exact passed_last start inside last passed here hits
        next other =>
          refine ih _ (succ_lt inside) ?_ (passed_succ start inside other passed here hits)
          rw [dist_succ start inside other]
          omega

theorem probe_start (start : pos < m) (tab : Nat → Option α) (hit : α → Bool) :
    (probe m tab hit pos m pos).Shows m tab hit pos :=
  probe_shows start m pos start (by simp) (fun s _ before => by simp at before)

/-- An empty slot ends the search: what matches would be before it. -/
theorem absent (reach : Reach m home tab) (inside : k < m) (hole : tab k = none)
    (passed : Passed m tab hit pos k) (alike : ∀ e, Stored m tab e → hit e = true → home e = pos) (start : pos < m)
    (stored : Stored m tab e) : hit e = false := by
  obtain ⟨q, bound, there⟩ := stored
  by_contra hits
  rw [Bool.not_eq_false] at hits
  have at_home := alike e ⟨q, bound, there⟩ hits
  rcases Nat.lt_trichotomy (dist m pos q) (dist m pos k) with before | same | after
  · obtain ⟨e', there', miss⟩ := passed q bound before
    rw [there] at there'
    cases there'
    rw [hits] at miss
    cases miss
  · have := dist_inj start bound inside same
    rw [this, hole] at there
    cases there
  · rcases reach q bound e there k inside (by rw [at_home]; exact after) with occupied | no
    · exact occupied hole
    · exact no

theorem stored_update (inside : k < m) (hole : tab k = none) (e' : α) :
    Stored m (Function.update tab k (some e)) e' ↔ e' = e ∨ Stored m tab e' := by
  constructor
  · rintro ⟨s, bound, there⟩
    by_cases same : s = k
    · subst same
      rw [Function.update_self] at there
      cases there
      exact Or.inl rfl
    · rw [Function.update_of_ne same] at there
      exact Or.inr ⟨s, bound, there⟩
  · rintro (rfl | ⟨s, bound, there⟩)
    · exact ⟨k, inside, Function.update_self ..⟩
    · have other : s ≠ k := by
        rintro rfl
        rw [hole] at there
        cases there
      exact ⟨s, bound, by rw [Function.update_of_ne other]; exact there⟩

theorem reach_insert (reach : Reach m home tab) (passed : Passed m tab hit (home e) k) :
    Reach m home (Function.update tab k (some e)) := by
  intro s bound e' there q inside before
  left
  by_cases same : q = k
  · rw [same, Function.update_self]
    exact Option.some_ne_none _
  · rw [Function.update_of_ne same]
    by_cases new : s = k
    · subst new
      rw [Function.update_self] at there
      cases there
      obtain ⟨_, occupied, _⟩ := passed q inside before
      rw [occupied]
      exact Option.some_ne_none _
    · rw [Function.update_of_ne new] at there
      exact (reach s bound e' there q inside before).resolve_right id

theorem single_insert (single : Single m tab) (new : ¬ Stored m tab e) :
    Single m (Function.update tab k (some e)) := by
  intro s bound q inside e' there there'
  by_cases left : s = k
  · by_cases right : q = k
    · rw [left, right]
    · rw [left, Function.update_self] at there
      rw [Function.update_of_ne right] at there'
      cases there
      exact absurd ⟨q, inside, there'⟩ new
  · rw [Function.update_of_ne left] at there
    by_cases right : q = k
    · rw [right, Function.update_self] at there'
      cases there'
      exact absurd ⟨s, bound, there⟩ new
    · rw [Function.update_of_ne right] at there'
      exact single s bound q inside e' there there'

/-- The sum of the ways from the homes to the slots. Each element taken back makes it
    smaller. -/
def displacement (m : Nat) (home : α → Nat) (tab : Nat → Option α) : Nat :=
  ∑ s ∈ Finset.range m, (tab s).elim 0 fun e => dist m (home e) s

/-- The slots after the hole, up to `i`, hold elements that stay reachable. -/
def Settled (m : Nat) (home : α → Nat) (tab : Nat → Option α) (j i : Nat) : Prop :=
  ∀ s < m, 0 < dist m j s → dist m j s ≤ dist m j i → ∃ e, tab s = some e ∧ Within m j (home e) s

/-- The element of slot `i` taken back to the hole `j`. -/
def moved (tab : Nat → Option α) (j i : Nat) (e : α) : Nat → Option α :=
  Function.update (Function.update tab j (some e)) i none

theorem moved_hole : moved tab j i e i = none := Function.update_self ..

theorem moved_filled (other : j ≠ i) : moved tab j i e j = some e := by
  rw [moved, Function.update_of_ne other, Function.update_self]

theorem moved_other {s : Nat} (hole : s ≠ j) (slot : s ≠ i) : moved tab j i e s = tab s := by
  rw [moved, Function.update_of_ne slot, Function.update_of_ne hole]

theorem moved_some {s : Nat} {e' : α} (there : moved tab j i e s = some e') :
    s ≠ i ∧ (s = j ∧ e' = e ∨ s ≠ j ∧ tab s = some e') := by
  have slot : s ≠ i := by
    rintro rfl
    rw [moved_hole] at there
    cases there
  refine ⟨slot, ?_⟩
  by_cases hole : s = j
  · subst hole
    rw [moved_filled slot] at there
    cases there
    exact Or.inl ⟨rfl, rfl⟩
  · rw [moved_other hole slot] at there
    exact Or.inr ⟨hole, there⟩

theorem moved_stored (hole : j < m) (empty : tab j = none) (inside : i < m) (here : tab i = some e) (e' : α) :
    Stored m (moved tab j i e) e' ↔ Stored m tab e' := by
  have other : j ≠ i := by
    rintro rfl
    rw [empty] at here
    cases here
  constructor
  · rintro ⟨s, bound, there⟩
    rcases moved_some there with ⟨_, ⟨_, rfl⟩ | ⟨_, before⟩⟩
    · exact ⟨i, inside, here⟩
    · exact ⟨s, bound, before⟩
  · rintro ⟨s, bound, there⟩
    by_cases slot : s = i
    · subst slot
      rw [here] at there
      cases there
      exact ⟨j, hole, moved_filled other⟩
    · have unlike : s ≠ j := by
        rintro rfl
        rw [empty] at there
        cases there
      exact ⟨s, bound, by rw [moved_other unlike slot]; exact there⟩

theorem moved_single (single : Single m tab) (inside : i < m) (here : tab i = some e) :
    Single m (moved tab j i e) := by
  intro s bound q bound' e' there there'
  obtain ⟨slot, case⟩ := moved_some there
  obtain ⟨slot', case'⟩ := moved_some there'
  rcases case with ⟨rfl, rfl⟩ | ⟨_, before⟩
  · rcases case' with ⟨rfl, _⟩ | ⟨_, before'⟩
    · rfl
    · exact absurd (single q bound' i inside e' before' here) slot'
  · rcases case' with ⟨rfl, rfl⟩ | ⟨_, before'⟩
    · exact absurd (single s bound i inside e' before here) slot
    · exact single s bound q bound' e' before before'

/-- The hole goes on to the slot that was left: the element moved is reachable where it is
    now, and no other one has lost a slot of its way but that one. -/
theorem moved_reach (reach : ReachOver m home tab (· = j)) (empty : tab j = none) (hole : j < m) (inside : i < m)
    (here : tab i = some e) (at_home : home e < m) (apart : ¬ Within m j (home e) i) :
    ReachOver m home (moved tab j i e) (· = i) := by
  have other : j ≠ i := by
    rintro rfl
    rw [empty] at here
    cases here
  have nearer := (hole_on_way hole at_home inside other).mp apart
  intro s bound e' there q bound' before
  by_cases last : q = i
  · exact Or.inr last
  · left
    by_cases filled : q = j
    · rw [filled, moved_filled other]
      exact Option.some_ne_none _
    · rw [moved_other filled last]
      rcases moved_some there with ⟨_, ⟨rfl, rfl⟩ | ⟨_, old⟩⟩
      · exact (reach i inside e' here q bound' (by omega)).resolve_right filled
      · exact (reach s bound e' old q bound' before).resolve_right filled

theorem moved_displacement (empty : tab j = none) (hole : j < m) (inside : i < m)
    (here : tab i = some e) (at_home : home e < m) (apart : ¬ Within m j (home e) i) :
    displacement m home (moved tab j i e) < displacement m home tab := by
  have other : j ≠ i := by
    rintro rfl
    rw [empty] at here
    cases here
  have nearer := (hole_on_way hole at_home inside other).mp apart
  have left : i ∈ Finset.range m := Finset.mem_range.mpr inside
  have right : j ∈ (Finset.range m).erase i := Finset.mem_erase.mpr ⟨other, Finset.mem_range.mpr hole⟩
  unfold displacement
  rw [← Finset.add_sum_erase _ _ left, ← Finset.add_sum_erase _ _ right,
    ← Finset.add_sum_erase _ (fun s => (tab s).elim 0 _) left,
    ← Finset.add_sum_erase _ (fun s => (tab s).elim 0 _) right, moved_hole, moved_filled other, here, empty]
  have rest : ∀ s ∈ ((Finset.range m).erase i).erase j,
      (moved tab j i e s).elim 0 (fun e => dist m (home e) s) = (tab s).elim 0 fun e => dist m (home e) s := by
    intro s member
    rw [Finset.mem_erase, Finset.mem_erase] at member
    rw [moved_other member.1 member.2.1]
  rw [Finset.sum_congr rfl rest]
  simp only [Option.elim_none, Option.elim_some]
  omega

theorem settled_reach (reach : ReachOver m home tab (· = j)) (settled : Settled m home tab j i) (hole : j < m)
    (homes : Homes m home tab) (inside : i < m) (empty : tab (succ m i) = none) : Reach m home tab := by
  intro s bound e there q bound' before
  left
  rcases reach s bound e there q bound' before with occupied | rfl
  · exact occupied
  -- the slots from the hole to `s` are occupied, so that `s` is among those settled
  · exfalso
    have at_home := homes e ⟨s, bound, there⟩
    have unlike : q ≠ s := by
      rintro rfl
      omega
    have apart := (hole_on_way hole at_home bound unlike).mpr before
    by_cases seen : dist m q s ≤ dist m q i
    · obtain ⟨e', there', within⟩ := settled s bound (dist_pos hole unlike) seen
      rw [there] at there'
      cases there'
      exact apart within
    · have onward : succ m i ≠ q := by
        intro same
        have := dist_last hole inside same
        have := dist_lt hole bound
        omega
      have next := dist_succ hole inside onward
      by_cases same : succ m i = s
      · rw [same, there] at empty
        cases empty
      · have bound'' := succ_lt inside
        have differs : dist m q (succ m i) ≠ dist m q s := fun h => same (dist_inj hole bound'' bound h)
        have way : dist m (home e) (succ m i) < dist m (home e) s := by
          have first := dist_trans at_home hole bound (by omega)
          have through : dist m (home e) (succ m i) = dist m (home e) q + dist m q (succ m i) := by
            have total := dist_lt at_home bound
            clear * - at_home hole bound bound'' next seen first total
            unfold dist at *
            split_ifs at * <;> omega
          omega
        rcases reach s bound e there (succ m i) bound'' way with occupied | no
        · exact occupied empty
        · exact onward no

theorem settled_succ (settled : Settled m home tab j i) (hole : j < m) (inside : i < m) (onward : succ m i ≠ j)
    (here : tab (succ m i) = some e) (within : Within m j (home e) (succ m i)) :
    Settled m home tab j (succ m i) := by
  intro s bound off before
  rw [dist_succ hole inside onward] at before
  by_cases same : s = succ m i
  · subst same
    exact ⟨e, here, within⟩
  · have unlike : dist m j s ≠ dist m j (succ m i) := fun h => same (dist_inj hole bound (succ_lt inside) h)
    rw [dist_succ hole inside onward] at unlike
    exact settled s bound off (by omega)

theorem settled_hole : Settled m home tab j j := by
  intro s bound off before
  rw [dist_self] at before
  omega

/-- What a deletion leaves. -/
structure Shifted (m : Nat) (home : α → Nat) (tab tab' : Nat → Option α) : Prop where
  reach : Reach m home tab'
  single : Single m tab'
  stored : ∀ e, Stored m tab' e ↔ Stored m tab e

/-- One round of the loop: it ends at an empty slot, passes an element that stays reachable, or takes one back. -/
theorem backshift_round (hole : j < m) (inside : i < m) (empty : tab j = none) (homes : Homes m home tab) (fuel : Nat) :
    tab (succ m i) = none ∧ backshift m home (fuel + 1) tab j i = tab ∨
      ∃ e, tab (succ m i) = some e ∧ j ≠ succ m i ∧ home e < m ∧
        (Within m j (home e) (succ m i) ∧
            backshift m home (fuel + 1) tab j i = backshift m home fuel tab j (succ m i) ∨
          ¬ Within m j (home e) (succ m i) ∧ backshift m home (fuel + 1) tab j i =
            backshift m home fuel (moved tab j (succ m i) e) (succ m i) (succ m i)) := by
  have bound := succ_lt inside
  rw [backshift]
  cases here : tab (succ m i) with
  | none => exact Or.inl ⟨rfl, rfl⟩
  | some e =>
    have at_home := homes e ⟨_, bound, here⟩
    have other : j ≠ succ m i := by
      intro same
      rw [← same, empty] at here
      cases here
    refine Or.inr ⟨e, rfl, other, at_home, ?_⟩
    dsimp only
    rw [← within_iff hole at_home bound]
    split
    next within => exact Or.inl ⟨within, rfl⟩
    next apart => exact Or.inr ⟨apart, rfl⟩

/-- With fuel for a turn after each move the loop ends at an empty slot, with every
    element reachable. -/
theorem backshift_shifted (fuel : Nat) : ∀ (tab : Nat → Option α) (j i : Nat), j < m → i < m → tab j = none →
    Homes m home tab → Single m tab → ReachOver m home tab (· = j) → Settled m home tab j i →
    m * displacement m home tab + m ≤ fuel + dist m j i →
    Shifted m home tab (backshift m home fuel tab j i) := by
  induction fuel with
  | zero =>
    intro tab j i hole inside empty homes single reach settled enough
    have := dist_lt hole inside
    omega
  | succ fuel ih =>
    intro tab j i hole inside empty homes single reach settled enough
    have bound := succ_lt inside
    rcases backshift_round hole inside empty homes fuel with
      ⟨ended, round⟩ | ⟨e, here, other, at_home, ⟨within, round⟩ | ⟨apart, round⟩⟩
    · rw [round]
      exact ⟨settled_reach reach settled hole homes inside ended, single, fun e => Iff.rfl⟩
    · rw [round]
      refine ih tab j _ hole bound empty homes single reach
        (settled_succ settled hole inside other.symm here within) ?_
      rw [dist_succ hole inside other.symm]
      omega
    · rw [round]
      have same := moved_stored hole empty bound here
      have less := moved_displacement empty hole bound here at_home apart
      have shifted := ih (moved tab j (succ m i) e) (succ m i) (succ m i) bound bound moved_hole
        (fun e' stored => homes e' ((same e').mp stored)) (moved_single single bound here)
        (moved_reach reach empty hole bound here at_home apart) settled_hole (by
          have turn := dist_lt hole inside
          have := Nat.mul_le_mul_left m (Nat.succ_le_of_lt less)
          rw [Nat.succ_eq_add_one, Nat.mul_add, Nat.mul_one] at this
          rw [dist_self]
          omega)
      exact ⟨shifted.reach, shifted.single, fun e' => (shifted.stored e').trans (same e')⟩

/-- The hole is on no way of the elements between it and a slot. -/
def Skipped (m : Nat) (home : α → Nat) (tab : Nat → Option α) (j k : Nat) : Prop :=
  ∀ s < m, 0 < dist m j s → dist m j s < dist m j k → ∀ e, tab s = some e → ¬ dist m (home e) j < dist m (home e) s

theorem skipped_of_settled (settled : Settled m home tab j i) (hole : j < m) (inside : i < m) (other : succ m i ≠ j)
    (homes : Homes m home tab) : Skipped m home tab j (succ m i) := by
  intro s bound off before e there way
  rw [dist_succ hole inside other] at before
  obtain ⟨e', there', within⟩ := settled s bound off (by omega)
  rw [there] at there'
  cases there'
  refine (hole_on_way hole (homes e ⟨s, bound, there⟩) bound ?_).mpr way within
  rintro rfl
  rw [dist_self] at off
  omega

/-- What each element taken back keeps true of the table and its hole holds at the end. -/
theorem backshift_keeps {I : (Nat → Option α) → Nat → Prop}
    (taken : ∀ tab j k e, j < m → k < m → tab j = none → Homes m home tab → Skipped m home tab j k →
      tab k = some e → dist m (home e) j < dist m (home e) k → I tab j → I (moved tab j k e) k)
    (fuel : Nat) : ∀ (tab : Nat → Option α) (j i : Nat), j < m → i < m → tab j = none → Homes m home tab →
    Settled m home tab j i → I tab j → ∃ h < m, I (backshift m home fuel tab j i) h := by
  induction fuel with
  | zero => exact fun tab j i hole _ _ _ _ holds => ⟨j, hole, holds⟩
  | succ fuel ih =>
    intro tab j i hole inside empty homes settled holds
    have bound := succ_lt inside
    rcases backshift_round hole inside empty homes fuel with
      ⟨_, round⟩ | ⟨e, here, other, at_home, ⟨within, round⟩ | ⟨apart, round⟩⟩
    · rw [round]
      exact ⟨j, hole, holds⟩
    · rw [round]
      exact ih tab j _ hole bound empty homes (settled_succ settled hole inside other.symm here within) holds
    · rw [round]
      rw [hole_on_way hole at_home bound other] at apart
      exact ih (moved tab j (succ m i) e) _ _ bound bound moved_hole
        (fun e' stored => homes e' ((moved_stored hole empty bound here e').mp stored)) settled_hole
        (taken tab j _ e hole bound empty homes (skipped_of_settled settled hole inside other.symm homes) here apart
          holds)

/-- What is known of every element in its slot. -/
def Placed (m : Nat) (tab : Nat → Option α) (P : Nat → α → Prop) : Prop := ∀ s < m, ∀ e, tab s = some e → P s e

theorem moved_placed {P : Nat → α → Prop} (inside : i < m) (here : tab i = some e) (nearer : P i e → P j e)
    (placed : Placed m tab P) : Placed m (moved tab j i e) P := by
  intro s bound e' there
  rcases moved_some there with ⟨_, ⟨rfl, rfl⟩ | ⟨_, old⟩⟩
  · exact nearer (placed i inside e' here)
  · exact placed s bound e' old

/-- What stays known of an element in every slot nearer to its home holds after a deletion as well. -/
theorem backshift_nearer {P : Nat → α → Prop}
    (nearer : ∀ e, home e < m → ∀ i < m, ∀ j < m, dist m (home e) j < dist m (home e) i → P i e → P j e)
    (fuel : Nat) (hole : j < m) (empty : tab j = none) (homes : Homes m home tab) (placed : Placed m tab P) :
    Placed m (backshift m home fuel tab j j) P := by
  obtain ⟨_, _, kept⟩ := backshift_keeps (I := fun tab _ => Placed m tab P)
    (fun tab j k e hole inside _ homes _ here less placed =>
      moved_placed inside here (nearer e (homes e ⟨_, inside, here⟩) _ inside _ hole less) placed)
    fuel tab j j hole hole empty homes settled_hole placed
  exact kept

/-- The slots behind one that is on the way of no element there stay as they are. -/
theorem backshift_behind (fuel : Nat) (slot : k < m) (empty : tab k = none) (homes : Homes m home tab)
    (clear : ∀ s < m, k < s → ∀ e, tab s = some e → ¬ dist m (home e) k < dist m (home e) s)
    {s : Nat} (bound : s < m) (behind : k < s) : backshift m home fuel tab k k s = tab s := by
  obtain ⟨_, _, _, kept⟩ := backshift_keeps (I := fun tab' j => j ≤ k ∧ ∀ s < m, k < s → tab' s = tab s)
    (fun tab' j i e hole inside empty homes _ here less ⟨low, same⟩ => by
      -- a way from before the hole to a slot behind `k` leads over `k`
      have before : i ≤ k := by
        by_contra later
        have at_home := homes e ⟨_, inside, here⟩
        refine clear _ inside (by omega) e ((same _ inside (by omega)).symm.trans here) ?_
        unfold dist at less ⊢
        split_ifs at less ⊢ <;> omega
      exact ⟨before, fun s bound behind => (moved_other (by omega) (by omega)).trans (same s bound behind)⟩)
    fuel tab k k slot slot empty homes settled_hole ⟨le_rfl, fun _ _ _ => rfl⟩
  exact kept s bound behind

/-- Some slot is on no element's way. -/
def ClearAt (m : Nat) (home : α → Nat) (g : Nat) (tab : Nat → Option α) : Prop :=
  Placed m tab fun s e => ¬ dist m (home e) g < dist m (home e) s

theorem clear_insert (reach : Reach m home tab) (inside : k < m) (hole : tab k = none) (e : α) :
    ClearAt m home k (Function.update tab k (some e)) := by
  intro s bound e' there before
  by_cases same : s = k
  · subst same
    exact Nat.lt_irrefl _ before
  · rw [Function.update_of_ne same] at there
    exact (reach s bound e' there k inside before).elim (· hole) id

/-- Between the home and a slot behind it there are only slots from the home on. -/
theorem nearer_low {r s : Nat} (bound : s < m) (low : r ≤ s) (less : dist m r j < dist m r s) :
    r ≤ j ∧ j < s := by
  unfold dist at less
  split_ifs at less <;> omega

theorem way_within {r g : Nat} (start : r < m) (bound : g < m) (inside : i < m) (low : j ≤ g)
    (less : dist m r j < dist m r i) (clear : ¬ dist m r g < dist m r i) : j < i ∧ i ≤ g := by
  rw [not_lt] at clear
  unfold dist at less clear
  split_ifs at less clear <;> omega

theorem clear_moved {g : Nat} (inside : i < m) (here : tab i = some e)
    (less : dist m (home e) j < dist m (home e) i) (clear : ClearAt m home g tab) : ClearAt m home g (moved tab j i e) :=
  moved_placed inside here (fun clear before => clear (by omega)) clear

/-- A deletion frees one slot. It is not before the hole if both are up to a slot that is on no way. -/
theorem backshift_frees (fuel : Nat) (hole : j < m) (empty : tab j = none) (homes : Homes m home tab) :
    ∃ h < m, (∀ s, backshift m home fuel tab j j s = none ↔ s = h ∨ s ≠ j ∧ tab s = none) ∧
      ∀ g < m, j ≤ g → ClearAt m home g tab → j ≤ h := by
  obtain ⟨h, bound, ⟨freed, _⟩, low⟩ := backshift_keeps
    (I := fun tab' h => ((∀ s, tab' s = none ↔ s = h ∨ s ≠ j ∧ tab s = none) ∧ (h = j ∨ tab h ≠ none)) ∧
      ∀ g < m, j ≤ g → ClearAt m home g tab → ClearAt m home g tab' ∧ j ≤ h ∧ h ≤ g)
    (fun tab' h i e hole inside empty homes _ here less ⟨⟨freed, taken⟩, low⟩ => by
      have other : h ≠ i := by
        rintro rfl
        rw [empty] at here
        cases here
      refine ⟨⟨fun s => ?_, ?_⟩, fun g bound up clear => ?_⟩
      · by_cases old : s = i
        · simp [old, moved_hole]
        · by_cases new : s = h
          · subst new
            simpa [moved_filled other, old, imp_iff_not_or] using taken
          · rw [moved_other new old, freed s]
            simp [old, new]
      · have full : tab' i ≠ none := by rw [here]; exact Option.some_ne_none _
        rw [Ne, freed, not_or, not_and_or, not_not] at full
        exact full.2
      · obtain ⟨clear', first, last⟩ := low g bound up clear
        obtain ⟨after, up'⟩ := way_within (homes e ⟨_, inside, here⟩) bound inside last less (clear' _ inside e here)
        exact ⟨clear_moved inside here less clear', by omega, up'⟩)
    fuel tab j j hole hole empty homes settled_hole
    ⟨⟨fun s => by by_cases same : s = j <;> simp [same, empty], Or.inl rfl⟩,
      fun g _ up clear => ⟨clear, le_rfl, up⟩⟩
  exact ⟨h, bound, freed, fun g inside up clear => (low g inside up clear).2.1⟩

theorem backshift_first (fuel : Nat) {s : Nat} (bound : s < m) (there : tab s = some e) (empty : tab j = none)
    (way : dist m (home e) j < dist m (home e) s) (hole : j < m) (homes : Homes m home tab) :
    ∀ i, j ≤ i → i < s → (∀ q, i < q → q ≤ s → tab q ≠ none) → s ≤ fuel + i →
    ∃ fuel' k z, i < k ∧ k ≤ s ∧ tab k = some z ∧ dist m (home z) j < dist m (home z) k ∧
      backshift m home fuel tab j i = backshift m home fuel' (moved tab j k z) k k := by
  induction fuel with
  | zero => intro i _ lt _ enough; omega
  | succ fuel ih =>
    intro i low lt full enough
    have next : succ m i = i + 1 := if_neg (by omega)
    rcases backshift_round (i := i) hole (by omega) empty homes fuel with
      ⟨ended, _⟩ | ⟨z, here, other, at_home, ⟨within, round⟩ | ⟨apart, round⟩⟩
    · rw [next] at ended
      exact absurd ended (full (i + 1) (by omega) (by omega))
    · rw [next] at here within round
      rw [round]
      have more : i + 1 ≠ s := by
        intro last
        rw [last, there] at here
        cases here
        rw [last] at within
        exact (hole_on_way hole at_home bound (by omega)).mpr way within
      obtain ⟨fuel', k, z', before, rest⟩ := ih (i + 1) (by omega) (by omega) (fun q lt => full q (by omega)) (by omega)
      exact ⟨fuel', k, z', by omega, rest⟩
    · rw [hole_on_way hole at_home (succ_lt (by omega)) other] at apart
      rw [next] at here apart round
      exact ⟨fuel, i + 1, z, by omega, by omega, here, apart, round⟩

theorem emptied_some {s : Nat} {e' : α} (there : Function.update tab i none s = some e') : s ≠ i ∧ tab s = some e' := by
  have other : s ≠ i := by
    rintro rfl
    rw [Function.update_self] at there
    cases there
  rw [Function.update_of_ne other] at there
  exact ⟨other, there⟩

theorem clear_delete {g : Nat} (clear : ClearAt m home g tab) (homes : Homes m home tab) (inside : i < m) (fuel : Nat) :
    ClearAt m home g (backshift m home fuel (Function.update tab i none) i i) := by
  refine backshift_nearer (fun e _ s _ j _ less clear before => clear (by omega)) fuel inside
    (Function.update_self ..) ?_ fun s bound e there => clear s bound e (emptied_some there).2
  rintro e ⟨s, bound, there⟩
  exact homes e ⟨s, bound, (emptied_some there).2⟩

theorem displacement_le (homes : Homes m home tab) : displacement m home tab ≤ m * m := by
  unfold displacement
  have each : ∀ s ∈ Finset.range m, (tab s).elim 0 (fun e => dist m (home e) s) ≤ m := by
    intro s member
    rw [Finset.mem_range] at member
    cases there : tab s with
    | none => exact Nat.zero_le _
    | some e => exact (dist_lt (homes e ⟨s, member, there⟩) member).le
  calc _ ≤ (Finset.range m).card • m := Finset.sum_le_card_nsmul _ _ _ each
    _ = m * m := by rw [Finset.card_range, smul_eq_mul]

/-- The steps a deletion takes at most. -/
def fuel (m : Nat) : Nat := m * (m * m) + m

theorem delete_shifted (inside : i < m) (here : tab i = some e) (homes : Homes m home tab) (single : Single m tab)
    (reach : Reach m home tab) :
    let tab' := backshift m home (fuel m) (Function.update tab i none) i i
    Reach m home tab' ∧ Single m tab' ∧ ∀ e', Stored m tab' e' ↔ Stored m tab e' ∧ e' ≠ e := by
  have stored : ∀ e', Stored m (Function.update tab i none) e' ↔ Stored m tab e' ∧ e' ≠ e := by
    intro e'
    constructor
    · rintro ⟨s, bound, there⟩
      obtain ⟨other, before⟩ := emptied_some there
      refine ⟨⟨s, bound, before⟩, ?_⟩
      rintro rfl
      exact other (single s bound i inside _ before here)
    · rintro ⟨⟨s, bound, there⟩, unlike⟩
      have other : s ≠ i := by
        rintro rfl
        rw [here] at there
        cases there
        exact unlike rfl
      exact ⟨s, bound, by rw [Function.update_of_ne other]; exact there⟩
  have homes' : Homes m home (Function.update tab i none) := fun e' h => homes e' ((stored e').mp h).1
  have shifted := backshift_shifted (fuel m) (Function.update tab i none) i i inside inside (Function.update_self ..)
    homes'
    (by
      intro s bound q bound' e' there there'
      exact single s bound q bound' e' (emptied_some there).2 (emptied_some there').2)
    (by
      intro s bound e' there q bound' before
      by_cases same : q = i
      · exact Or.inr same
      · left
        rw [Function.update_of_ne same]
        exact (reach s bound e' (emptied_some there).2 q bound' before).resolve_right id)
    settled_hole
    (by
      have := Nat.mul_le_mul_left m (displacement_le homes')
      rw [dist_self, fuel]
      omega)
  exact ⟨shifted.reach, shifted.single, fun e' => (shifted.stored e').trans (stored e')⟩
end
end Mailutils.OpenAddressing

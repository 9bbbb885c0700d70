import Mailutils.OpenAddressing
import Mathlib.Data.Finset.Card
import Mathlib.Order.Interval.Finset.Nat

/-!
Deletion of the marked elements of a table in one pass over its slots, from the last to the first. A marked element in
a slot before its home is deleted in its turn, unless a deletion before it takes it over the end of the table to a slot
behind. It stays before its home just if the slots from its home to the end are filled without it (`Filled`).
-/
namespace Mailutils.OpenAddressing

section
variable {α : Type*}

/-- An element is in a slot of the table. -/
def In (m : Nat) (tab : Nat → Option α) (s : Nat) (e : α) : Prop := s < m ∧ tab s = some e

/-- Each slot from `h` to the last is the end of some span for which there are more elements than slots before it:
    unmarked ones with their home in the span that are not before their home or are before slot `s`. -/
def Filled (m : Nat) (home : α → Nat) (mark : α → Bool) (tab : Nat → Option α) (s h : Nat) : Prop :=
  ∀ p < m, h ≤ p → ∃ a ≤ p, p - a < ((Finset.range m).filter fun q =>
    ∃ e ∈ tab q, mark e = false ∧ a ≤ home e ∧ home e ≤ p ∧ (home e ≤ q ∨ q < s)).card

/-- Some marked element before its home is not kept there. -/
def Unfilled (m : Nat) (home : α → Nat) (mark : α → Bool) (tab : Nat → Option α) : Prop :=
  ∃ s e, In m tab s e ∧ mark e ∧ s < home e ∧ ¬ Filled m home mark tab s (home e)

/-- The table `tab'` with its hole, when the slots from `i` on have been looked at in `tab`. A marked element before
    its home is kept there by a slot `b`: what is behind `b` has its home there. -/
structure Sweeping (m : Nat) (home : α → Nat) (mark : α → Bool) (tab : Nat → Option α) (g i : Nat)
    (tab' : Nat → Option α) (hole : Nat) : Prop where
  old : ∀ {s e}, In m tab' s e → Stored m tab e
  kept : ∀ {e}, Stored m tab e → mark e = false → Stored m tab' e
  natural : ∀ {s e}, In m tab s e → home e ≤ s → ∀ {s'}, In m tab' s' e → home e ≤ s'
  order : ∀ {s e}, In m tab s e → ∀ {t w}, In m tab t w → s < t → t < home w →
    ∀ {s'}, In m tab' s' e → s' < home e → ∀ {t'}, In m tab' t' w → t' < home w → s' < t'
  ahead : ∀ {s e}, In m tab s e → mark e → ∀ {s'}, In m tab' s' e → s' < i ∧ (s < home e → s' < home e)
  kept_by : ∀ {s w}, In m tab s w → mark w → s < home w → Stored m tab' w →
    ∃ b < home w, g ≤ b ∧ (b = g ∨ i ≤ b ∧ hole ≤ b) ∧
      ∀ {q e}, In m tab' q e → b < q → b < home e ∧ ∀ {t}, In m tab t e → t < home e → t < s
  done : ∀ {s w}, In m tab s w → mark w → s < home w → ¬ Stored m tab' w → Filled m home mark tab s (home w)

/-- A marked element is in a slot that has been looked at, and cannot leave those. -/
def Lost (m : Nat) (home : α → Nat) (mark : α → Bool) (g i : Nat) (tab : Nat → Option α) : Prop :=
  ∃ s e, In m tab s e ∧ mark e ∧ g < home e ∧ home e ≤ s ∧ i ≤ s

/-- Where the pass stands: no marked element is lost, or one is; `g` is a slot that is on no way. -/
structure Swept (m : Nat) (home : α → Nat) (mark : α → Bool) (tab : Nat → Option α) (g i : Nat)
    (tab' : Nat → Option α) (hole : Nat) : Prop where
  clear : ClearAt m home g tab'
  side : hole ≤ g ∨ i ≤ hole
  state : Sweeping m home mark tab g i tab' hole ∨ Lost m home mark g i tab' ∧ Unfilled m home mark tab

variable {m : Nat} {home : α → Nat} {mark : α → Bool} {tab tab' : Nat → Option α} {g i j k : Nat} {e : α}

theorem In.unique (single : Single m tab) {s t : Nat} (here : In m tab s e) (there : In m tab t e) : s = t :=
  single s here.1 t there.1 e here.2 there.2

theorem in_moved {s : Nat} {e' : α} (there : In m (moved tab j k e) s e') :
    s = j ∧ e' = e ∨ In m tab s e' := by
  rcases moved_some there.2 with ⟨_, ⟨rfl, rfl⟩ | ⟨_, old⟩⟩
  · exact Or.inl ⟨rfl, rfl⟩
  · exact Or.inr ⟨there.1, old⟩

/-- There are no more elements than slots in which they are found. -/
theorem card_le_of_found {A B : Finset Nat} (single : Single m tab) (tab' : Nat → Option α)
    (found : ∀ q ∈ A, ∃ q' ∈ B, ∃ e, In m tab q e ∧ tab' q' = some e) : A.card ≤ B.card := by
  choose! f into same using found
  refine Finset.card_le_card_of_injOn f into fun q member q' member' alike => ?_
  obtain ⟨e, here, there⟩ := same q member
  obtain ⟨e', here', there'⟩ := same q' member'
  rw [alike, there'] at there
  cases there
  exact here.unique single here'

/-- An element behind a slot that is on no way has its home there too, and is not before it. -/
theorem natural_of_clear (clear : ClearAt m home g tab) {s : Nat} (here : In m tab s e) (behind : g < s)
    (at_home : home e < m) : g < home e ∧ home e ≤ s := by
  have off := not_lt.mp (clear s here.1 e here.2)
  unfold dist at off
  split_ifs at off <;> omega

theorem way_beyond {r : Nat} (start : r < m) (less : dist m r j < dist m r k)
    (clear : ¬ dist m r g < dist m r k) (beyond : g < j) : g < r ∧ r ≤ j ∧ (j < k ∨ k ≤ g) := by
  rw [not_lt] at clear
  unfold dist at less clear
  split_ifs at less clear <;> omega

/-- The elements passed over before the one taken: none before the hole has its way over it. -/
theorem Skipped.home_gt (skipped : Skipped m home tab j k) {s : Nat} (here : In m tab s e) (hole : j < m)
    (at_home : home e < m) (up : j < s ∧ (s < k ∨ k < j) ∧ home e ≤ s ∨ s < k ∧ k < j ∧ s < home e) : j < home e := by
  obtain ⟨bound, here⟩ := here
  have off := fun start before => skipped s bound start before e here
  unfold dist at off
  split_ifs at off <;> omega

theorem Skipped.not_between (skipped : Skipped m home tab j k) {s : Nat} (here : In m tab s e) (wrapped : s < home e)
    (at_home : home e < m) (after : j < s) : ¬ s < k := by
  obtain ⟨bound, here⟩ := here
  have off := fun start before => skipped s bound start before e here
  unfold dist at off
  split_ifs at off <;> omega

/-- The element `e` of slot `k` is the one that is taken back to the hole `j`. -/
structure Taken (m : Nat) (home : α → Nat) (tab : Nat → Option α) (j k : Nat) (e : α) : Prop where
  hole : j < m
  here : In m tab k e
  empty : tab j = none
  homes : Homes m home tab
  skipped : Skipped m home tab j k
  way : dist m (home e) j < dist m (home e) k

theorem Taken.home_lt (taken : Taken m home tab j k e) {s : Nat} {e' : α} (there : In m tab s e') : home e' < m :=
  taken.homes e' ⟨s, there⟩

theorem Taken.ne_hole (taken : Taken m home tab j k e) {s : Nat} {e' : α} (there : In m tab s e') : s ≠ j := by
  rintro rfl
  have := taken.empty.symm.trans there.2
  cases this

/-- An element that is still before its home was so, in a later slot. -/
theorem Taken.wrapped (taken : Taken m home tab j k e) (low : j < home e) : j < k ∧ k < home e := by
  have way := taken.way
  have slot := taken.here.1
  have at_home := taken.home_lt taken.here
  unfold dist at way
  split_ifs at way <;> omega

/-- Where a marked element is taken over the end, the elements of each span up to the hole have slots before it. -/
theorem Sweeping.unfilled (sw : Sweeping m home mark tab g i tab' j) (taken : Taken m home tab' j k e)
    (single : Single m tab) (marked : mark e) (beyond : g < j) (front : k ≤ g) (behind : g < home e)
    (up : home e ≤ j) : Unfilled m home mark tab := by
  obtain ⟨s, there⟩ := sw.old taken.here
  have wrapped : s < home e := by
    by_contra low
    have := sw.natural there (not_lt.mp low) taken.here
    omega
  refine ⟨s, e, there, marked, wrapped, fun filled => ?_⟩
  obtain ⟨a, first, more⟩ := filled j taken.hole up
  rw [← Nat.card_Ico, ← not_le] at more
  refine more (card_le_of_found single tab' fun q member => ?_)
  simp only [Finset.mem_filter, Finset.mem_range] at member
  obtain ⟨bound, u, at_q, unmarked, from_a, to_j, firm⟩ := member
  obtain ⟨q', found⟩ := sw.kept ⟨q, bound, at_q⟩ unmarked
  have at_home := taken.home_lt found
  have low : home u ≤ q' := by
    by_contra high
    rw [not_le] at high
    rcases firm with low | before
    · exact absurd (sw.natural ⟨bound, at_q⟩ low found) (not_le.mpr high)
    · have less := sw.order ⟨bound, at_q⟩ there before wrapped found high taken.here (by omega)
      have := taken.skipped.home_gt found taken.hole at_home (Or.inr ⟨less, by omega, high⟩)
      omega
  have before : q' < j := by
    by_contra after
    have := taken.ne_hole found
    have := taken.skipped.home_gt found taken.hole at_home (Or.inl ⟨by omega, by omega, low⟩)
    omega
  exact ⟨q', Finset.mem_Ico.mpr ⟨by omega, before⟩, u, ⟨bound, at_q⟩, found.2⟩

/-- The slot that keeps a marked element before its home, after an element has been taken back: the hole, where one
    that was behind the marked one has come over the end. -/
theorem Sweeping.step_kept_by (sw : Sweeping m home mark tab g i tab' j) (taken : Taken m home tab' j k e)
    (clear : ClearAt m home g tab') (low : j ≤ g ∨ i ≤ j) (stay : mark e → j ≤ g)
    {s : Nat} {w : α} (there : In m tab s w) (marked : mark w) (wrapped : s < home w) (stored : Stored m tab' w) :
    ∃ b < home w, g ≤ b ∧ (b = g ∨ i ≤ b ∧ k ≤ b) ∧
      ∀ {q u}, In m (moved tab' j k e) q u → b < q → b < home u ∧ ∀ {t}, In m tab t u → t < home u → t < s := by
  obtain ⟨b, before, from_g, which, behind⟩ := sw.kept_by there marked wrapped stored
  have at_home := taken.home_lt taken.here
  have off := clear k taken.here.1 e taken.here.2
  by_cases up : j ≤ b
  · refine ⟨b, before, from_g, which.imp id fun seen => ⟨seen.1, ?_⟩, ?_⟩
    · by_contra later
      rw [not_le] at later
      have := (behind taken.here later).1
      have low := (natural_of_clear clear taken.here (by omega) at_home).2
      have := nearer_low taken.here.1 low taken.way
      omega
    · intro q u at_q later
      rcases in_moved at_q with ⟨rfl, _⟩ | old
      · omega
      · exact behind old later
  · obtain rfl : b = g := by omega
    obtain ⟨from_home, to_hole, side⟩ := way_beyond at_home taken.way off (by omega)
    by_cases earlier : ∀ {t}, In m tab t e → t < home e → t < s
    · refine ⟨b, before, le_rfl, Or.inl rfl, ?_⟩
      intro q u at_q later
      rcases in_moved at_q with ⟨_, rfl⟩ | old
      · exact ⟨from_home, earlier⟩
      · exact behind old later
    · push Not at earlier
      obtain ⟨t, at_t, wrapped', after⟩ := earlier
      have front : k ≤ b := by
        by_contra later
        exact absurd ((behind taken.here (not_le.mp later)).2 at_t wrapped') (not_lt.mpr after)
      have other : s ≠ t := by
        rintro rfl
        have same := there.2.symm.trans at_t.2
        cases same
        exact up (stay marked)
      obtain ⟨s', found⟩ := stored
      have high := (sw.ahead there marked found).2 wrapped
      have less := sw.order there at_t (by omega) wrapped' found high taken.here (by omega)
      have beyond := taken.skipped.home_gt found taken.hole (taken.home_lt found) (Or.inr ⟨less, by omega, high⟩)
      refine ⟨j, beyond, by omega, Or.inr ⟨by omega, by omega⟩, ?_⟩
      intro q u at_q later
      rcases in_moved at_q with ⟨rfl, _⟩ | old
      · omega
      · have at_home := taken.home_lt old
        have low := (natural_of_clear clear old (by omega) at_home).2
        exact ⟨taken.skipped.home_gt old taken.hole at_home (Or.inl ⟨later, by omega, low⟩), (behind old (by omega)).2⟩

theorem Sweeping.step (sw : Sweeping m home mark tab g i tab' j) (taken : Taken m home tab' j k e)
    (single : Single m tab) (clear : ClearAt m home g tab') (low : j ≤ g ∨ i ≤ j) (bound : g < m)
    (stay : mark e → j ≤ g) : Sweeping m home mark tab g i (moved tab' j k e) k where
  old := by
    intro s u there
    rcases in_moved there with ⟨_, rfl⟩ | there
    · exact sw.old taken.here
    · exact sw.old there
  kept := by
    intro u stored unmarked
    exact (moved_stored taken.hole taken.empty taken.here.1 taken.here.2 u).mpr (sw.kept stored unmarked)
  natural := by
    intro s u there at_home s' there'
    rcases in_moved there' with ⟨rfl, rfl⟩ | there'
    · exact (nearer_low taken.here.1 (sw.natural there at_home taken.here) taken.way).1
    · exact sw.natural there at_home there'
  order := by
    intro s u at_s t w at_t before wrapped s' at_s' high t' at_t' high'
    rcases in_moved at_s' with ⟨rfl, rfl⟩ | old
    · obtain ⟨later, high''⟩ := taken.wrapped high
      rcases in_moved at_t' with ⟨_, rfl⟩ | old'
      · have := at_s.unique single at_t
        omega
      · exact later.trans (sw.order at_s at_t before wrapped taken.here high'' old' high')
    · rcases in_moved at_t' with ⟨rfl, rfl⟩ | old'
      · obtain ⟨_, high''⟩ := taken.wrapped high'
        have less := sw.order at_s at_t before wrapped old high taken.here high''
        have := taken.ne_hole old
        by_contra after
        exact taken.skipped.not_between old high (taken.home_lt old) (by omega) less
      · exact sw.order at_s at_t before wrapped old high old' high'
  ahead := by
    intro s u there marked s' there'
    rcases in_moved there' with ⟨rfl, rfl⟩ | there'
    · obtain ⟨first, high⟩ := sw.ahead there marked taken.here
      have := way_within (taken.home_lt taken.here) bound taken.here.1 (stay marked) taken.way
        (clear k taken.here.1 u taken.here.2)
      exact ⟨by omega, fun wrapped => by have := high wrapped; omega⟩
    · exact sw.ahead there marked there'
  kept_by := by
    intro s w there marked wrapped stored
    rw [moved_stored taken.hole taken.empty taken.here.1 taken.here.2] at stored
    exact sw.step_kept_by taken clear low stay there marked wrapped stored
  done := by
    intro s w there marked wrapped gone
    rw [moved_stored taken.hole taken.empty taken.here.1 taken.here.2] at gone
    exact sw.done there marked wrapped gone

private theorem run_start {b h p : Nat} (before : b < h) (full : ∀ q, h ≤ q → q ≤ p → tab q ≠ none) :
    ∃ a ≤ h, b < a ∧ (∀ q, a ≤ q → q ≤ p → tab q ≠ none) ∧ (b + 1 < a → tab (a - 1) = none) := by
  induction h with
  | zero => exact absurd before (Nat.not_lt_zero b)
  | succ h ih =>
    by_cases last : b < h ∧ tab h ≠ none
    · obtain ⟨a, least, rest⟩ := ih last.1 fun q low up => by
        rcases Nat.eq_or_lt_of_le low with rfl | low
        · exact last.2
        · exact full q low up
      exact ⟨a, by omega, rest⟩
    · refine ⟨h + 1, le_rfl, before, full, fun early => ?_⟩
      exact not_not.mp fun occupied => last ⟨by omega, occupied⟩

/-- A marked element that comes to its turn before its home was kept there by elements that fill the slots from its
    home on. -/
theorem Sweeping.filled (sw : Sweeping m home mark tab g (i + 1) tab' (i + 1)) (single : Single m tab')
    (clear : ClearAt m home g tab') (reach : Reach m home tab') (homes : Homes m home tab') {s : Nat}
    (there : In m tab s e) (marked : mark e) (wrapped : s < home e) (here : In m tab' i e) :
    Filled m home mark tab s (home e) := by
  have high := (sw.ahead there marked here).2 wrapped
  have at_home := homes e ⟨i, here⟩
  obtain ⟨b, before, from_g, _, behind⟩ := sw.kept_by there marked wrapped ⟨i, here⟩
  have front : i ≤ g := by
    by_contra later
    have := natural_of_clear clear here (by omega) at_home
    omega
  have in_use {u : α} {q p : Nat} (at_q : In m tab' q u) (bound : p < m)
      (between : home u ≤ p ∧ (p < q ∨ q < home u)) : tab' p ≠ none := by
    have at_home := homes u ⟨q, at_q⟩
    refine (reach q at_q.1 u at_q.2 p bound ?_).resolve_right id
    unfold dist
    split_ifs <;> omega
  intro p bound from_home
  obtain ⟨a, least, after, full, start⟩ := run_start before fun q (low : home e ≤ q) (up : q ≤ p) =>
    in_use here (by omega) ⟨low, Or.inr high⟩
  refine ⟨a, by omega, ?_⟩
  have length : p - a < (Finset.Icc a p).card := by rw [Nat.card_Icc]; omega
  refine lt_of_lt_of_le length (card_le_of_found single tab fun q member => ?_)
  rw [Finset.mem_Icc] at member
  obtain ⟨u, at_q⟩ := Option.ne_none_iff_exists'.mp (full q member.1 member.2)
  have at_q : In m tab' q u := ⟨by omega, at_q⟩
  obtain ⟨later, first⟩ := behind at_q (by omega)
  obtain ⟨t, at_t⟩ := sw.old at_q
  have low := (natural_of_clear clear at_q (by omega) (homes u ⟨q, at_q⟩)).2
  have from_a : a ≤ home u := by
    by_contra outside
    exact in_use at_q (by omega) ⟨by omega, Or.inl (by omega)⟩ (start (by omega))
  have unmarked : mark u = false := by
    by_contra marked'
    have := (sw.ahead at_t (Bool.eq_true_of_not_eq_false marked') at_q).1
    omega
  refine ⟨t, ?_, u, at_q, at_t.2⟩
  simp only [Finset.mem_filter, Finset.mem_range]
  exact ⟨at_t.1, u, at_t.2, unmarked, from_a, by omega, (le_or_gt (home u) t).imp id (first at_t)⟩

theorem Swept.step (swept : Swept m home mark tab g i tab' j) (taken : Taken m home tab' j k e)
    (single : Single m tab) (bound : g < m) : Swept m home mark tab g i (moved tab' j k e) k := by
  obtain ⟨clear, side, state⟩ := swept
  have at_home := taken.home_lt taken.here
  have off := clear k taken.here.1 e taken.here.2
  have other := taken.ne_hole taken.here
  refine ⟨clear_moved taken.here.1 taken.here.2 taken.way clear, ?_, ?_⟩
  · by_cases low : j ≤ g
    · exact Or.inl (way_within at_home bound taken.here.1 low taken.way off).2
    · have := way_beyond at_home taken.way off (not_le.mp low)
      omega
  · rcases state with sw | ⟨⟨s, z, there, marked, behind, low, seen⟩, unfilled⟩
    · by_cases stay : mark e → j ≤ g
      · exact Or.inl (sw.step taken single clear side bound stay)
      · push Not at stay
        obtain ⟨marked, beyond⟩ := stay
        obtain ⟨behind, up, far⟩ := way_beyond at_home taken.way off beyond
        obtain ⟨s, there⟩ := sw.old taken.here
        have := (sw.ahead there marked taken.here).1
        exact Or.inr ⟨⟨j, e, ⟨taken.hole, moved_filled other.symm⟩, marked, behind, up, by omega⟩,
          sw.unfilled taken single marked beyond (by omega) behind up⟩
    · refine Or.inr ⟨?_, unfilled⟩
      by_cases same : s = k
      · subst same
        have := there.2.symm.trans taken.here.2
        cases this
        have := nearer_low taken.here.1 low taken.way
        exact ⟨j, e, ⟨taken.hole, moved_filled other.symm⟩, marked, behind, by omega, by omega⟩
      · exact ⟨s, z, ⟨there.1, (moved_other (taken.ne_hole there) same).trans there.2⟩, marked, behind, low, seen⟩

/-- The next slot has been looked at: it has no marked element, or has been emptied. -/
theorem Swept.next (swept : Swept m home mark tab g (i + 1) tab' (i + 1)) {tab'' : Nat → Option α}
    (single : Single m tab') (reach : Reach m home tab') (homes : Homes m home tab')
    (old : ∀ {s e}, In m tab'' s e → In m tab' s e) (unmarked : ∀ {e}, In m tab'' i e → mark e = false)
    (kept : ∀ {s e}, In m tab' s e → mark e = false ∨ s ≠ i → In m tab'' s e) : Swept m home mark tab g i tab'' i := by
  obtain ⟨clear, _, state⟩ := swept
  refine ⟨fun s bound e there => clear s bound e (old ⟨bound, there⟩).2, Or.inr le_rfl, state.imp (fun sw => ?_) ?_⟩
  · refine ⟨fun there => sw.old (old there), fun stored no => ?_,
      fun there low _ there' => sw.natural there low (old there'),
      fun at_s _ _ at_t before high _ at_s' high' _ at_t' =>
        sw.order at_s at_t before high (old at_s') high' (old at_t'),
      fun {s w} there marked s' there' => ?_, fun there marked high stored => ?_,
      fun {s w} there marked high gone => ?_⟩
    · obtain ⟨s, there⟩ := sw.kept stored no
      exact ⟨s, kept there (Or.inl no)⟩
    · obtain ⟨before, high⟩ := sw.ahead there marked (old there')
      refine ⟨?_, high⟩
      have : s' ≠ i := by
        rintro rfl
        exact absurd (unmarked there') (ne_false_of_eq_true marked)
      omega
    · obtain ⟨s, there'⟩ := stored
      obtain ⟨b, before, from_g, which, behind⟩ := sw.kept_by there marked high ⟨s, old there'⟩
      exact ⟨b, before, from_g, which.imp id (by omega), fun at_q => behind (old at_q)⟩
    · by_cases stored : Stored m tab' w
      · obtain ⟨s', there'⟩ := stored
        by_cases same : s' = i
        · exact sw.filled single clear reach homes there marked high (same ▸ there')
        · exact absurd ⟨s', kept there' (Or.inr same)⟩ gone
      · exact sw.done there marked high stored
  · rintro ⟨⟨s, e, there, rest⟩, unfilled⟩
    exact ⟨⟨s, e, kept there (Or.inr (by omega)), rest.1, rest.2.1, rest.2.2.1, by omega⟩, unfilled⟩

theorem Swept.delete (swept : Swept m home mark tab g (i + 1) tab' (i + 1)) (single : Single m tab) (bound : g < m)
    (single' : Single m tab') (reach : Reach m home tab') (homes : Homes m home tab') (here : In m tab' i e)
    (marked : mark e) (fuel : Nat) :
    Swept m home mark tab g i (backshift m home fuel (Function.update tab' i none) i i) i := by
  have emptied : Swept m home mark tab g i (Function.update tab' i none) i := by
    refine swept.next single' reach homes (fun there => ⟨there.1, (emptied_some there.2).2⟩)
      (fun there => absurd rfl (emptied_some there.2).1) fun {s u} there other => ⟨there.1, ?_⟩
    rw [Function.update_of_ne, there.2]
    rintro rfl
    have same := there.2.symm.trans here.2
    cases same
    simp [marked] at other
  obtain ⟨h, _, clear, side, state⟩ := backshift_keeps (I := fun tab' h => Swept m home mark tab g i tab' h)
    (fun _ _ _ _ hole slot empty homes skipped here way swept =>
      swept.step ⟨hole, ⟨slot, here⟩, empty, homes, skipped, way⟩ single bound)
    fuel _ i i here.1 here.1 (Function.update_self ..)
    (fun u ⟨s, inside, there⟩ => homes u ⟨s, inside, (emptied_some there).2⟩) settled_hole emptied
  refine ⟨clear, Or.inr le_rfl, state.imp (fun sw => { sw with kept_by := ?_ }) id⟩
  intro s w there marked wrapped stored
  obtain ⟨b, before, from_g, which, behind⟩ := sw.kept_by there marked wrapped stored
  exact ⟨b, before, from_g, which.imp id fun seen => ⟨seen.1, seen.1⟩, behind⟩

theorem swept_start (clear : ClearAt m home g tab) (single : Single m tab) (homes : Homes m home tab) (bound : g < m) :
    Swept m home mark tab g m tab m := by
  refine ⟨clear, Or.inr le_rfl, Or.inl ⟨fun there => ⟨_, there⟩, fun stored _ => stored, ?_, ?_, ?_, ?_,
    fun there _ _ gone => absurd ⟨_, there⟩ gone⟩⟩
  · intro s u there low s' there'
    exact there.unique single there' ▸ low
  · intro s u at_s t w at_t before _ s' at_s' _ t' at_t' _
    exact at_s.unique single at_s' ▸ at_t.unique single at_t' ▸ before
  · intro s u there _ s' there'
    exact ⟨there'.1, fun high => there.unique single there' ▸ high⟩
  · intro s w there _ high _
    have off := clear s there.1 w there.2
    have at_home := homes w ⟨s, there⟩
    refine ⟨g, ?_, le_rfl, Or.inl rfl, fun {q u} at_q later => ?_⟩
    · dsimp only at off
      unfold dist at off
      split_ifs at off <;> omega
    · obtain ⟨from_g, low⟩ := natural_of_clear clear at_q later (homes u ⟨q, at_q⟩)
      refine ⟨from_g, fun {t} at_t wrapped => ?_⟩
      have := at_q.unique single at_t
      omega

/-- After the pass a marked element is left just if some element before its home was not kept there. -/
theorem Swept.outcome (swept : Swept m home mark tab g 0 tab' 0) :
    (∃ e, Stored m tab' e ∧ mark e) ↔ Unfilled m home mark tab := by
  rcases swept.state with sw | ⟨⟨s, e, there, marked, _⟩, unfilled⟩
  · have none : ¬ ∃ e, Stored m tab' e ∧ mark e := by
      rintro ⟨e, ⟨s, there⟩, marked⟩
      obtain ⟨s', there'⟩ := sw.old there
      exact Nat.not_lt_zero s (sw.ahead there' marked there).1
    refine iff_of_false none ?_
    rintro ⟨s, e, there, marked, wrapped, unfilled⟩
    exact unfilled (sw.done there marked wrapped fun stored => none ⟨e, stored, marked⟩)
  · exact iff_of_true ⟨e, ⟨s, there⟩, marked⟩ unfilled

end
end Mailutils.OpenAddressing

import Mailutils.AssocMap
import Mailutils.Sweep

/-!
Marked elements of an associative array (`libmailutils/base/assoc.c`). `mu_assoc_sweep` looks at each slot once, from
the last to the first, while each removal takes elements back to other slots. An element in a slot before its home can
be taken over the end of the table to a slot that was looked at already; just the marked ones go where the slots from
the home of each of them to the end stay in use (`sweep_removes_marked`). `mu_assoc_sweep_unset` looks at the mark in
one slot and clears the data in the one after it (`sweep_unset_iff`).
-/
namespace Mailutils.AssocArray
open Mailutils.OpenAddressing Mailutils.Linked

section
variable {V : Type*}

/-- The loop of `mu_assoc_mark` over the links. The field `mark` of the elements is kept apart. -/
def mark_loop (assoc : Assoc V) (cond : Name → Option V → Bool) : Nat → Option Nat → (Nat → Bool) → Nat → Bool
  | fuel + 1, some elt, mark =>
    mark_loop assoc cond fuel (assoc.next elt) (Function.update mark elt (cond (assoc.name elt) (assoc.data elt)))
  | _, _, mark => mark

def mu_assoc_mark (assoc : Assoc V) (cond : Name → Option V → Bool) (mark : Nat → Bool) : Nat → Bool :=
  mark_loop assoc cond assoc.brk assoc.head mark

/-- The loop of `mu_assoc_sweep`, which counts down to the first slot. -/
def sweep_loop (mark : Nat → Bool) : Nat → Assoc V → Assoc V
  | 0, asc => asc
  | i + 1, asc =>
    match asc.slots i with
    | none => sweep_loop mark i asc
    | some elem => sweep_loop mark i (if mark elem then (assoc_remove asc i).2 else asc)

def mu_assoc_sweep (mark : Nat → Bool) (asc : Assoc V) : Assoc V :=
  if asc.tab.isSome then sweep_loop mark asc.size asc else asc

/-- What is in the slot after another, if there is one. -/
def following (asc : Assoc V) (i : Nat) : Option Nat := if i + 1 < asc.size then asc.slots (i + 1) else none

/-- The loop of `mu_assoc_sweep_unset`, with the data of the elements. There is no result when the slot whose data is
    to be cleared is empty or behind the table. -/
def unset_loop (mark : Nat → Bool) (asc : Assoc V) : Nat → (Nat → Option V) → Option (Nat → Option V)
  | 0, data => some data
  | i + 1, data =>
    if (asc.slots i).any mark then
      (following asc i).bind fun next => unset_loop mark asc i (Function.update data next none)
    else unset_loop mark asc i data

def mu_assoc_sweep_unset (mark : Nat → Bool) (asc : Assoc V) : Option (Assoc V) :=
  if asc.tab.isSome then (unset_loop mark asc asc.size asc.data).map fun data => { asc with data := data }
  else some asc

variable {assoc : Assoc V} {order : List Nat} {elem : Nat} {mark : Nat → Bool} {cond : Name → Option V → Bool}

private theorem mark_loop_chain : ∀ {order : List Nat} {fuel : Nat} {p : Option Nat} (mark : Nat → Bool),
    Chain assoc.next p order → order.Nodup → order.length ≤ fuel →
    (∀ elem ∈ order, mark_loop assoc cond fuel p mark elem = cond (assoc.name elem) (assoc.data elem)) ∧
      ∀ elem ∉ order, mark_loop assoc cond fuel p mark elem = mark elem := by
  intro order
  induction order with
  | nil =>
    intro fuel p mark chain _ _
    rw [chain_nil] at chain
    subst chain
    rw [mark_loop]
    · exact ⟨fun elem member => absurd member List.not_mem_nil, fun _ _ => rfl⟩
    · simp
  | cons x xs ih =>
    rintro fuel p mark ⟨rfl, chain⟩ nodup enough
    rw [List.nodup_cons] at nodup
    cases fuel with
    | zero => simp at enough
    | succ fuel =>
      obtain ⟨inside, outside⟩ := ih (Function.update mark x (cond (assoc.name x) (assoc.data x))) chain nodup.2
        (Nat.le_of_succ_le_succ enough)
      rw [mark_loop]
      refine ⟨fun elem member => ?_, fun elem other => ?_⟩
      · rcases List.mem_cons.mp member with rfl | member
        · rw [outside elem nodup.1, Function.update_self]
        · exact inside elem member
      · rw [List.mem_cons, not_or] at other
        rw [outside elem other.2, Function.update_of_ne other.1]

theorem mark_spec (inv : Inv assoc order) (member : elem ∈ order) :
    mu_assoc_mark assoc cond mark elem = cond (assoc.name elem) (assoc.data elem) :=
  (mark_loop_chain mark inv.listed.forward inv.listed.nodup inv.length_le).1 elem member

theorem remove_slots {slot : Nat} (inside : slot < assoc.size) (here : assoc.slots slot = some elem) :
    (assoc_remove assoc slot).2 = { assoc_elem_unlink assoc elem with
      tab := some (backshift assoc.size assoc.home (fuel assoc.size) (Function.update assoc.slots slot none)
        slot slot) } := by
  have freed : assoc_free_elem assoc slot = (assoc_elem_unlink assoc elem).set slot none := by
    rw [assoc_free_elem, here]
  rw [assoc_remove, if_neg (not_not_intro inside)]
  dsimp only
  rw [freed, set_slots, Function.update_idem]
  rfl

/-- The loop takes out marked elements and leaves the others as they are. -/
theorem sweep_loop_swept {p : Nat → Bool} {m g : Nat} {home : Nat → Nat} {tab : Nat → Option Nat} (single : Single m tab)
    (bound : g < m) (i : Nat) : ∀ (assoc : Assoc V) (order : List Nat), Inv assoc order → i ≤ m → assoc.size = m →
    assoc.home = home → (∀ elem ∈ order, mark elem = p elem) → Swept m home p tab g i assoc.slots i →
    ∃ order', Inv (sweep_loop mark i assoc) order' ∧ order'.Sublist order ∧ (∀ e ∈ order, p e = false → e ∈ order') ∧
      (sweep_loop mark i assoc).icase = assoc.icase ∧ (sweep_loop mark i assoc).entry = assoc.entry ∧
      ((∃ e ∈ order', p e) ↔ Unfilled m home p tab) := by
  induction i with
  | zero =>
    rintro assoc order inv _ rfl _ _ swept
    refine ⟨order, inv, List.Sublist.refl _, fun _ member _ => member, rfl, rfl, ?_⟩
    rw [← swept.outcome]
    simp only [inv.indexed.stored]
  | succ i ih =>
    rintro assoc order inv within rfl rfl marks swept
    have homes : Homes assoc.size assoc.home assoc.slots := fun e _ => inv.indexed.home_lt e
    have skip (unmarked : ∀ elem, assoc.slots i = some elem → p elem = false) :=
      ih assoc order inv (by omega) rfl rfl marks (swept.next inv.indexed.single inv.indexed.reach homes id
        (fun here => unmarked _ here.2) fun there _ => there)
    rw [sweep_loop]
    split
    next empty => exact skip fun elem here => by rw [empty] at here; cases here
    next elem here =>
      have member : elem ∈ order := (inv.indexed.stored elem).mp ⟨i, within, here⟩
      rw [marks elem member]
      cases marked : p elem with
      | false =>
        rw [if_neg Bool.false_ne_true]
        refine skip fun elem' here' => ?_
        rw [here] at here'
        cases here'
        exact marked
      | true =>
        rw [if_pos rfl]
        obtain ⟨_, inv', icase, entry⟩ := inv_remove inv within here
        have deleted := swept.delete single bound inv.indexed.single inv.indexed.reach homes ⟨within, here⟩ marked
          (fuel assoc.size)
        obtain ⟨order', inv'', sub, kept, icase', entry', outcome⟩ := ih (assoc_remove assoc i).2 _ inv' (by omega)
          (by rw [remove_slots within here]; rfl) (by rw [remove_slots within here]; rfl)
          (fun e member => marks e (List.mem_of_mem_erase member)) (by rw [remove_slots within here]; exact deleted)
        refine ⟨order', inv'', sub.trans List.erase_sublist, fun e member unmarked => kept e ?_ unmarked,
          icase'.trans icase, entry'.trans entry, outcome⟩
        refine (List.mem_erase_of_ne ?_).mpr member
        rintro rfl
        rw [marked] at unmarked
        cases unmarked

theorem sweep_swept (inv : Inv assoc order) {p : Nat → Bool} (marks : ∀ elem ∈ order, mark elem = p elem) :
    ∃ order', Inv (mu_assoc_sweep mark assoc) order' ∧ order'.Sublist order ∧ (∀ e ∈ order, p e = false → e ∈ order') ∧
      (mu_assoc_sweep mark assoc).icase = assoc.icase ∧ (mu_assoc_sweep mark assoc).entry = assoc.entry ∧
      ((∃ e ∈ order', p e) ↔ Unfilled assoc.size assoc.home p assoc.slots) := by
  unfold mu_assoc_sweep
  split
  next =>
    obtain ⟨g, bound, clear⟩ := inv.indexed.clear
    exact sweep_loop_swept inv.indexed.single bound assoc.size assoc order inv le_rfl rfl rfl marks
      (swept_start clear inv.indexed.single (fun e _ => inv.indexed.home_lt e) bound)
  -- without a table there are no elements
  next missing =>
    have empty (s : Nat) : assoc.slots s = none := by
      rw [Assoc.slots, Option.not_isSome_iff_eq_none.mp missing]
      rfl
    refine ⟨order, inv, List.Sublist.refl _, fun _ member _ => member, rfl, rfl, iff_of_false ?_ ?_⟩
    · rintro ⟨e, member, _⟩
      obtain ⟨s, _, here⟩ := (inv.indexed.stored e).mpr member
      rw [empty] at here
      cases here
    · rintro ⟨s, e, ⟨_, here⟩, _⟩
      rw [empty] at here
      cases here

/-- Marking and sweeping leave the entries for which the condition does not hold, and these are found as before, just
    if for each other element before its home the slots from there to the end are filled without it. -/
theorem sweep_removes_marked (inv : Inv assoc order) (cond : Name → Option V → Bool) (mark : Nat → Bool) :
    (Inv (mu_assoc_sweep (mu_assoc_mark assoc cond mark) assoc)
        (order.filter fun elem => !cond (assoc.name elem) (assoc.data elem)) ∧
      (mu_assoc_sweep (mu_assoc_mark assoc cond mark) assoc).entry = assoc.entry ∧
      ∀ name, mu_assoc_lookup (mu_assoc_sweep (mu_assoc_mark assoc cond mark) assoc) name =
        (specify assoc.icase ((order.map assoc.entry).filter fun entry => !cond entry.1 entry.2) (.lookup name)).1) ↔
      ∀ slot < assoc.size, ∀ elem, assoc.slots slot = some elem → cond (assoc.name elem) (assoc.data elem) →
        slot < assoc.home elem →
        Filled assoc.size assoc.home (fun elem => cond (assoc.name elem) (assoc.data elem)) assoc.slots slot
          (assoc.home elem) := by
  have marks : ∀ elem ∈ order, mu_assoc_mark assoc cond mark elem = cond (assoc.name elem) (assoc.data elem) :=
    fun elem member => mark_spec inv member
  obtain ⟨order', inv', sub, kept, icase, entry, outcome⟩ :=
    sweep_swept (p := fun elem => cond (assoc.name elem) (assoc.data elem)) inv marks
  constructor
  · rintro ⟨right, _⟩ slot inside elem here marked wrapped
    by_contra unfilled
    obtain ⟨e, member, marked'⟩ := outcome.mpr ⟨slot, elem, ⟨inside, here⟩, marked, wrapped, unfilled⟩
    have left := (right.indexed.stored e).mp ((inv'.indexed.stored e).mpr member)
    rw [List.mem_filter, marked'] at left
    exact Bool.false_ne_true left.2
  · intro filled
    have unmarked : ∀ e ∈ order', (!cond (assoc.name e) (assoc.data e)) = true := by
      intro e member
      by_contra marked
      obtain ⟨slot, elem, ⟨inside, here⟩, marked, wrapped, unfilled⟩ :=
        outcome.mp ⟨e, member, by simpa using marked⟩
      exact unfilled (filled slot inside elem here marked wrapped)
    have same : order' = order.filter fun elem => !cond (assoc.name elem) (assoc.data elem) := by
      have into := sub.filter fun elem => !cond (assoc.name elem) (assoc.data elem)
      rw [List.filter_eq_self.mpr unmarked] at into
      refine into.eq_of_length_le (List.Nodup.subperm (inv.listed.nodup.filter _) fun e member => ?_).length_le
      rw [List.mem_filter] at member
      exact kept e member.1 (by simpa using member.2)
    subst same
    refine ⟨inv', entry, fun name => ?_⟩
    obtain ⟨found, _⟩ := lookup_refines inv' name
    rw [icase, entry] at found
    rw [List.filter_map]
    exact found

/-- Two names with the last slot as their home: the second is in the first slot, and goes to the last one when the
    first is removed. -/
def wrapped : Assoc Nat :=
  (run [.install (some ⟨[36], by decide⟩) (some 1), .install (some ⟨[73], by decide⟩) (some 2)]
    (mu_assoc_create false)).2

theorem marked_survives :
    mu_assoc_lookup (mu_assoc_sweep (mu_assoc_mark wrapped (fun _ _ => true) fun _ => false) wrapped)
      (some ⟨[73], by decide⟩) = (.ok, some 2) := by
  decide +kernel

/-- Of the same two the second is swept alone: the first stays in the last slot. -/
theorem sweep_removes_marked_one :
    ∃ order : List Nat, order.length = 2 ∧
      Inv (mu_assoc_sweep (mu_assoc_mark wrapped (fun _ value => value == some 2) fun _ => false) wrapped)
        (order.filter fun elem => !(wrapped.data elem == some 2)) := by
  obtain ⟨_, order, inv, entries⟩ := run_refines
    [.install (some ⟨[36], by decide⟩) (some 1), .install (some ⟨[73], by decide⟩) (some 2)] (mu_assoc_create false) []
    (inv_create false) (by decide)
  have length : order.length = 2 := by
    rw [← List.length_map, entries]
    rfl
  have last : wrapped.slots 36 = some 0 ∧ wrapped.data 0 = some 1 ∧ wrapped.home 0 = 36 := by decide +kernel
  have checked : (List.range 37).all (fun slot => (wrapped.slots slot).all fun elem =>
      decide (wrapped.home elem = 36)) = true := by
    decide +kernel
  refine ⟨order, length, ((sweep_removes_marked inv (fun _ value => value == some 2) fun _ => false).mpr ?_).1⟩
  intro slot inside elem here _ _ p bound low
  have at_slot := List.all_eq_true.mp checked slot (List.mem_range.mpr inside)
  rw [show wrapped.slots slot = some elem from here, Option.all_some, decide_eq_true_eq] at at_slot
  obtain rfl : p = 36 := Nat.le_antisymm (Nat.le_of_lt_succ bound) (at_slot ▸ low)
  refine ⟨36, le_rfl, Finset.card_pos.mpr ⟨36, Finset.mem_filter.mpr ⟨by decide, 0, last.1, ?_, ?_, ?_, Or.inl ?_⟩⟩⟩
  · change (wrapped.data 0 == some 2) = false
    rw [last.2.1]
    rfl
  · exact last.2.2.ge
  · exact last.2.2.le
  · exact last.2.2.le

/-- A slot with a marked element. -/
def Marked (mark : Nat → Bool) (assoc : Assoc V) (slot : Nat) : Prop :=
  ∃ elem, assoc.slots slot = some elem ∧ mark elem = true

theorem any_marked {slot : Nat} : (assoc.slots slot).any mark = true ↔ Marked mark assoc slot := by
  rw [Marked, Option.any_eq_true]

/-- Data is cleared in the slot after each marked one, and only there. -/
theorem unset_loop_some (mark : Nat → Bool) (assoc : Assoc V) (i : Nat) : ∀ {data after : Nat → Option V},
    unset_loop mark assoc i data = some after →
    (∀ s < i, Marked mark assoc s → ∃ next, following assoc s = some next) ∧
      ∀ e, (∃ s < i, Marked mark assoc s ∧ following assoc s = some e) ∧ after e = none ∨
        (¬ ∃ s < i, Marked mark assoc s ∧ following assoc s = some e) ∧ after e = data e := by
  induction i with
  | zero =>
    intro data after done
    cases done
    refine ⟨fun s bound => absurd bound (Nat.not_lt_zero s), fun e => Or.inr ⟨?_, rfl⟩⟩
    rintro ⟨s, bound, _⟩
    exact Nat.not_lt_zero s bound
  | succ i ih =>
    intro data after done
    rw [unset_loop] at done
    split at done
    next marked =>
      rw [any_marked] at marked
      rw [Option.bind_eq_some_iff] at done
      obtain ⟨next, behind, done⟩ := done
      obtain ⟨defined, cleared⟩ := ih done
      refine ⟨fun s bound there => ?_, fun e => ?_⟩
      · rcases Nat.lt_succ_iff_lt_or_eq.mp bound with bound | rfl
        · exact defined s bound there
        · exact ⟨next, behind⟩
      · rcases cleared e with ⟨⟨s, bound, there⟩, gone⟩ | ⟨other, kept⟩
        · exact Or.inl ⟨⟨s, by omega, there⟩, gone⟩
        · by_cases same : e = next
          · subst same
            rw [Function.update_self] at kept
            exact Or.inl ⟨⟨i, by omega, marked, behind⟩, kept⟩
          · rw [Function.update_of_ne same] at kept
            refine Or.inr ⟨?_, kept⟩
            rintro ⟨s, bound, there, after_s⟩
            rcases Nat.lt_succ_iff_lt_or_eq.mp bound with bound | rfl
            · exact other ⟨s, bound, there, after_s⟩
            · rw [behind] at after_s
              cases after_s
              exact same rfl
    next unmarked =>
      rw [any_marked] at unmarked
      obtain ⟨defined, cleared⟩ := ih done
      have below : ∀ s < i + 1, Marked mark assoc s → s < i := by
        intro s bound there
        have : s ≠ i := fun same => unmarked (same ▸ there)
        omega
      refine ⟨fun s bound there => defined s (below s bound there) there, fun e => ?_⟩
      rcases cleared e with ⟨⟨s, bound, there⟩, gone⟩ | ⟨other, kept⟩
      · exact Or.inl ⟨⟨s, by omega, there⟩, gone⟩
      · refine Or.inr ⟨?_, kept⟩
        rintro ⟨s, bound, there, after_s⟩
        exact other ⟨s, below s bound there, there, after_s⟩

theorem unset_loop_defined (mark : Nat → Bool) (assoc : Assoc V) (i : Nat) : ∀ (data : Nat → Option V),
    (∀ s < i, Marked mark assoc s → ∃ next, following assoc s = some next) →
    ∃ after, unset_loop mark assoc i data = some after := by
  induction i with
  | zero => exact fun data _ => ⟨data, rfl⟩
  | succ i ih =>
    intro data defined
    have rest := fun s (bound : s < i) => defined s (Nat.lt_succ_of_lt bound)
    rw [unset_loop]
    split
    next marked =>
      obtain ⟨next, behind⟩ := defined i (Nat.lt_succ_self i) (any_marked.mp marked)
      rw [behind]
      exact ih _ rest
    next => exact ih data rest

/-- The function clears the data of the marked elements and no other just if behind each of them there is an element
    that is marked or has no data, and each one that has data is itself behind a marked one. -/
theorem sweep_unset_iff (inv : Inv assoc order) (mark : Nat → Bool) :
    (∃ data, mu_assoc_sweep_unset mark assoc = some { assoc with data := data } ∧
        ∀ elem ∈ order, data elem = if mark elem then none else assoc.data elem) ↔
      ∀ slot < assoc.size, ∀ elem, assoc.slots slot = some elem → mark elem →
        (∃ next, slot + 1 < assoc.size ∧ assoc.slots (slot + 1) = some next ∧
          (mark next ∨ assoc.data next = none)) ∧
        (assoc.data elem = none ∨
          ∃ before, before + 1 = slot ∧ ∃ prev, assoc.slots before = some prev ∧ mark prev) := by
  have following_iff (s e : Nat) : following assoc s = some e ↔ s + 1 < assoc.size ∧ assoc.slots (s + 1) = some e := by
    unfold following
    split
    next inside => exact (and_iff_right inside).symm
    next outside => simp only [reduceCtorEq, outside, false_and]
  have member {s e : Nat} (inside : s < assoc.size) (here : assoc.slots s = some e) : e ∈ order :=
    (inv.indexed.stored e).mp ⟨s, inside, here⟩
  constructor
  · rintro ⟨data, done, right⟩ slot inside elem here marked
    have there : assoc.tab.isSome := by
      rw [Option.isSome_iff_ne_none]
      intro missing
      rw [Assoc.slots, missing] at here
      cases here
    rw [mu_assoc_sweep_unset, if_pos there, Option.map_eq_some_iff] at done
    obtain ⟨after, ran, same⟩ := done
    have same_data : after = data := congrArg Assoc.data same
    subst same_data
    obtain ⟨defined, cleared⟩ := unset_loop_some mark assoc assoc.size ran
    refine ⟨?_, ?_⟩
    · obtain ⟨next, behind⟩ := defined slot inside ⟨elem, here, marked⟩
      obtain ⟨inside', here'⟩ := (following_iff slot next).mp behind
      refine ⟨next, inside', here', ?_⟩
      rcases cleared next with ⟨_, gone⟩ | ⟨other, _⟩
      · rw [right next (member inside' here')] at gone
        by_cases again : mark next = true
        · exact Or.inl again
        · rw [if_neg again] at gone
          exact Or.inr gone
      · exact absurd ⟨slot, inside, ⟨elem, here, marked⟩, behind⟩ other
    · rcases cleared elem with ⟨⟨s, bound, ⟨prev, there', marked'⟩, behind⟩, _⟩ | ⟨_, kept⟩
      · obtain ⟨inside', here'⟩ := (following_iff s elem).mp behind
        exact Or.inr ⟨s, inv.indexed.single _ inside' _ inside elem here' here, prev, there', marked'⟩
      · rw [right elem (member inside here), if_pos marked] at kept
        exact Or.inl kept.symm
  · intro layout
    have defined : ∀ s < assoc.size, Marked mark assoc s → ∃ next, following assoc s = some next := by
      rintro s inside ⟨elem, here, marked⟩
      obtain ⟨⟨next, inside', here', _⟩, _⟩ := layout s inside elem here marked
      exact ⟨next, (following_iff s next).mpr ⟨inside', here'⟩⟩
    obtain ⟨after, ran⟩ := unset_loop_defined mark assoc assoc.size assoc.data defined
    obtain ⟨_, cleared⟩ := unset_loop_some mark assoc assoc.size ran
    by_cases there : assoc.tab.isSome
    · refine ⟨after, by rw [mu_assoc_sweep_unset, if_pos there, ran]; rfl, fun elem stored => ?_⟩
      obtain ⟨slot, inside, here⟩ := (inv.indexed.stored elem).mpr stored
      split
      next marked =>
        rcases cleared elem with ⟨_, gone⟩ | ⟨other, kept⟩
        · exact gone
        · rcases (layout slot inside elem here marked).2 with nothing | ⟨s, rfl, prev, here', marked'⟩
          · rw [kept, nothing]
          · exact absurd ⟨s, by omega, ⟨prev, here', marked'⟩, (following_iff s elem).mpr ⟨inside, here⟩⟩ other
      next unmarked =>
        rcases cleared elem with ⟨⟨s, bound, ⟨prev, here', marked'⟩, behind⟩, gone⟩ | ⟨_, kept⟩
        · obtain ⟨⟨next, _, here'', clear⟩, _⟩ := layout s bound prev here' marked'
          rw [((following_iff s elem).mp behind).2] at here''
          cases here''
          rw [gone, clear.resolve_left unmarked]
        · exact kept
    · refine ⟨assoc.data, if_neg there, fun elem stored => ?_⟩
      obtain ⟨slot, _, here⟩ := (inv.indexed.stored elem).mpr stored
      rw [Assoc.slots, Option.not_isSome_iff_eq_none.mp there] at here
      cases here

/-- Three names in slots that follow each other; only the second has data. -/
def neighbours : Assoc Nat :=
  (run [.install (some ⟨[1], by decide⟩) none, .install (some ⟨[2], by decide⟩) (some 5),
    .install (some ⟨[3], by decide⟩) none] (mu_assoc_create false)).2

/-- The first two are marked, and the data of the second goes. -/
theorem sweep_unset_iff_neighbours :
    (∃ data, mu_assoc_sweep_unset (fun elem => elem < 2) neighbours = some { neighbours with data := data } ∧
      ∀ elem < 3, data elem = none) ∧ neighbours.data 1 = some 5 := by
  obtain ⟨order, inv⟩ := run_inv
    [.install (some ⟨[1], by decide⟩) none, .install (some ⟨[2], by decide⟩) (some 5),
      .install (some ⟨[3], by decide⟩) none] (mu_assoc_create false) [] (inv_create false)
  have placed : ∀ elem < 3, neighbours.slots (elem + 1) = some elem := by decide +kernel
  have others : ∀ slot < 37, ∀ elem < 2, neighbours.slots slot = some elem → slot = elem + 1 := by decide +kernel
  have values : neighbours.data 0 = none ∧ neighbours.data 1 = some 5 ∧ neighbours.data 2 = none := by decide +kernel
  obtain ⟨data, done, right⟩ := (sweep_unset_iff inv fun elem => elem < 2).mpr fun slot inside elem here marked => by
    have low : elem < 2 := of_decide_eq_true marked
    obtain rfl := others slot inside elem low here
    obtain rfl | rfl : elem = 0 ∨ elem = 1 := by omega
    · exact ⟨⟨1, by decide, placed 1 (by decide), Or.inl rfl⟩, Or.inl values.1⟩
    · exact ⟨⟨2, by decide, placed 2 (by decide), Or.inr values.2.2⟩, Or.inr ⟨1, rfl, 0, placed 0 (by decide), rfl⟩⟩
  refine ⟨⟨data, done, fun elem small => ?_⟩, values.2.1⟩
  have member : elem ∈ order :=
    (inv.indexed.stored elem).mp ⟨elem + 1, lt_of_lt_of_le (Nat.succ_lt_succ small) (by decide), placed elem small⟩
  rw [right elem member]
  split
  next => rfl
  next unmarked =>
    obtain rfl : elem = 2 := by
      have := of_decide_eq_false (Bool.eq_false_of_not_eq_true unmarked)
      omega
    exact values.2.2

/-- One marked element, and nothing behind it. -/
theorem unset_behind :
    mu_assoc_sweep_unset (fun _ => true)
      (run [.install (some ⟨[1], by decide⟩) (some 1)] (mu_assoc_create false) : List (Result Nat) × Assoc Nat).2 =
        none := by
  refine Option.isNone_iff_eq_none.mp ?_
  decide +kernel
end
end Mailutils.AssocArray

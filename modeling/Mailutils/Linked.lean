import Mathlib.Data.List.Basic
import Mathlib.Data.List.Nodup
import Mathlib.Logic.Function.Basic

/-!
Linked lists in a memory that maps the address of each element to its link. A list
of addresses is a segment when its links lead through it (`Segment`), and a chain when
they end there (`Chain`). Links are changed by `Function.update`; a chain does not
depend on the links of other elements.
-/
namespace Mailutils.Linked

section
variable {α : Type*}

/-- The links lead from `p` through the list to `q`. -/
def Segment (link : α → Option α) : Option α → List α → Option α → Prop
  | p, [], q => p = q
  | p, x :: xs, q => p = some x ∧ Segment link (link x) xs q

/-- The links lead from `p` through the list and end there. -/
def Chain (link : α → Option α) (p : Option α) (xs : List α) : Prop := Segment link p xs none

variable {link link' : α → Option α} {p q r : Option α} {x y : α} {xs ys : List α}

@[simp] theorem segment_nil : Segment link p [] q ↔ p = q := Iff.rfl

@[simp] theorem segment_cons : Segment link p (x :: xs) q ↔ p = some x ∧ Segment link (link x) xs q := Iff.rfl

@[simp] theorem chain_nil : Chain link p [] ↔ p = none := Iff.rfl

@[simp] theorem chain_cons : Chain link p (x :: xs) ↔ p = some x ∧ Chain link (link x) xs := Iff.rfl

theorem segment_append : ∀ {xs : List α} {p : Option α},
    Segment link p (xs ++ ys) q ↔ ∃ r, Segment link p xs r ∧ Segment link r ys q := by
  intro xs
  induction xs with
  | nil =>
    intro p
    simp
  | cons x xs ih =>
    intro p
    simp only [List.cons_append, segment_cons, ih]
    constructor
    · rintro ⟨start, r, left, right⟩
      exact ⟨r, ⟨start, left⟩, right⟩
    · rintro ⟨r, ⟨start, left⟩, right⟩
      exact ⟨start, r, left, right⟩

theorem chain_append : Chain link p (xs ++ ys) ↔ ∃ r, Segment link p xs r ∧ Chain link r ys := segment_append

theorem segment_congr : ∀ {xs : List α} {p : Option α}, (∀ x ∈ xs, link x = link' x) → Segment link p xs q →
    Segment link' p xs q := by
  intro xs
  induction xs with
  | nil => exact fun _ seg => seg
  | cons x xs ih =>
    rintro p same ⟨start, rest⟩
    refine ⟨start, ?_⟩
    rw [← same x List.mem_cons_self]
    exact ih (fun y member => same y (List.mem_cons_of_mem x member)) rest

theorem chain_congr (same : ∀ x ∈ xs, link x = link' x) (chain : Chain link p xs) : Chain link' p xs :=
  segment_congr same chain

theorem chain_head (chain : Chain link p xs) : p = xs.head? := by
  cases xs with
  | nil => exact chain
  | cons x xs => exact chain.1

theorem chain_link (chain : Chain link p (xs ++ x :: ys)) : link x = ys.head? := by
  rw [chain_append] at chain
  obtain ⟨_, _, _, right⟩ := chain
  exact chain_head right

variable [DecidableEq α]

theorem segment_update (apart : x ∉ xs) (seg : Segment link p xs q) : Segment (Function.update link x r) p xs q := by
  refine segment_congr (fun y member => ?_) seg
  have other : y ≠ x := fun same => apart (same ▸ member)
  rw [Function.update_of_ne other]

theorem chain_update (apart : x ∉ xs) (chain : Chain link p xs) : Chain (Function.update link x r) p xs :=
  segment_update apart chain

theorem segment_set_last (apart : x ∉ xs) (seg : Segment link p xs (some x)) :
    Segment (Function.update link x r) p (xs ++ [x]) r := by
  rw [segment_append]
  exact ⟨some x, segment_update apart seg, rfl, by rw [Function.update_self]; rfl⟩

/-- A link that is set where the place before it says: in an element, or at the start. -/
def put (place : Option α) (value : Option α) (link : α → Option α) (start : Option α) :
    (α → Option α) × Option α :=
  match place with
  | none => (link, value)
  | some t => (Function.update link t value, start)

/-- The list that is open at its end: once a link is put there, it leads on to that. -/
def Open (place : Option α) (link : α → Option α) (start : Option α) (xs : List α) : Prop :=
  place = xs.getLast? ∧ ∀ value, Segment (put place value link start).1 (put place value link start).2 xs value

theorem open_nil (link : α → Option α) (start : Option α) : Open none link start [] := ⟨rfl, fun _ => rfl⟩

theorem open_of_segment (nodup : xs.Nodup) (seg : Segment link p xs q) : Open xs.getLast? link p xs := by
  refine ⟨rfl, fun value => ?_⟩
  rcases List.eq_nil_or_concat xs with rfl | ⟨front, last, rfl⟩
  · rfl
  · rw [List.concat_eq_append] at *
    rw [segment_append] at seg
    obtain ⟨r, left, start, _⟩ := seg
    subst start
    rw [List.getLast?_append_of_ne_nil _ (List.cons_ne_nil _ _)]
    simp only [List.getLast?_singleton, put]
    exact segment_set_last (fun member => (List.nodup_append.mp nodup).2.2 last member last (List.mem_singleton_self _)
      rfl) left

theorem put_apart {place value start : Option α} (apart : ∀ t, place = some t → x ≠ t) :
    (put place value link start).1 x = link x := by
  cases place with
  | none => rfl
  | some t => exact Function.update_of_ne (apart t rfl) ..

theorem open_snoc {place start : Option α} (opened : Open place link start xs) (apart : x ∉ xs) :
    Open (some x) (put place (some x) link start).1 (put place (some x) link start).2 (xs ++ [x]) := by
  refine ⟨by simp, fun value => ?_⟩
  simp only [put]
  exact segment_set_last apart (opened.2 (some x))

theorem open_chain {place start : Option α} (opened : Open place link start xs) (chain : Chain link q ys)
    (apart : ∀ x ∈ xs, x ∉ ys) :
    Chain (put place q link start).1 (put place q link start).2 (xs ++ ys) := by
  rw [chain_append]
  refine ⟨q, opened.2 q, chain_congr (fun y member => ?_) chain⟩
  refine (put_apart fun t same => ?_).symm
  rintro rfl
  refine apart y (List.mem_of_getLast? ?_) member
  rw [← opened.1, same]

theorem chain_remove (nodup : (xs ++ x :: ys).Nodup) (chain : Chain link p (xs ++ x :: ys)) :
    Chain (put xs.getLast? (link x) link p).1 (put xs.getLast? (link x) link p).2 (xs ++ ys) := by
  rw [chain_append] at chain
  obtain ⟨r, left, _, right⟩ := chain
  rw [List.nodup_append] at nodup
  refine open_chain (open_of_segment nodup.1 left) right fun z member member' => ?_
  exact nodup.2.2 z member z (List.mem_cons_of_mem x member') rfl
end
end Mailutils.Linked

import Mailutils.Circular
import Mathlib.Data.List.GetD

/-!
The links of lists (`libmailutils/list/listlist.c`, `libmailutils/list/iterator.c`). A list is a ring of elements with
its head, and the elements of another list are moved into it by setting the links at both ends. Where the other list
is empty its ends are its own head, and all but `mu_list_append_list` put this into the first list; otherwise the
elements of both are in the first list in order, and the other one is empty (`splice_iff`).
-/
namespace Mailutils.ListLinks
open Mailutils.Circular

/-- The fields of the elements and of the lists by their addresses; the address of a list is that of its `head`. -/
structure Mem (α : Type*) where
  item : Nat → α
  next : Nat → Nat
  prev : Nat → Nat
  count : Nat → Nat

section
variable {α : Type*}

def _mu_list_insert_sublist (mem : Mem α) (list current head tail count : Nat) (insert_before : Bool) : Mem α :=
  if insert_before then
    let prev := Function.update mem.prev head (mem.prev current)
    let next := Function.update mem.next tail current
    let next :=
      if prev current ≠ list then Function.update next (prev current) head else Function.update next list head
    { mem with
      next := next
      prev := Function.update prev current tail
      count := Function.update mem.count list (mem.count list + count) }
  else
    let next := Function.update mem.next tail (mem.next current)
    let prev := Function.update mem.prev head current
    let prev :=
      if next current ≠ list then Function.update prev (next current) tail else Function.update prev list tail
    { mem with
      next := Function.update next current head
      prev := prev
      count := Function.update mem.count list (mem.count list + count) }

def _mu_list_clear (mem : Mem α) (list : Nat) : Mem α :=
  { mem with
    next := Function.update mem.next list list
    prev := Function.update mem.prev list list
    count := Function.update mem.count list 0 }

/-- What both functions do when the list is empty. -/
def take_over (mem : Mem α) (list new_list : Nat) : Mem α :=
  let next := Function.update mem.next list (mem.next new_list)
  let prev := Function.update mem.prev list (mem.prev new_list)
  { mem with
    next := Function.update next (prev list) list
    prev := Function.update prev (next list) list
    count := Function.update mem.count list (mem.count new_list) }

def mu_list_append_list (mem : Mem α) (list new_list : Nat) : Mem α :=
  if mem.count new_list = 0 then mem
  else
    _mu_list_clear
      (if mem.count list = 0 then take_over mem list new_list
        else _mu_list_insert_sublist mem list (mem.prev list) (mem.next new_list) (mem.prev new_list)
          (mem.count new_list) false)
      new_list

def mu_list_prepend_list (mem : Mem α) (list new_list : Nat) : Mem α :=
  _mu_list_clear
    (if mem.count list = 0 then take_over mem list new_list
      else _mu_list_insert_sublist mem list (mem.next list) (mem.next new_list) (mem.prev new_list)
        (mem.count new_list) true)
    new_list

/-- The first element with an item, from `current` on. -/
def find_item (comp : α → α → Int) (mem : Mem α) (list : Nat) (item : α) : Nat → Nat → Option Nat
  | 0, _ => none
  | fuel + 1, current =>
    if current = list then none
    else if comp (mem.item current) item = 0 then some current
    else find_item comp mem list item fuel (mem.next current)

/-- Nothing is done without such an element. -/
def mu_list_insert_list (comp : α → α → Int) (mem : Mem α) (list : Nat) (item : α) (new_list : Nat)
    (insert_before : Bool) : Mem α :=
  match find_item comp mem list item (mem.count list + 1) (mem.next list) with
  | none => mem
  | some current =>
    _mu_list_clear (_mu_list_insert_sublist mem list current (mem.next new_list) (mem.prev new_list)
      (mem.count new_list) insert_before) new_list

/-- `list_itrctl` with `mu_itrctl_insert_list`, for the element at which the iterator stands, if it was set. -/
def list_itrctl_insert_list (mem : Mem α) (list : Nat) (cur : Option Nat) (new_list : Nat) : Mem α :=
  match cur with
  | none => mem
  | some cur =>
    _mu_list_clear (_mu_list_insert_sublist mem list cur (mem.next new_list) (mem.prev new_list)
      (mem.count new_list) false) new_list

/-- The calls that move the elements of a list into another. -/
inductive Splice (α : Type*)
  | append
  | prepend
  | insert (item : α) (before : Bool)
  | itrctl (cur : Option Nat)

def splice (comp : α → α → Int) (mem : Mem α) (list new_list : Nat) : Splice α → Mem α
  | .append => mu_list_append_list mem list new_list
  | .prepend => mu_list_prepend_list mem list new_list
  | .insert item before => mu_list_insert_list comp mem list item new_list before
  | .itrctl cur => list_itrctl_insert_list mem list cur new_list

/-- The number of elements after which the others belong, if the call has a place for them. -/
def position (comp : α → α → Int) (mem : Mem α) (list : Nat) (xs : List Nat) : Splice α → Option Nat
  | .append => some xs.length
  | .prepend => some 0
  | .insert item before =>
    (xs.findIdx? fun x => comp (mem.item x) item == 0).map fun i => if before then i else i + 1
  | .itrctl none => none
  | .itrctl (some cur) => if cur = list then some 0 else some (xs.idxOf cur + 1)

/-- The elements of a list in both directions, and their number. -/
structure Traversed (mem : Mem α) (list : Nat) (xs : List Nat) : Prop where
  forward : walk mem.next list (xs.length + 1) (mem.next list) = xs
  backward : walk mem.prev list (xs.length + 1) (mem.prev list) = xs.reverse
  count : mem.count list = xs.length

/-- The list is a ring of its elements. -/
structure Listed (mem : Mem α) (list : Nat) (xs : List Nat) : Prop where
  ring : Ring mem.next mem.prev list xs
  count : mem.count list = xs.length

variable {mem : Mem α} {list new_list : Nat} {xs ys front back : List Nat}

theorem Listed.traversed (listed : Listed mem list xs) : Traversed mem list xs :=
  ⟨listed.ring.walks.1, listed.ring.walks.2, listed.count⟩

theorem sublist_links (ring : Ring mem.next mem.prev list (front ++ back)) {head tail current : Nat} (count : Nat)
    (head_apart : head ∉ list :: (front ++ back)) (tail_apart : tail ∉ list :: (front ++ back)) {before : Bool}
    (place : current = if before then back.headD list else front.getLastD list) :
    _mu_list_insert_sublist mem list current head tail count before =
      { mem with
        next := Function.update (Function.update mem.next tail (back.headD list)) (front.getLastD list) head
        prev := Function.update (Function.update mem.prev head (front.getLastD list)) (back.headD list) tail
        count := Function.update mem.count list (mem.count list + count) } := by
  obtain ⟨onward, backward⟩ := ring.joint
  have first : front.getLastD list ∈ list :: (front ++ back) := List.mem_append_left back List.getLastD_mem_cons
  have second : back.headD list ∈ list :: (front ++ back) := by
    cases back with
    | nil => exact List.mem_cons_self
    | cons b back => exact List.mem_append_right (list :: front) List.mem_cons_self
  unfold _mu_list_insert_sublist
  cases before with
  | true =>
    rw [if_pos rfl] at place ⊢
    subst place
    have other : back.headD list ≠ head := fun same => head_apart (same ▸ second)
    simp only [Function.update_of_ne other, backward]
    split
    next => rfl
    next same => rw [not_not.mp same]
  | false =>
    rw [if_neg Bool.false_ne_true] at place ⊢
    subst place
    have other : front.getLastD list ≠ tail := fun same => tail_apart (same ▸ first)
    simp only [Function.update_of_ne other, onward]
    split
    next => rfl
    next same => rw [not_not.mp same]

/-- Two lists without common elements. -/
def Apart (list : Nat) (xs : List Nat) (new_list : Nat) (ys : List Nat) : Prop :=
  ∀ u ∈ new_list :: ys, u ∉ list :: xs

theorem listed_clear (mem : Mem α) (new_list : Nat) : Listed (_mu_list_clear mem new_list) new_list [] :=
  ⟨ring_nil.mpr ⟨Function.update_self .., Function.update_self ..⟩, Function.update_self ..⟩

theorem Listed.clear (listed : Listed mem list xs) (other : new_list ∉ list :: xs) :
    Listed (_mu_list_clear mem new_list) list xs := by
  have kept : ∀ u ∈ list :: xs, u ≠ new_list := fun u member same => other (same ▸ member)
  refine ⟨listed.ring.congr fun u member => ?_, ?_⟩
  · exact ⟨(Function.update_of_ne (kept u member) ..).symm, (Function.update_of_ne (kept u member) ..).symm⟩
  · exact (Function.update_of_ne (kept list List.mem_cons_self) ..).trans listed.count

private theorem listed_sublist {y : Nat} (listed : Listed mem list (front ++ back)) (other : Listed mem new_list (y :: ys))
    (apart : Apart list (front ++ back) new_list (y :: ys)) {current : Nat} {before : Bool}
    (place : current = if before then back.headD list else front.getLastD list) :
    Listed
      (_mu_list_insert_sublist mem list current (mem.next new_list) (mem.prev new_list) (mem.count new_list) before)
      list (front ++ y :: ys ++ back) := by
  have head : mem.next new_list = y := other.ring.next_head
  have tail : mem.prev new_list = ys.getLastD y := by rw [other.ring.prev_head, List.getLastD_cons]
  have last : ys.getLastD y ∈ y :: ys := List.getLastD_mem_cons
  rw [head, tail, sublist_links listed.ring _ (apart y (List.mem_cons_of_mem _ List.mem_cons_self))
    (apart _ (List.mem_cons_of_mem _ last)) place]
  obtain ⟨forward, backward⟩ := other.ring.inner
  refine ⟨listed.ring.insert (List.nodup_cons.mp other.ring.nodup).2 ?_ forward backward, ?_⟩
  · exact fun u member => apart u (List.mem_cons_of_mem _ member)
  · refine (Function.update_self ..).trans ?_
    rw [listed.count, other.count]
    simp only [List.length_append, List.length_cons]
    omega

theorem listed_take_over {y : Nat} (other : Listed mem new_list (y :: ys)) (apart : Apart list [] new_list (y :: ys)) :
    Listed (take_over mem list new_list) list (y :: ys) := by
  have head : mem.next new_list = y := other.ring.next_head
  have tail : mem.prev new_list = ys.getLastD y := by rw [other.ring.prev_head, List.getLastD_cons]
  have new : list ∉ y :: ys := fun member =>
    apart list (List.mem_cons_of_mem _ member) List.mem_cons_self
  refine ⟨?_, (Function.update_self ..).trans other.count⟩
  simp only [take_over, Function.update_self, head, tail]
  exact other.ring.rehead new

theorem find_item_path (comp : α → α → Int) (item : α) : ∀ {xs : List Nat} {a fuel : Nat},
    Circular.Path mem.next a xs list → list ∉ xs → xs.length < fuel → find_item comp mem list item fuel (mem.next a) =
      (xs.findIdx? fun x => comp (mem.item x) item == 0).map fun i => xs.getD i list := by
  intro xs
  induction xs with
  | nil =>
    intro a fuel path _ enough
    rw [show mem.next a = list from path]
    cases fuel with
    | zero => rfl
    | succ fuel => exact if_pos rfl
  | cons x xs ih =>
    rintro a fuel ⟨rfl, rest⟩ apart enough
    rw [List.mem_cons, not_or] at apart
    cases fuel with
    | zero => exact absurd enough (Nat.not_lt_zero _)
    | succ fuel =>
      rw [find_item, if_neg (Ne.symm apart.1), List.findIdx?_cons]
      by_cases same : comp (mem.item (mem.next a)) item = 0
      · rw [if_pos same, if_pos (beq_iff_eq.mpr same)]
        rfl
      · rw [if_neg same, if_neg (fun equal => same (beq_iff_eq.mp equal)),
          ih rest apart.2 (Nat.lt_of_succ_lt_succ enough), Option.map_map]
        rfl

theorem take_last {xs : List Nat} {i : Nat} (bound : i < xs.length) (h : Nat) :
    (xs.take (i + 1)).getLastD h = xs[i] := by
  rw [List.take_add_one, List.getElem?_eq_getElem bound, Option.toList_some, List.getLastD_concat]

theorem drop_head {xs : List Nat} {i : Nat} (bound : i < xs.length) (h : Nat) : (xs.drop i).headD h = xs[i] := by
  rw [List.headD_eq_head?_getD, List.head?_drop, List.getElem?_eq_getElem bound, Option.getD_some]

/-- An iterator stands at an element of its list, or at the head. -/
def Stands (list : Nat) (xs : List Nat) : Splice α → Prop
  | .itrctl (some cur) => cur ∈ list :: xs
  | _ => True

theorem splice_some (comp : α → α → Int) {op : Splice α} (listed : Listed mem list xs) (stands : Stands list xs op)
    {k : Nat} (place : position comp mem list xs op = some k) (some_new : op = .append → mem.count new_list ≠ 0) :
    (xs = [] ∧ splice comp mem list new_list op = _mu_list_clear (take_over mem list new_list) new_list) ∨
      ∃ current before, (current = if before then (xs.drop k).headD list else (xs.take k).getLastD list) ∧
        splice comp mem list new_list op = _mu_list_clear (_mu_list_insert_sublist mem list current (mem.next new_list)
          (mem.prev new_list) (mem.count new_list) before) new_list := by
  cases op with
  | append =>
    cases place
    simp only [splice, mu_list_append_list, if_neg (some_new rfl), listed.count, List.length_eq_zero_iff]
    by_cases empty : xs = []
    · exact Or.inl ⟨empty, by rw [if_pos empty]⟩
    · refine Or.inr ⟨mem.prev list, false, ?_, by rw [if_neg empty]⟩
      rw [listed.ring.prev_head, List.take_length]
      rfl
  | prepend =>
    cases place
    simp only [splice, mu_list_prepend_list, listed.count, List.length_eq_zero_iff]
    by_cases empty : xs = []
    · exact Or.inl ⟨empty, by rw [if_pos empty]⟩
    · exact Or.inr ⟨mem.next list, true, listed.ring.next_head, by rw [if_neg empty]⟩
  | insert item before =>
    have found := find_item_path comp item listed.ring.forward (List.nodup_cons.mp listed.ring.nodup).1
      (Nat.lt_succ_self _)
    rw [← listed.count] at found
    obtain ⟨i, at_i, rfl⟩ := Option.map_eq_some_iff.mp place
    rw [at_i, Option.map_some] at found
    have bound : i < xs.length := (List.findIdx?_eq_some_iff_getElem.mp at_i).1
    refine Or.inr ⟨xs.getD i list, before, ?_, by simp only [splice, mu_list_insert_list, found]⟩
    rw [List.getD_eq_getElem _ _ bound]
    cases before with
    | true => exact (drop_head bound list).symm
    | false => exact (take_last bound list).symm
  | itrctl cur =>
    cases cur with
    | none => cases place
    | some cur =>
      refine Or.inr ⟨cur, false, ?_, rfl⟩
      rw [position] at place
      split at place
      next head =>
        cases place
        exact head
      next other =>
        cases place
        have bound := List.idxOf_lt_length_of_mem ((List.mem_cons.mp stands).resolve_left other)
        exact ((take_last bound list).trans (List.getElem_idxOf bound)).symm

/-- The elements of both lists are in the first one, in order, and the other one is empty, if there is a place for
    them; otherwise both lists are as before. -/
def Moved (mem : Mem α) (list : Nat) (xs : List Nat) (new_list : Nat) (ys : List Nat) : Option Nat → Prop
  | none => Traversed mem list xs ∧ Traversed mem new_list ys
  | some k => Traversed mem list (xs.take k ++ ys ++ xs.drop k) ∧ Traversed mem new_list []

theorem not_traversed {u : Nat} (member : u ∈ list :: xs) (leads : mem.next u = new_list)
    (outside : new_list ∉ list :: xs) : ¬ Traversed mem list xs := by
  intro traversed
  have there := path_mem (path_of_walk traversed.forward (Nat.lt_succ_self _)) member
  rw [leads, List.mem_append, List.mem_singleton, or_comm, ← List.mem_cons] at there
  exact outside there

/-- A call does as it should just if the other list has elements, or they are appended, or there is no place for
    them. -/
theorem splice_iff (comp : α → α → Int) (op : Splice α) (listed : Listed mem list xs) (other : Listed mem new_list ys)
    (apart : Apart list xs new_list ys) (stands : Stands list xs op) :
    Moved (splice comp mem list new_list op) list xs new_list ys (position comp mem list xs op) ↔
      ys ≠ [] ∨ op = .append ∨ position comp mem list xs op = none := by
  have outside : new_list ∉ list :: xs := apart new_list List.mem_cons_self
  cases place : position comp mem list xs op with
  | none =>
    refine ⟨fun _ => Or.inr (Or.inr rfl), fun _ => ?_⟩
    have same : splice comp mem list new_list op = mem := by
      cases op with
      | append => cases place
      | prepend => cases place
      | insert item before =>
        have found := find_item_path comp item listed.ring.forward (List.nodup_cons.mp listed.ring.nodup).1
          (Nat.lt_succ_self _)
        rw [← listed.count, Option.map_eq_none_iff.mp place] at found
        simp only [splice, mu_list_insert_list, found, Option.map_none]
      | itrctl cur =>
        cases cur with
        | none => rfl
        | some cur =>
          rw [position] at place
          split at place <;> cases place
    rw [same]
    exact ⟨listed.traversed, other.traversed⟩
  | some k =>
    have whole : xs.take k ++ xs.drop k = xs := List.take_append_drop k xs
    cases ys with
    | nil =>
      simp only [ne_eq, not_true_eq_false, false_or, reduceCtorEq, or_false, Moved, List.append_nil, whole]
      constructor
      · rintro ⟨traversed, _⟩
        by_contra not_append
        have own := ring_nil.mp other.ring
        have unlike : list ≠ new_list := fun same => outside (same ▸ List.mem_cons_self)
        rcases splice_some comp listed stands place (fun same => absurd same not_append) with
          ⟨rfl, same⟩ | ⟨current, before, at_place, same⟩
        · rw [same] at traversed
          refine not_traversed List.mem_cons_self ?_ outside traversed
          simp only [_mu_list_clear, take_over, Function.update_self, own.1, own.2, Function.update_of_ne unlike]
        · rw [← whole] at listed outside
          rw [same, own.1, own.2, sublist_links listed.ring _ outside outside at_place] at traversed
          have first : (xs.take k).getLastD list ∈ list :: xs.take k := List.getLastD_mem_cons
          have unlike' : (xs.take k).getLastD list ≠ new_list := fun same =>
            outside (same ▸ List.mem_append_left _ first)
          have there : (xs.take k).getLastD list ∈ list :: (xs.take k ++ xs.drop k) := List.mem_append_left _ first
          rw [whole] at there outside
          refine not_traversed there ?_ outside traversed
          simp only [_mu_list_clear, Function.update_of_ne unlike', Function.update_self]
      · rintro rfl
        have none_there : mem.count new_list = 0 := other.count
        rw [splice, mu_list_append_list, if_pos none_there]
        exact ⟨listed.traversed, other.traversed⟩
    | cons y ys =>
      refine ⟨fun _ => Or.inl (List.cons_ne_nil y ys), fun _ => ?_⟩
      have some_new : mem.count new_list ≠ 0 := by
        rw [other.count]
        exact Nat.succ_ne_zero _
      have kept : new_list ∉ list :: (xs.take k ++ y :: ys ++ xs.drop k) := by
        rw [List.mem_cons, List.mem_append, List.mem_append]
        rintro (rfl | (front | own) | back)
        · exact outside List.mem_cons_self
        · exact outside (List.mem_cons_of_mem _ (List.mem_of_mem_take front))
        · exact (List.nodup_cons.mp other.ring.nodup).1 own
        · exact outside (List.mem_cons_of_mem _ (List.mem_of_mem_drop back))
      rcases splice_some comp listed stands place (fun _ => some_new) with
        ⟨rfl, same⟩ | ⟨current, before, at_place, same⟩
      · rw [same]
        simp only [Moved, List.take_nil, List.drop_nil, List.nil_append, List.append_nil] at kept ⊢
        exact ⟨((listed_take_over other apart).clear kept).traversed, (listed_clear _ _).traversed⟩
      · rw [same]
        rw [← whole] at listed apart
        exact ⟨((listed_sublist listed other apart at_place).clear kept).traversed, (listed_clear _ _).traversed⟩

/-- Two lists, at the addresses 0 and 1, of one element each. -/
def two_lists : Mem Unit where
  item _ := ()
  next u := [2, 3, 0, 1].getD u 0
  prev u := [2, 3, 0, 1].getD u 0
  count _ := 1

theorem splice_iff_append : Traversed (mu_list_append_list two_lists 0 1) 0 [2, 3] := by
  have first : Listed two_lists 0 [2] := ⟨⟨⟨rfl, rfl⟩, ⟨rfl, rfl⟩, by decide⟩, rfl⟩
  have second : Listed two_lists 1 [3] := ⟨⟨⟨rfl, rfl⟩, ⟨rfl, rfl⟩, by decide⟩, rfl⟩
  have splice := splice_iff (fun _ _ => 0) .append first second (by unfold Apart; decide) trivial
  exact (splice.mpr (Or.inl (List.cons_ne_nil _ _))).1

/-- An empty list prepended to an empty one. -/
def prepended : Mem Unit := mu_list_prepend_list ⟨fun _ => (), id, id, fun _ => 0⟩ 0 1

/-- The first list leads to the head of the other, which leads to itself. -/
theorem empty_prepended :
    prepended.next 0 = 1 ∧ prepended.next 1 = 1 ∧ walk prepended.next 0 3 (prepended.next 0) = [1, 1, 1] := by
  decide
end
end Mailutils.ListLinks

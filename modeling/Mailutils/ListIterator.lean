import Mathlib.Data.List.Basic
import Mathlib.Data.List.Nodup

/-!
Lists and their iterators. An operation that deletes an element tells the iterators
in the chain of the list, and one that stands at the element moves on to the next
and remembers that it is already there. Two operations do not keep to this: an
iterator made by `mu_iterator_dup` is not put into the chain, and `mu_list_clear`
tells nobody. Where no iterator stands at an element that is deleted behind its back,
each iterator goes through what was ahead of it, in order, once, and without the
elements deleted meanwhile (`iterators_go_on`).
-/
namespace Mailutils.ListIterator

inductive Rc
  | ok | noent | erange
  deriving DecidableEq, Repr

/-- A pointer to an element; the head of the list stands for its end. -/
inductive Ptr
  | null | head | node (id : Nat)
  deriving DecidableEq, Repr

structure Node (α : Type*) where
  id : Nat
  item : α
  deriving DecidableEq, Repr

structure Iterator where
  cur : Ptr := .null
  backwards : Bool := false
  is_advanced : Nat := 0
  /-- The iterator is in the chain of its list. -/
  attached : Bool := true
  deriving DecidableEq, Repr

/-- A list with all iterators that have been made for it. -/
structure Mlist (α : Type*) where
  nodes : List (Node α)
  itrs : List Iterator := []
  deriving DecidableEq, Repr

section
variable {α : Type*}

def Mlist.ids (list : Mlist α) : List Nat := list.nodes.map Node.id

/-- The elements in the direction of an iterator. -/
def Iterator.order (itr : Iterator) (ids : List Nat) : List Nat := if itr.backwards then ids.reverse else ids

/-- The pointer to the first of some elements, followed by the head. -/
def front : List Nat → Ptr
  | [] => .head
  | x :: _ => .node x

/-- The link from one element to the next; there is none from a null pointer and from
    an element that has been freed. -/
def follow (ids : List Nat) : Ptr → Option Ptr
  | .null => none
  | .head => some (front ids)
  | .node x => if x ∈ ids then some (front (ids.dropWhile (· ≠ x)).tail) else none

def Iterator.first (ids : List Nat) (itr : Iterator) : Iterator := { itr with cur := front (itr.order ids) }

def Iterator.next (ids : List Nat) (itr : Iterator) : Option Iterator :=
  (follow (itr.order ids) itr.cur).map fun cur => { itr with cur }

def mu_iterator_first (ids : List Nat) (itr : Iterator) : Iterator :=
  Iterator.first ids { itr with is_advanced := 0 }

def mu_iterator_next (ids : List Nat) (itr : Iterator) : Option Iterator :=
  (if itr.is_advanced = 0 then itr.next ids else some itr).map fun itr => { itr with is_advanced := 0 }

/-- `delitem` of a list iterator, and what `mu_iterator_delitem` does on its answer. -/
def delitem (ids : List Nat) (item : Nat) (itr : Iterator) : Iterator :=
  if itr.attached ∧ itr.cur = .node item then
    match itr.next ids with
    | some itr => { itr with is_advanced := itr.is_advanced + 1 }
    | none => itr
  else itr

def mu_iterator_delitem (ids : List Nat) (item : Nat) (itrs : List Iterator) : List Iterator :=
  itrs.map (delitem ids item)

/-- Telling the iterators, taking the element out of the list and freeing it. -/
def unlink (list : Mlist α) (item : Nat) : Mlist α :=
  { nodes := list.nodes.filter (·.id ≠ item), itrs := mu_iterator_delitem list.ids item list.itrs }

def mu_list_remove (comp : α → α → Int) (list : Mlist α) (item : α) : Rc × Mlist α :=
  match list.nodes.find? fun current => comp current.item item = 0 with
  | some current => (.ok, unlink list current.id)
  | none => (.noent, list)

def mu_list_remove_nth (list : Mlist α) (n : Nat) : Rc × Mlist α :=
  if n ≥ list.nodes.length then (.erange, list)
  else
    match list.nodes[n]? with
    | some current => (.ok, unlink list current.id)
    | none => (.noent, list)

def mu_list_pop (list : Mlist α) : Rc × Mlist α :=
  match list.nodes.getLast? with
  | some last => (.ok, unlink list last.id)
  | none => (.noent, list)

/-- The iterators are not told. -/
def mu_list_clear (list : Mlist α) : Mlist α := { list with nodes := [] }

/-- `list_itrctl` with `mu_itrctl_delete`; the head of the list and a freed element
    cannot be deleted. -/
def list_itrctl_delete (list : Mlist α) (itr : Iterator) : Option (Rc × Mlist α) :=
  match itr.cur with
  | .null => some (.noent, list)
  | .head => none
  | .node ptr => if ptr ∈ list.ids then some (.ok, unlink list ptr) else none

def mu_list_get_iterator (list : Mlist α) : Mlist α := { list with itrs := list.itrs ++ [{}] }

/-- The copy is not put into the chain of the list. -/
def mu_iterator_dup (list : Mlist α) (orig : Iterator) : Mlist α :=
  { list with itrs := list.itrs ++ [{ orig with attached := false }] }

/-- What may be done with a list and its iterators, numbered in the order in which
    they were made. -/
inductive Op (α : Type*)
  | get_iterator
  | dup (i : Nat)
  | set_direction (i : Nat) (backwards : Bool)
  | first (i : Nat)
  | next (i : Nat)
  | delete (i : Nat)
  | remove (item : α)
  | remove_nth (n : Nat)
  | pop
  | clear
  deriving DecidableEq, Repr

/-- One operation; none if it follows a pointer to nowhere. -/
def step (comp : α → α → Int) (list : Mlist α) : Op α → Option (Mlist α)
  | .get_iterator => some (mu_list_get_iterator list)
  | .dup i => list.itrs[i]?.map (mu_iterator_dup list)
  | .set_direction i backwards =>
    list.itrs[i]?.map fun itr => { list with itrs := list.itrs.set i { itr with backwards } }
  | .first i => list.itrs[i]?.map fun itr => { list with itrs := list.itrs.set i (mu_iterator_first list.ids itr) }
  | .next i => list.itrs[i]?.bind fun itr =>
    (mu_iterator_next list.ids itr).map fun itr => { list with itrs := list.itrs.set i itr }
  | .delete i => list.itrs[i]?.bind fun itr => (list_itrctl_delete list itr).map Prod.snd
  | .remove item => some (mu_list_remove comp list item).2
  | .remove_nth n => some (mu_list_remove_nth list n).2
  | .pop => some (mu_list_pop list).2
  | .clear => some (mu_list_clear list)

def run (comp : α → α → Int) (list : Mlist α) : List (Op α) → Option (Mlist α)
  | [] => some list
  | op :: ops => (step comp list op).bind fun list => run comp list ops

/-- The element that iterator `i` comes to. -/
def visit (i : Nat) (list' : Mlist α) : Op α → List Nat
  | .next j =>
    if i = j then
      match list'.itrs[i]? with
      | some ⟨.node x, _, _, _⟩ => [x]
      | _ => []
    else []
  | _ => []

/-- The elements that iterator `i` comes to during a run. -/
def visits (comp : α → α → Int) (i : Nat) (list : Mlist α) : List (Op α) → List Nat
  | [] => []
  | op :: ops =>
    match step comp list op with
    | some list' => visit i list' op ++ visits comp i list' ops
    | none => []

/-- The iterator does not refer to a deleted element. -/
def Refers (ids : List Nat) (itr : Iterator) : Prop := ∀ x, itr.cur = .node x → x ∈ ids

def Safe (list : Mlist α) : Prop := ∀ itr ∈ list.itrs, Refers list.ids itr

/-- The elements an iterator has still to come to. -/
def ahead (ids : List Nat) (itr : Iterator) : List Nat :=
  match itr.cur with
  | .node x =>
    let rest := (itr.order ids).dropWhile (· ≠ x)
    if itr.is_advanced = 0 then rest.tail else rest
  | _ => []

/-- No iterator outside of the chain is at the element. -/
def Unobserved (list : Mlist α) (x : Nat) : Prop := ∀ itr ∈ list.itrs, itr.attached = false → itr.cur ≠ .node x

/-- What an operation needs: the iterators it uses are there, one that moves has been
    set and has not come to the end, one that deletes is at an element; what is deleted
    is told to every iterator at it. -/
def Meets (comp : α → α → Int) (list : Mlist α) : Op α → Prop
  | .get_iterator => True
  | .dup i | .set_direction i _ | .first i => i < list.itrs.length
  | .next i => ∃ itr, list.itrs[i]? = some itr ∧ itr.cur ≠ .null ∧ (itr.cur = .head → itr.is_advanced ≠ 0)
  | .delete i => ∃ itr, list.itrs[i]? = some itr ∧ itr.cur ≠ .head ∧ ∀ x, itr.cur = .node x → Unobserved list x
  | .remove item => ∀ current ∈ list.nodes.find? fun current => comp current.item item = 0, Unobserved list current.id
  | .remove_nth n => ∀ current ∈ list.nodes[n]?, Unobserved list current.id
  | .pop => ∀ last ∈ list.nodes.getLast?, Unobserved list last.id
  | .clear => ∀ itr ∈ list.itrs, ∀ x, itr.cur ≠ .node x

/-- Every operation of a run finds what it needs. -/
def Allowed (comp : α → α → Int) (list : Mlist α) : List (Op α) → Prop
  | [] => True
  | op :: ops => Meets comp list op ∧ ∀ list' ∈ step comp list op, Allowed comp list' ops

section
variable {ids : List Nat} {itr : Iterator} {x y : Nat}

theorem mem_order (itr : Iterator) : x ∈ itr.order ids ↔ x ∈ ids := by
  unfold Iterator.order
  split
  · exact List.mem_reverse
  · exact .rfl

theorem order_nodup (itr : Iterator) (nodup : ids.Nodup) : (itr.order ids).Nodup := by
  unfold Iterator.order
  split
  · exact List.nodup_reverse.mpr nodup
  · exact nodup

theorem order_filter (itr : Iterator) (ids : List Nat) (p : Nat → Bool) : itr.order (ids.filter p) = (itr.order ids).filter p := by
  unfold Iterator.order
  split
  · exact List.filter_reverse.symm
  · rfl

theorem order_split (itr : Iterator) (nodup : ids.Nodup) (member : x ∈ ids) :
    ∃ before after, itr.order ids = before ++ x :: after ∧ x ∉ before ∧ x ∉ after ∧ (before ++ after).Nodup := by
  obtain ⟨before, after, split⟩ := List.append_of_mem ((mem_order itr).mpr member)
  have nodup := order_nodup itr nodup
  rw [split] at nodup
  obtain ⟨fresh, nodup⟩ := List.nodup_middle.mp nodup |> List.nodup_cons.mp
  rw [List.mem_append, not_or] at fresh
  exact ⟨before, after, split, fresh.1, fresh.2, nodup⟩

theorem dropWhile_split {before after : List Nat} (fresh : x ∉ before) :
    (before ++ x :: after).dropWhile (· ≠ x) = x :: after := by
  rw [List.dropWhile_append_of_pos fun y member => by simpa using fun same : y = x => fresh (same ▸ member)]
  simp

theorem filter_ne_self {l : List Nat} (fresh : y ∉ l) : l.filter (· ≠ y) = l :=
  List.filter_eq_self.mpr fun z member => by simpa using fun same : z = y => fresh (same ▸ member)

theorem ahead_split {before after : List Nat} (here : itr.cur = .node x) (split : itr.order ids = before ++ x :: after)
    (fresh : x ∉ before) : ahead ids itr = if itr.is_advanced = 0 then after else x :: after := by
  unfold ahead
  rw [here]
  simp only [split, dropWhile_split fresh, List.tail_cons]

theorem next_split {before after : List Nat} (here : itr.cur = .node x) (split : itr.order ids = before ++ x :: after)
    (fresh : x ∉ before) : itr.next ids = some { itr with cur := front after } := by
  unfold Iterator.next follow
  rw [here]
  simp only [split]
  rw [if_pos (by simp), dropWhile_split fresh]
  rfl

/-- An iterator that is told, or is elsewhere, has the same ahead of it as before,
    without the element. -/
theorem delitem_ahead (nodup : ids.Nodup) (refers : Refers ids itr)
    (told : itr.attached = false → itr.cur ≠ .node y) :
    Refers (ids.filter (· ≠ y)) (delitem ids y itr) ∧ (itr.cur ≠ .null → (delitem ids y itr).cur ≠ .null) ∧
      ahead (ids.filter (· ≠ y)) (delitem ids y itr) = (ahead ids itr).filter (· ≠ y) := by
  cases here : itr.cur with
  | null =>
    have same : delitem ids y itr = itr := if_neg (by simp [here])
    exact ⟨by simp [same, Refers, here], by simp, by simp [same, ahead, here]⟩
  | head =>
    have same : delitem ids y itr = itr := if_neg (by simp [here])
    exact ⟨by simp [same, Refers, here], by simp [same, here], by simp [same, ahead, here]⟩
  | node x =>
    have member := refers x here
    obtain ⟨before, after, split, fresh, fresh', nodup'⟩ := order_split itr nodup member
    by_cases other : x = y
    · -- the iterator moves on
      subst other
      have attached : itr.attached = true := by
        by_contra detached
        exact told (by simpa using detached) here
      have moved : delitem ids x itr = { itr with cur := front after, is_advanced := itr.is_advanced + 1 } := by
        unfold delitem
        rw [if_pos ⟨attached, here⟩, next_split here split fresh]
      have order' : Iterator.order { itr with cur := front after, is_advanced := itr.is_advanced + 1 }
          (ids.filter (· ≠ x)) = before ++ after := by
        have := order_filter itr ids fun z => decide (z ≠ x)
        rw [split, List.filter_append, List.filter_cons_of_neg (by simp), filter_ne_self fresh,
          filter_ne_self fresh'] at this
        exact this
      have left : (ahead ids itr).filter (· ≠ x) = after := by
        rw [ahead_split here split fresh]
        split
        · exact filter_ne_self fresh'
        · rw [List.filter_cons_of_neg (by simp), filter_ne_self fresh']
      rw [moved, left]
      cases after with
      | nil => exact ⟨by simp [Refers, front], by simp [front], rfl⟩
      | cons z after =>
        refine ⟨?_, by simp [front], ?_⟩
        · intro z' here'
          obtain rfl : z = z' := by simpa [front] using here'
          rw [← mem_order { itr with cur := front (z :: after), is_advanced := itr.is_advanced + 1 }, order']
          simp
        · have fresh : z ∉ before := fun member =>
            (List.nodup_append.mp nodup').2.2 z member z List.mem_cons_self rfl
          rw [ahead_split rfl order' fresh, if_neg (Nat.succ_ne_zero _)]
    · have same : delitem ids y itr = itr := if_neg (by simp [here, other])
      rw [same]
      refine ⟨?_, by simp [here], ?_⟩
      · intro x' here'
        obtain rfl : x = x' := by simpa [here] using here'
        exact List.mem_filter.mpr ⟨member, by simpa using other⟩
      · have split' : itr.order (ids.filter (· ≠ y)) = before.filter (· ≠ y) ++ x :: after.filter (· ≠ y) := by
          rw [order_filter, split, List.filter_append, List.filter_cons_of_pos (by simpa using other)]
        rw [ahead_split here split' fun member => fresh (List.mem_of_mem_filter member), ahead_split here split fresh]
        split
        · rfl
        · rw [List.filter_cons_of_pos (by simpa using other)]

theorem ahead_sublist (ids : List Nat) (itr : Iterator) : (ahead ids itr).Sublist (itr.order ids) := by
  unfold ahead
  split
  · dsimp only
    split
    · exact (List.tail_sublist _).trans (List.dropWhile_sublist _)
    · exact List.dropWhile_sublist _
  · exact List.nil_sublist _

theorem ahead_subset (member : x ∈ ahead ids itr) : x ∈ ids := (mem_order itr).mp ((ahead_sublist ids itr).subset member)

private theorem ahead_nodup (nodup : ids.Nodup) : (ahead ids itr).Nodup := (order_nodup itr nodup).sublist (ahead_sublist ids itr)

/-- The element an iterator is at. -/
def Iterator.at (itr : Iterator) : List Nat :=
  match itr.cur with
  | .node x => [x]
  | _ => []

theorem next_ahead (nodup : ids.Nodup) (refers : Refers ids itr) (set : itr.cur ≠ .null)
    (goes_on : itr.cur = .head → itr.is_advanced ≠ 0) :
    ∃ itr', mu_iterator_next ids itr = some itr' ∧ Refers ids itr' ∧ itr'.cur ≠ .null ∧
      ahead ids itr = itr'.at ++ ahead ids itr' := by
  unfold mu_iterator_next
  split
  · next still =>
    cases here : itr.cur with
    | null => exact absurd here set
    | head => exact absurd still (goes_on here)
    | node x =>
      obtain ⟨before, after, split, fresh, fresh', nodup'⟩ := order_split itr nodup (refers x here)
      rw [next_split here split fresh]
      refine ⟨_, rfl, ?_⟩
      rw [ahead_split here split fresh, if_pos still]
      cases after with
      | nil => exact ⟨by simp [Refers, front], by simp [front], rfl⟩
      | cons z after =>
        have split' : itr.order ids = (before ++ [x]) ++ z :: after := by rw [split]; simp
        have fresh'' : z ∉ before ++ [x] := by
          have := (List.nodup_append.mp nodup').2.2
          simp only [List.mem_append, List.mem_singleton, not_or]
          exact ⟨fun member => this z member z List.mem_cons_self rfl, fun same => fresh' (same ▸ List.mem_cons_self)⟩
        refine ⟨?_, by simp [front], ?_⟩
        · intro z' here'
          obtain rfl : z = z' := by simpa [front] using here'
          refine (mem_order itr).mp (?_ : z ∈ itr.order ids)
          rw [split']
          simp
        · let next : Iterator := { itr with cur := front (z :: after), is_advanced := 0 }
          rw [show ahead ids next = _ from ahead_split rfl split' fresh'']
          rfl
  · next advanced =>
    refine ⟨_, rfl, refers, set, ?_⟩
    cases here : itr.cur with
    | null => exact absurd here set
    | head => simp [ahead, Iterator.at, here]
    | node x =>
      obtain ⟨before, after, split, fresh, -, -⟩ := order_split itr nodup (refers x here)
      rw [ahead_split here split fresh, if_neg advanced,
        show ahead ids { itr with is_advanced := 0 } = _ from ahead_split here split fresh, Iterator.at]
      simp [here]
end

/-- The iterator is put to a new start. -/
def Restarts (i : Nat) (op : Op α) : Prop := op = .first i ∨ ∃ backwards, op = .set_direction i backwards

/-- What an operation that finds what it needs can do to a list. -/
inductive Change (list : Mlist α) : Op α → Mlist α → Prop
  | same {op : Op α} (quiet : ∀ i list', visit i list' op = []) : Change list op list
  | added {op : Op α} (quiet : ∀ i list', visit i list' op = []) {itr : Iterator} (refers : Refers list.ids itr) :
    Change list op { list with itrs := list.itrs ++ [itr] }
  | restarted {op : Op α} {i : Nat} (restarts : Restarts i op) {itr : Iterator} (refers : Refers list.ids itr) :
    Change list op { list with itrs := list.itrs.set i itr }
  | moved {i : Nat} {itr itr' : Iterator} (there : list.itrs[i]? = some itr) (refers : Refers list.ids itr')
    (set : itr'.cur ≠ .null) (goes : ahead list.ids itr = itr'.at ++ ahead list.ids itr') :
    Change list (.next i) { list with itrs := list.itrs.set i itr' }
  | unlinked {op : Op α} (quiet : ∀ i list', visit i list' op = []) {x : Nat} (told : Unobserved list x) :
    Change list op (unlink list x)
  | cleared (free : ∀ itr ∈ list.itrs, ∀ x, itr.cur ≠ .node x) : Change list .clear (mu_list_clear list)

/-- The elements are distinct, and no iterator refers to a deleted one. -/
structure Inv (list : Mlist α) : Prop where
  nodup : list.ids.Nodup
  safe : Safe list

variable {comp : α → α → Int} {list list' : Mlist α} {op : Op α}

theorem step_change (inv : Inv list) (meets : Meets comp list op) :
    ∃ list', step comp list op = some list' ∧ Change list op list' := by
  cases op with
  | get_iterator => exact ⟨_, rfl, .added (fun _ _ => rfl) (by simp [Refers])⟩
  | dup i =>
    have there : list.itrs[i]? = some list.itrs[i] := List.getElem?_eq_getElem meets
    refine ⟨mu_iterator_dup list list.itrs[i], by simp [step, there], .added (fun _ _ => rfl) ?_⟩
    exact fun x here => inv.safe list.itrs[i] (List.getElem_mem meets) x here
  | set_direction i backwards =>
    have there : list.itrs[i]? = some list.itrs[i] := List.getElem?_eq_getElem meets
    refine ⟨{ list with itrs := list.itrs.set i { list.itrs[i] with backwards } }, by simp [step, there],
      .restarted (.inr ⟨backwards, rfl⟩) ?_⟩
    exact fun x here => inv.safe list.itrs[i] (List.getElem_mem meets) x here
  | first i =>
    have there : list.itrs[i]? = some list.itrs[i] := List.getElem?_eq_getElem meets
    refine ⟨{ list with itrs := list.itrs.set i (mu_iterator_first list.ids list.itrs[i]) }, by simp [step, there],
      .restarted (.inl rfl) ?_⟩
    intro x here
    refine (mem_order list.itrs[i]).mp ?_
    simp only [mu_iterator_first, Iterator.first] at here
    cases order : Iterator.order { list.itrs[i] with is_advanced := 0 } list.ids with
    | nil => simp [order, front] at here
    | cons z rest =>
      obtain rfl : z = x := by simpa [order, front] using here
      change z ∈ Iterator.order { list.itrs[i] with is_advanced := 0 } list.ids
      rw [order]
      exact List.mem_cons_self
  | next i =>
    obtain ⟨itr, there, set, goes_on⟩ := meets
    obtain ⟨itr', moves, refers, set', goes⟩ :=
      next_ahead inv.nodup (inv.safe itr (List.mem_of_getElem? there)) set goes_on
    exact ⟨_, by simp only [step, there, Option.bind_some, moves, Option.map_some], .moved there refers set' goes⟩
  | delete i =>
    obtain ⟨itr, there, on, told⟩ := meets
    have safe := inv.safe itr (List.mem_of_getElem? there)
    simp only [step, there, Option.bind_some, list_itrctl_delete]
    cases here : itr.cur with
    | null => exact ⟨list, rfl, .same fun _ _ => rfl⟩
    | head => exact absurd here on
    | node x => exact ⟨unlink list x, by simp [safe x here], .unlinked (fun _ _ => rfl) (told x here)⟩
  | remove item =>
    refine ⟨_, rfl, ?_⟩
    unfold mu_list_remove
    split
    · next current found => exact .unlinked (fun _ _ => rfl) (meets current found)
    · exact .same fun _ _ => rfl
  | remove_nth n =>
    refine ⟨_, rfl, ?_⟩
    unfold mu_list_remove_nth
    split
    · exact .same fun _ _ => rfl
    · split
      · next current found => exact .unlinked (fun _ _ => rfl) (meets current found)
      · exact .same fun _ _ => rfl
  | pop =>
    refine ⟨_, rfl, ?_⟩
    unfold mu_list_pop
    split
    · next last found => exact .unlinked (fun _ _ => rfl) (meets last found)
    · exact .same fun _ _ => rfl
  | clear => exact ⟨_, rfl, .cleared meets⟩

theorem ids_unlink (list : Mlist α) (x : Nat) : (unlink list x).ids = list.ids.filter (· ≠ x) := by
  simp only [Mlist.ids, unlink, List.filter_map]
  rfl

theorem Change.inv (change : Change list op list') (inv : Inv list) : Inv list' ∧ list'.ids.Sublist list.ids := by
  cases change with
  | same => exact ⟨inv, .refl _⟩
  | added _ refers =>
    refine ⟨⟨inv.nodup, fun itr member => ?_⟩, .refl _⟩
    rcases List.mem_append.mp member with old | new
    · exact inv.safe itr old
    · exact List.mem_singleton.mp new ▸ refers
  | restarted _ refers =>
    refine ⟨⟨inv.nodup, fun itr member => ?_⟩, .refl _⟩
    rcases List.mem_or_eq_of_mem_set member with old | rfl
    · exact inv.safe itr old
    · exact refers
  | moved _ refers =>
    refine ⟨⟨inv.nodup, fun itr member => ?_⟩, .refl _⟩
    rcases List.mem_or_eq_of_mem_set member with old | rfl
    · exact inv.safe itr old
    · exact refers
  | @unlinked _ _ x told =>
    refine ⟨⟨?_, fun itr member => ?_⟩, ?_⟩
    · rw [ids_unlink]
      exact inv.nodup.filter _
    · rw [ids_unlink]
      obtain ⟨itr, old, rfl⟩ := List.mem_map.mp member
      exact (delitem_ahead inv.nodup (inv.safe itr old) (told itr old)).1
    · rw [ids_unlink]
      exact List.filter_sublist
  | cleared free =>
    exact ⟨⟨List.nodup_nil, fun itr member x here => absurd here (free itr member x)⟩, List.nil_sublist _⟩

/-- What is ahead of an iterator, without the elements that are deleted, is what it
    comes to and what is then ahead of it. -/
theorem Change.ahead (change : Change list op list') (inv : Inv list) {i : Nat} {itr : Iterator}
    (there : list.itrs[i]? = some itr) (set : itr.cur ≠ .null) (goes_on : ¬ Restarts i op) :
    ∃ itr', list'.itrs[i]? = some itr' ∧ itr'.cur ≠ .null ∧
      (ahead list.ids itr).filter (· ∈ list'.ids) = visit i list' op ++ ahead list'.ids itr' := by
  have safe := inv.safe itr (List.mem_of_getElem? there)
  have unchanged : (ListIterator.ahead list.ids itr).filter (· ∈ list.ids) = ListIterator.ahead list.ids itr :=
    List.filter_eq_self.mpr fun x member => by simpa using ahead_subset member
  cases change with
  | same quiet => exact ⟨itr, there, set, by rw [unchanged, quiet, List.nil_append]⟩
  | added quiet =>
    refine ⟨itr, ?_, set, by rw [quiet, List.nil_append]; exact unchanged⟩
    rw [List.getElem?_append_left (List.getElem?_eq_some_iff.mp there).1, there]
  | @restarted _ j restarts =>
    have other : j ≠ i := fun same => goes_on (same ▸ restarts)
    refine ⟨itr, by rw [List.getElem?_set_ne other, there], set, ?_⟩
    rcases restarts with rfl | ⟨backwards, rfl⟩
    · exact unchanged
    · exact unchanged
  | @moved j itrJ itr' thereJ refers set' goes =>
    by_cases same : i = j
    · subst same
      obtain rfl : itrJ = itr := Option.some.inj (thereJ.symm.trans there)
      have there' : (list.itrs.set i itr')[i]? = some itr' :=
        List.getElem?_set_self (List.getElem?_eq_some_iff.mp there).1
      refine ⟨itr', there', set', unchanged.trans (goes.trans ?_)⟩
      simp only [visit, there', Iterator.at]
      obtain ⟨cur, backwards, is_advanced, attached⟩ := itr'
      cases cur with
      | null => rfl
      | head => rfl
      | node x => simp [Mlist.ids]
    · refine ⟨itr, by rw [List.getElem?_set_ne (Ne.symm same), there], set, ?_⟩
      simp only [visit, if_neg same, List.nil_append]
      exact unchanged
  | @unlinked _ quiet x told =>
    obtain ⟨-, set', left⟩ := delitem_ahead (y := x) inv.nodup safe (told itr (List.mem_of_getElem? there))
    refine ⟨delitem list.ids x itr, ?_, set' set, ?_⟩
    · simp only [unlink, mu_iterator_delitem, List.getElem?_map, there, Option.map_some]
    · rw [quiet, List.nil_append, ids_unlink, left]
      refine List.filter_congr fun z member => ?_
      simp [ahead_subset member]
  | cleared free =>
    refine ⟨itr, there, set, ?_⟩
    cases here : itr.cur with
    | null => exact absurd here set
    | head => simp [ListIterator.ahead, visit, here]
    | node x => exact absurd here (free itr (List.mem_of_getElem? there) x)

theorem filter_twice {all now then_ left left' ids ids' : List Nat} (nodup : all.Nodup)
    (first : all.filter (· ∈ ids) = now ++ left) (second : then_ ++ left' = left.filter fun x => x ∈ then_ ∨ x ∈ ids')
    (inside : ∀ x, x ∈ left → x ∈ ids) (sub : ∀ x ∈ ids', x ∈ ids) :
    now ++ then_ ++ left' = all.filter fun x => x ∈ now ++ then_ ∨ x ∈ ids' := by
  have nodup' : (now ++ left).Nodup := first ▸ nodup.filter _
  have kept {x : Nat} (member : x ∈ now ++ then_ ∨ x ∈ ids') : x ∈ ids := by
    rcases member with member | member
    · rcases List.mem_append.mp member with here | later
      · have : x ∈ all.filter (· ∈ ids) := first ▸ List.mem_append_left _ here
        simpa using (List.mem_filter.mp this).2
      · have : x ∈ left.filter fun x => x ∈ then_ ∨ x ∈ ids' := second ▸ List.mem_append_left _ later
        exact inside x (List.mem_of_mem_filter this)
    · exact sub x member
  calc now ++ then_ ++ left' = now ++ left.filter (fun x => x ∈ then_ ∨ x ∈ ids') := by rw [List.append_assoc, second]
    _ = (now ++ left).filter (fun x => x ∈ now ++ then_ ∨ x ∈ ids') := by
      have whole : now.filter (fun x => x ∈ now ++ then_ ∨ x ∈ ids') = now :=
        List.filter_eq_self.mpr fun x member => by simp [member]
      rw [List.filter_append, whole]
      congr 1
      refine List.filter_congr fun x member => ?_
      have : x ∉ now := fun here => (List.nodup_append.mp nodup').2.2 x here x member rfl
      simp [this]
    _ = all.filter (fun x => x ∈ now ++ then_ ∨ x ∈ ids') := by
      rw [← first, List.filter_filter]
      refine List.filter_congr fun x _ => ?_
      rw [Bool.eq_iff_iff, Bool.and_eq_true, decide_eq_true_eq, decide_eq_true_eq]
      exact ⟨And.left, fun member => ⟨member, kept member⟩⟩

/-- The run goes through to its end, and no iterator refers to a deleted element; and
    each iterator comes, in order, to just those elements ahead of it that are not
    deleted before it comes to them. -/
theorem iterators_go_on_from (inv : Inv list) (ops : List (Op α)) (allowed : Allowed comp list ops) :
    ∃ list', run comp list ops = some list' ∧ Inv list' ∧ list'.ids.Sublist list.ids ∧
      ∀ i itr, list.itrs[i]? = some itr → itr.cur ≠ .null → (∀ op ∈ ops, ¬ Restarts i op) →
        ∃ itr', list'.itrs[i]? = some itr' ∧
          visits comp i list ops ++ ahead list'.ids itr' =
            (ahead list.ids itr).filter fun x => x ∈ visits comp i list ops ∨ x ∈ list'.ids := by
  induction ops generalizing list with
  | nil =>
    refine ⟨list, rfl, inv, .refl _, fun i itr there _ _ => ⟨itr, there, ?_⟩⟩
    refine (List.filter_eq_self.mpr fun x member => ?_).symm
    simpa [visits] using ahead_subset member
  | cons op ops ih =>
    obtain ⟨meets, allowed⟩ := allowed
    obtain ⟨list₁, step₁, change⟩ := step_change inv meets
    obtain ⟨inv₁, sub₁⟩ := change.inv inv
    obtain ⟨list', rest, inv', sub', goes⟩ := ih inv₁ (allowed list₁ step₁)
    refine ⟨list', by rw [run, step₁, Option.bind_some, rest], inv', sub'.trans sub₁, fun i itr there set never => ?_⟩
    obtain ⟨here, later⟩ := List.forall_mem_cons.mp never
    obtain ⟨itr₁, there₁, set₁, ahead₁⟩ := change.ahead inv there set here
    obtain ⟨itr', there', ahead'⟩ := goes i itr₁ there₁ set₁ later
    refine ⟨itr', there', ?_⟩
    simp only [visits, step₁]
    generalize visit i list₁ op = now at ahead₁ ⊢
    generalize visits comp i list₁ ops = then_ at ahead' ⊢
    exact filter_twice (ahead_nodup inv.nodup) ahead₁ ahead' (fun x => ahead_subset) fun x member => sub'.subset member

theorem allowed_append {ops₁ ops₂ : List (Op α)} (allowed : Allowed comp list (ops₁ ++ ops₂)) :
    Allowed comp list ops₁ ∧ ∀ list₁ ∈ run comp list ops₁, Allowed comp list₁ ops₂ := by
  induction ops₁ generalizing list with
  | nil =>
    refine ⟨trivial, fun list₁ same => ?_⟩
    obtain rfl : list = list₁ := Option.some.inj same
    exact allowed
  | cons op ops₁ ih =>
    refine ⟨⟨allowed.1, fun list' step' => (ih (allowed.2 list' step')).1⟩, fun list₁ run₁ => ?_⟩
    obtain ⟨list', step', rest⟩ := Option.bind_eq_some_iff.mp run₁
    exact (ih (allowed.2 list' step')).2 list₁ rest

end

/-- In every run over a list in which each operation finds what it needs, no iterator
    ever refers to a deleted element, and from any point of the run on each iterator
    comes to just those elements ahead of it that are not deleted before it comes to
    them, once and in order. -/
theorem iterators_go_on {α : Type*} (comp : α → α → Int) (nodes : List (Node α)) (distinct : (nodes.map Node.id).Nodup)
    (ops₁ ops₂ : List (Op α)) (allowed : Allowed comp ⟨nodes, []⟩ (ops₁ ++ ops₂)) :
    ∃ list₁ list₂, run comp ⟨nodes, []⟩ ops₁ = some list₁ ∧ run comp list₁ ops₂ = some list₂ ∧ Safe list₂ ∧
      ∀ i itr, list₁.itrs[i]? = some itr → itr.cur ≠ .null → (∀ op ∈ ops₂, ¬ Restarts i op) →
        ∃ itr', list₂.itrs[i]? = some itr' ∧
          visits comp i list₁ ops₂ ++ ahead list₂.ids itr' =
            (ahead list₁.ids itr).filter fun x => x ∈ visits comp i list₁ ops₂ ∨ x ∈ list₂.ids := by
  obtain ⟨allowed₁, allowed₂⟩ := allowed_append allowed
  have inv : Inv (⟨nodes, []⟩ : Mlist α) := ⟨distinct, by simp [Safe]⟩
  obtain ⟨list₁, run₁, inv₁, -, -⟩ := iterators_go_on_from inv ops₁ allowed₁
  obtain ⟨list₂, run₂, inv₂, -, goes⟩ := iterators_go_on_from inv₁ ops₂ (allowed₂ list₁ run₁)
  exact ⟨list₁, list₂, run₁, run₂, inv₂.safe, goes⟩

/-- The iterator deletes the element it is at, and comes to the next. -/
theorem iterators_go_on_delete :
    ∃ list₁ list₂, run (fun a b => a - b) ⟨[⟨1, 10⟩, ⟨2, 20⟩], []⟩ [.get_iterator, .first 0] = some list₁ ∧
      run (fun a b => a - b) list₁ [.delete 0, .next 0] = some list₂ ∧ Safe list₂ := by
  have allowed : Allowed (fun a b => a - b) (⟨[⟨1, 10⟩, ⟨2, 20⟩], []⟩ : Mlist Int)
      ([.get_iterator, .first 0] ++ [.delete 0, .next 0]) := by
    refine ⟨trivial, ?_⟩
    rintro _ ⟨⟩
    refine ⟨Nat.zero_lt_one, ?_⟩
    rintro _ ⟨⟩
    refine ⟨⟨_, rfl, by decide, ?_⟩, ?_⟩
    · rintro x ⟨⟩ itr member detached
      obtain rfl := List.mem_singleton.mp member
      cases detached
    rintro _ ⟨⟩
    refine ⟨⟨_, rfl, by decide, by decide⟩, ?_⟩
    rintro _ ⟨⟩
    trivial
  obtain ⟨list₁, list₂, run₁, run₂, safe, -⟩ := iterators_go_on _ _ (by decide) _ _ allowed
  exact ⟨list₁, list₂, run₁, run₂, safe⟩

/-- The copy of an iterator, and any iterator after `mu_list_clear`, is left at a
    deleted element. -/
theorem iterator_left_behind :
    (∃ list, run (fun a b => a - b) (⟨[⟨1, 10⟩, ⟨2, 20⟩], []⟩ : Mlist Int)
      [.get_iterator, .first 0, .dup 0, .delete 0] = some list ∧ ¬ Safe list) ∧
    ∃ list, run (fun a b => a - b) (⟨[⟨1, 10⟩, ⟨2, 20⟩], []⟩ : Mlist Int)
      [.get_iterator, .first 0, .clear] = some list ∧ ¬ Safe list := by
  refine ⟨⟨_, rfl, fun safe => ?_⟩, ⟨_, rfl, fun safe => ?_⟩⟩
  · exact absurd (safe ⟨.node 1, false, 0, false⟩ (by decide) 1 rfl) (by decide)
  · exact absurd (safe ⟨.node 1, false, 0, true⟩ (by decide) 1 rfl) (by decide)

end Mailutils.ListIterator

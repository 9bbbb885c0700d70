import Mailutils.ListLinks
import Mailutils.ListSort
import Mathlib.Data.List.Nodup

/-!
The links of a list while it is sorted (`libmailutils/list/sort.c`). The elements are moved to two lists on the stack,
which are sorted and joined around the middle element, and the list gets the result. The links come to those of the
sorted list in both directions (`qsort_listed`, `mu_list_sort_sorts`).
-/
namespace Mailutils.ListQsort
open Mailutils.Circular Mailutils.ListLinks Mailutils.ListSort

section
variable {α : Type*}

def set_next (mem : Mem α) (ent value : Nat) : Mem α := { mem with next := Function.update mem.next ent value }

def set_prev (mem : Mem α) (ent value : Nat) : Mem α := { mem with prev := Function.update mem.prev ent value }

def _list_append_entry (mem : Mem α) (list ent : Nat) : Mem α :=
  let mem := set_prev mem ent (mem.prev list)
  let mem := set_next mem ent list
  let mem := set_next mem (mem.prev list) ent
  let mem := set_prev mem list ent
  { mem with count := Function.update mem.count list (mem.count list + 1) }

/-- A list of two elements the other way round. -/
def swap (mem : Mem α) (list : Nat) : Mem α :=
  let cur := mem.prev list
  let mem := set_prev mem list (mem.next list)
  let mem := set_next mem list cur
  let mem := set_prev mem (mem.next list) list
  let mem := set_next mem (mem.next list) (mem.prev list)
  let mem := set_next mem (mem.prev list) list
  set_prev mem (mem.prev list) (mem.next list)

/-- The loop over the elements of the list, from `cur` on. A null pointer is 0. -/
def split_loop (cmp : α → α → Int) (list middle low high : Nat) : Nat → Nat → Mem α → Mem α
  | 0, _, mem => mem
  | fuel + 1, cur, mem =>
    if cur = list then mem
    else
      let next := mem.next cur
      let mem := set_next mem cur 0
      split_loop cmp list middle low high fuel next
        (if cur ≠ middle then
          if cmp (mem.item middle) (mem.item cur) < 0 then _list_append_entry mem high cur
          else _list_append_entry mem low cur
        else mem)

/-- The middle element is put behind the low list. -/
def join_middle (mem : Mem α) (middle low : Nat) : Mem α :=
  let cur := if mem.prev low = low then low else mem.prev low
  let mem := set_next mem cur middle
  let mem := set_prev mem middle cur
  let mem := set_next mem middle low
  set_prev mem low middle

/-- The high list is put behind the middle element. -/
def join_high (mem : Mem α) (middle low high : Nat) : Mem α :=
  if mem.next high ≠ high then
    let mem := set_next mem middle (mem.next high)
    let mem := set_prev mem (mem.next high) middle
    let mem := set_prev mem low (mem.prev high)
    let mem := set_next mem (mem.prev low) low
    { mem with count := Function.update mem.count low (mem.count low + mem.count high) }
  else mem

/-- The list gets the elements of the low list. -/
def take_back (mem : Mem α) (list low : Nat) : Mem α :=
  let mem := set_next mem list (mem.next low)
  let mem := set_prev mem (mem.next list) list
  let mem := set_prev mem list (mem.prev low)
  set_next mem (mem.prev list) list

/-- The element `n` links further. -/
def advance (next : Nat → Nat) : Nat → Nat → Nat
  | 0, middle => middle
  | n + 1, middle => advance next n (next middle)

/-- The lists on the stack are at `sp` and the address after it. -/
def _list_qsort (cmp : α → α → Int) : Nat → Nat → Nat → Mem α → Mem α
  | 0, _, _, mem => mem
  | fuel + 1, sp, list, mem =>
    if mem.count list < 2 then mem
    else if mem.count list = 2 then
      if cmp (mem.item (mem.prev list)) (mem.item (mem.next list)) < 0 then swap mem list else mem
    else
      let middle := advance mem.next (mem.count list / 2) (mem.next list)
      let mem' := _mu_list_clear (_mu_list_clear mem sp) (sp + 1)
      let mem' := split_loop cmp list middle (sp + 1) sp (mem.count list) (mem.next list) mem'
      let mem' := _list_qsort cmp fuel (sp + 2) (sp + 1) mem'
      let mem' := _list_qsort cmp fuel (sp + 2) sp mem'
      take_back (join_high (join_middle mem' middle (sp + 1)) middle (sp + 1) sp) list (sp + 1)

variable {mem mem' mem'' : Mem α} {list ent middle low high u : Nat} {xs ys : List Nat}

/-- The items, and the links and the number of elements at other addresses. -/
structure Same (mem mem' : Mem α) (S : Nat → Prop) : Prop where
  item : mem'.item = mem.item
  fields : ∀ u, ¬ S u → mem'.next u = mem.next u ∧ mem'.prev u = mem.prev u ∧ mem'.count u = mem.count u

theorem Same.trans {S T : Nat → Prop} (first : Same mem mem' S) (second : Same mem' mem'' T) :
    Same mem mem'' fun u => S u ∨ T u := by
  refine ⟨second.item.trans first.item, fun u other => ?_⟩
  rw [not_or] at other
  obtain ⟨next, prev, count⟩ := first.fields u other.1
  obtain ⟨next', prev', count'⟩ := second.fields u other.2
  exact ⟨next'.trans next, prev'.trans prev, count'.trans count⟩

theorem Same.mono {S T : Nat → Prop} (same : Same mem mem' S) (within : ∀ u, S u → T u) : Same mem mem' T :=
  ⟨same.item, fun u other => same.fields u fun changed => other (within u changed)⟩

theorem Same.listed {S : Nat → Prop} (same : Same mem mem' S) (listed : Listed mem list xs)
    (apart : ∀ u ∈ list :: xs, ¬ S u) : Listed mem' list xs := by
  refine ⟨listed.ring.congr fun u member => ?_, ?_⟩
  · obtain ⟨next, prev, _⟩ := same.fields u (apart u member)
    exact ⟨next.symm, prev.symm⟩
  · rw [(same.fields list (apart list List.mem_cons_self)).2.2]
    exact listed.count

theorem clear_same (mem : Mem α) (list : Nat) : Same mem (_mu_list_clear mem list) (· = list) :=
  ⟨rfl, fun _ other => ⟨Function.update_of_ne other .., Function.update_of_ne other .., Function.update_of_ne other ..⟩⟩

theorem set_next_same (mem : Mem α) (ent value : Nat) : Same mem (set_next mem ent value) (· = ent) :=
  ⟨rfl, fun _ other => ⟨Function.update_of_ne other .., rfl, rfl⟩⟩

private theorem append_entry_listed (listed : Listed mem list xs) (new : ent ∉ list :: xs) :
    Listed (_list_append_entry mem list ent) list (xs ++ [ent]) := by
  have other : list ≠ ent := fun same => new (same ▸ List.mem_cons_self)
  refine ⟨?_, ?_⟩
  · simp only [_list_append_entry, set_next, set_prev, Function.update_of_ne other, listed.ring.prev_head]
    exact listed.ring.snoc new
  · refine (Function.update_self ..).trans ?_
    rw [List.length_append, List.length_singleton, ← listed.count]
    rfl

private theorem append_entry_same (listed : Listed mem list xs) (new : ent ∉ list :: xs) :
    Same mem (_list_append_entry mem list ent) fun u => u = ent ∨ u ∈ list :: xs := by
  have other : list ≠ ent := fun same => new (same ▸ List.mem_cons_self)
  refine ⟨rfl, fun u outside => ?_⟩
  rw [not_or] at outside
  have unlike : u ≠ xs.getLastD list := fun same => outside.2 (same ▸ List.getLastD_mem_cons)
  have unlike' : u ≠ list := fun same => outside.2 (same ▸ List.mem_cons_self)
  simp only [_list_append_entry, set_next, set_prev, Function.update_of_ne other, listed.ring.prev_head,
    Function.update_of_ne unlike, Function.update_of_ne unlike', Function.update_of_ne outside.1, and_self]

theorem append_entry_cut {x one two : Nat} {os ts : List Nat} (first : Listed mem one os) (second : Listed mem two ts)
    (not_first : x ∉ one :: os) (not_second : x ∉ two :: ts) (split : ∀ u ∈ one :: os, u ∉ two :: ts) :
    let mem' := _list_append_entry (set_next mem x 0) one x
    Listed mem' one (os ++ [x]) ∧ Listed mem' two ts ∧ (∀ u ∈ one :: (os ++ [x]), u ∉ two :: ts) ∧
      Same mem mem' fun u => u = x ∨ u ∈ one :: os := by
  have cut := set_next_same mem x 0
  have first' := cut.listed first fun u member same => not_first (same ▸ member)
  have second' := cut.listed second fun u member same => not_second (same ▸ member)
  have moved := append_entry_same first' not_first
  refine ⟨append_entry_listed first' not_first, moved.listed second' fun u member => ?_, fun u member => ?_,
    (cut.trans moved).mono fun u changed => changed.elim Or.inl id⟩
  · rintro (rfl | there)
    · exact not_second member
    · exact split u there member
  · rw [List.mem_cons, List.mem_append, List.mem_singleton, ← or_assoc, ← List.mem_cons] at member
    rcases member with member | rfl
    · exact split u member
    · exact not_second

theorem split_loop_spec (cmp : α → α → Int) (item : Nat → α) (next : Nat → Nat) (middle : Nat) :
    ∀ (rest : List Nat) (a fuel : Nat) (mem : Mem α)
    (lows highs : List Nat), mem.item = item → Circular.Path next a rest list → (∀ u ∈ rest, mem.next u = next u) →
    (list :: rest).Nodup → rest.length ≤ fuel → Listed mem low lows → Listed mem high highs →
    (∀ u ∈ low :: lows, u ∉ high :: highs) → (∀ u ∈ rest, u ∉ low :: lows ∧ u ∉ high :: highs) →
    Listed (split_loop cmp list middle low high fuel (next a) mem) low
        (lows ++ (rest.filter (· ≠ middle)).filter fun u => ¬ cmp (item middle) (item u) < 0) ∧
      Listed (split_loop cmp list middle low high fuel (next a) mem) high
        (highs ++ (rest.filter (· ≠ middle)).filter fun u => cmp (item middle) (item u) < 0) ∧
      Same mem (split_loop cmp list middle low high fuel (next a) mem)
        fun u => u ∈ rest ∨ u ∈ low :: lows ∨ u ∈ high :: highs := by
  intro rest
  induction rest with
  | nil =>
    intro a fuel mem lows highs _ path _ _ _ lower higher _ _
    have done : split_loop cmp list middle low high fuel (next a) mem = mem := by
      rw [show next a = list from path]
      cases fuel with
      | zero => rfl
      | succ fuel => exact if_pos rfl
    rw [done, List.filter_nil, List.filter_nil, List.filter_nil, List.append_nil, List.append_nil]
    exact ⟨lower, higher, rfl, fun _ _ => ⟨rfl, rfl, rfl⟩⟩
  | cons x rest ih =>
    rintro a fuel mem lows highs items ⟨rfl, path⟩ agree nodup enough lower higher split apart
    cases fuel with
    | zero => exact absurd enough (Nat.not_succ_le_zero _)
    | succ fuel =>
      have outer : next a ≠ list := fun same => (List.nodup_cons.mp nodup).1 (same ▸ List.mem_cons_self)
      have inner := (List.nodup_cons.mp nodup).2
      have fresh : ∀ u ∈ rest, u ≠ next a := fun u member same => (List.nodup_cons.mp inner).1 (same ▸ member)
      have nodup' : (list :: rest).Nodup := nodup.sublist (List.Sublist.cons_cons _ (List.sublist_cons_self _ _))
      have enough' : rest.length ≤ fuel := Nat.le_of_succ_le_succ enough
      have still {mem' : Mem α} {S : Nat → Prop} (same : Same mem mem' S) (outside : ∀ u ∈ rest, ¬ S u) :
          ∀ u ∈ rest, mem'.next u = next u := fun u member =>
        (same.fields u (outside u member)).1.trans (agree u (List.mem_cons_of_mem (next a) member))
      have apart' := fun u member => apart u (List.mem_cons_of_mem (next a) member)
      obtain ⟨not_low, not_high⟩ := apart (next a) List.mem_cons_self
      have longer {os : List Nat} {one u : Nat} (member : u ∈ rest) (outside : u ∉ one :: os) :
          u ∉ one :: (os ++ [next a]) := by
        rw [List.mem_cons, List.mem_append, List.mem_singleton, ← or_assoc, ← List.mem_cons]
        exact not_or.mpr ⟨outside, fresh u member⟩
      rw [split_loop, if_neg outer]
      dsimp only
      rw [agree (next a) List.mem_cons_self, show (set_next mem (next a) 0).item = item from items]
      by_cases other : next a ≠ middle
      · rw [if_pos other, List.filter_cons_of_pos (by simpa using other)]
        by_cases less : cmp (item middle) (item (next a)) < 0
        · rw [if_pos less, List.filter_cons_of_neg (by simpa using less), List.filter_cons_of_pos (by simpa using less)]
          obtain ⟨higher', lower', split', moved⟩ := append_entry_cut higher lower not_high not_low
            fun u member there => split u there member
          obtain ⟨lower'', higher'', same⟩ := ih _ fuel _ lows (highs ++ [next a])
            (moved.item.trans items) path
            (still moved fun u member => not_or.mpr ⟨fresh u member, (apart' u member).2⟩)
            nodup' enough' lower' higher' (fun u member there => split' u there member)
            (fun u member => ⟨(apart' u member).1, longer member (apart' u member).2⟩)
          rw [List.append_assoc, List.singleton_append] at higher''
          refine ⟨lower'', higher'', (moved.trans same).mono fun u changed => ?_⟩
          simp only [List.mem_cons, List.mem_append, List.not_mem_nil, or_false] at changed ⊢
          rcases changed with (h | h | h) | h | (h | h) | h | h | h
          all_goals simp only [h, true_or, or_true]
        · rw [if_neg less, List.filter_cons_of_pos (by simpa using less), List.filter_cons_of_neg (by simpa using less)]
          obtain ⟨lower', higher', split', moved⟩ := append_entry_cut lower higher not_low not_high split
          obtain ⟨lower'', higher'', same⟩ := ih _ fuel _ (lows ++ [next a]) highs
            (moved.item.trans items) path
            (still moved fun u member => not_or.mpr ⟨fresh u member, (apart' u member).1⟩)
            nodup' enough' lower' higher' split'
            (fun u member => ⟨longer member (apart' u member).1, (apart' u member).2⟩)
          rw [List.append_assoc, List.singleton_append] at lower''
          refine ⟨lower'', higher'', (moved.trans same).mono fun u changed => ?_⟩
          simp only [List.mem_cons, List.mem_append, List.not_mem_nil, or_false] at changed ⊢
          rcases changed with (h | h | h) | h | (h | h | h) | h | h
          all_goals simp only [h, true_or, or_true]
      · rw [if_neg other, List.filter_cons_of_neg (by simpa using other)]
        have cut := set_next_same mem (next a) 0
        obtain ⟨lower', higher', same⟩ := ih (next a) fuel (set_next mem (next a) 0) lows highs items path
          (still cut fresh) nodup' enough'
          (cut.listed lower fun u member same => not_low (same ▸ member))
          (cut.listed higher fun u member same => not_high (same ▸ member)) split apart'
        refine ⟨lower', higher', (cut.trans same).mono fun u changed => ?_⟩
        simp only [List.mem_cons] at changed ⊢
        rcases changed with h | h | h
        all_goals simp only [h, true_or, or_true]

theorem join_middle_ring (ring : Ring mem.next mem.prev low xs) (new : middle ∉ low :: xs) :
    Ring (join_middle mem middle low).next (join_middle mem middle low).prev low (xs ++ [middle]) ∧
      Same mem (join_middle mem middle low) fun u => u = middle ∨ u ∈ low :: xs := by
  have last : xs.getLastD low ∈ low :: xs := List.getLastD_mem_cons
  have other : xs.getLastD low ≠ middle := fun same => new (same ▸ last)
  have cur : (if mem.prev low = low then low else mem.prev low) = xs.getLastD low := by
    rw [← ring.prev_head]
    split
    next own => exact own.symm
    next => rfl
  refine ⟨?_, rfl, fun u outside => ?_⟩
  · simp only [join_middle, set_next, set_prev, cur]
    rw [Function.update_comm other]
    exact ring.snoc new
  · rw [not_or] at outside
    have unlike : u ≠ xs.getLastD low := fun same => outside.2 (same ▸ last)
    have unlike' : u ≠ low := fun same => outside.2 (same ▸ List.mem_cons_self)
    simp only [join_middle, set_next, set_prev, cur, Function.update_of_ne unlike, Function.update_of_ne unlike',
      Function.update_of_ne outside.1, and_self]

theorem join_high_ring (ring : Ring mem.next mem.prev low (xs ++ [middle])) (higher : Ring mem.next mem.prev high ys)
    (apart : ∀ u ∈ high :: ys, u ∉ low :: (xs ++ [middle])) :
    Ring (join_high mem middle low high).next (join_high mem middle low high).prev low (xs ++ middle :: ys) ∧
      Same mem (join_high mem middle low high) fun u => u ∈ low :: (xs ++ [middle]) ∨ u ∈ high :: ys := by
  unfold join_high
  cases ys with
  | nil =>
    rw [if_neg (not_not_intro (ring_nil.mp higher).1)]
    exact ⟨ring, rfl, fun _ _ => ⟨rfl, rfl, rfl⟩⟩
  | cons y ys =>
    have first : mem.next high = y := higher.next_head
    have last : mem.prev high = ys.getLastD y := by rw [higher.prev_head, List.getLastD_cons]
    have own : high ≠ y := fun same => (List.nodup_cons.mp higher.nodup).1 (same ▸ List.mem_cons_self)
    have off (u : Nat) (member : u ∈ high :: y :: ys) : u ≠ low ∧ u ≠ middle := by
      have outside := apart u member
      refine ⟨fun same => outside (same ▸ List.mem_cons_self), fun same => outside (same ▸ ?_)⟩
      exact List.mem_cons_of_mem _ (List.mem_append_right _ (List.mem_singleton_self _))
    have head_off := off high List.mem_cons_self
    have last_member := List.mem_cons_of_mem high (List.getLastD_mem_cons (l := ys) (a := y))
    have last_off := off _ last_member
    obtain ⟨forward, backward⟩ := higher.inner
    rw [← List.append_nil (xs ++ [middle])] at ring apart
    have inserted := ring.insert (List.nodup_cons.mp higher.nodup).2
      (fun u member => apart u (List.mem_cons_of_mem _ member)) forward backward
    rw [List.append_nil] at inserted apart
    rw [if_pos (by rw [first]; exact own.symm)]
    simp only [set_next, set_prev, first, last, Function.update_of_ne head_off.2,
      Function.update_of_ne own, Function.update_self]
    refine ⟨?_, rfl, fun u outside => ?_⟩
    · rw [Function.update_comm last_off.2.symm]
      simpa using inserted
    · rw [not_or] at outside
      have unlike : u ≠ low := fun same => outside.1 (same ▸ List.mem_cons_self)
      have unlike' : u ≠ middle := fun same => outside.1 (same ▸ List.mem_cons_of_mem _
        (List.mem_append_right _ (List.mem_singleton_self _)))
      have unlike'' : u ≠ ys.getLastD y := fun same => outside.2 (same ▸ last_member)
      have unlike''' : u ≠ y := fun same => outside.2 (same ▸ List.mem_cons_of_mem _ List.mem_cons_self)
      simp only [Function.update_of_ne unlike, Function.update_of_ne unlike', Function.update_of_ne unlike'',
        Function.update_of_ne unlike''', and_self]

theorem take_back_ring {y : Nat} (ring : Ring mem.next mem.prev low (y :: ys)) (new : list ∉ low :: y :: ys) :
    Ring (take_back mem list low).next (take_back mem list low).prev list (y :: ys) ∧
      (take_back mem list low).count = mem.count ∧
      Same mem (take_back mem list low) fun u => u ∈ list :: y :: ys := by
  have first : mem.next low = y := ring.next_head
  have last : mem.prev low = ys.getLastD y := by rw [ring.prev_head, List.getLastD_cons]
  have own : low ≠ y := fun same => (List.nodup_cons.mp ring.nodup).1 (same ▸ List.mem_cons_self)
  have other : list ≠ y := fun same => new (same ▸ List.mem_cons_of_mem _ List.mem_cons_self)
  have inside := fun member => new (List.mem_cons_of_mem low member)
  have members : ys.getLastD y ∈ y :: ys := List.getLastD_mem_cons
  simp only [take_back, set_next, set_prev, first, Function.update_self, Function.update_of_ne own, last]
  refine ⟨?_, trivial, rfl, fun u outside => ?_⟩
  · rw [Function.update_comm other.symm]
    exact ring.rehead inside
  · rw [List.mem_cons, not_or] at outside
    have unlike : u ≠ y := fun same => outside.2 (same ▸ List.mem_cons_self)
    have unlike' : u ≠ ys.getLastD y := fun same => outside.2 (same ▸ members)
    simp only [Function.update_of_ne unlike, Function.update_of_ne unlike', Function.update_of_ne outside.1, and_self]

theorem join_listed (list middle : Nat) (lower : Ring mem.next mem.prev low xs)
    (higher : Ring mem.next mem.prev high ys)
    (split : ∀ u ∈ low :: xs, u ∉ high :: ys) (middle_off : middle ∉ low :: xs ∧ middle ∉ high :: ys)
    (list_off : list ∉ low :: xs ∧ list ∉ high :: ys ∧ list ≠ middle) :
    let mem' := take_back (join_high (join_middle mem middle low) middle low high) list low
    Ring mem'.next mem'.prev list (xs ++ middle :: ys) ∧ mem'.count list = mem.count list ∧
      Same mem mem' fun u => u = list ∨ u = middle ∨ u ∈ low :: xs ∨ u ∈ high :: ys := by
  intro mem'
  obtain ⟨joined, same⟩ := join_middle_ring lower middle_off.1
  have higher' : Ring (join_middle mem middle low).next (join_middle mem middle low).prev high ys := by
    refine higher.congr fun u member => ?_
    obtain ⟨next, prev, _⟩ := same.fields u (not_or.mpr
      ⟨fun equal => middle_off.2 (equal ▸ member), fun there => split u there member⟩)
    exact ⟨next.symm, prev.symm⟩
  obtain ⟨joined', same'⟩ := join_high_ring joined higher' fun u member there => by
    rw [List.mem_cons, List.mem_append, List.mem_singleton, ← or_assoc, ← List.mem_cons] at there
    rcases there with there | rfl
    · exact split u there member
    · exact middle_off.2 member
  have outside : list ∉ low :: (xs ++ middle :: ys) := by
    rw [List.mem_cons, List.mem_append, List.mem_cons, ← or_assoc, ← List.mem_cons]
    rintro (there | there | there)
    · exact list_off.1 there
    · exact list_off.2.2 there
    · exact list_off.2.1 (List.mem_cons_of_mem _ there)
  obtain ⟨y, zs, shape⟩ := List.exists_cons_of_ne_nil (show xs ++ middle :: ys ≠ [] by simp)
  rw [shape] at joined' outside ⊢
  obtain ⟨back, count, same''⟩ := take_back_ring joined' outside
  have untouched : (join_high (join_middle mem middle low) middle low high).count list = mem.count list :=
    ((same.trans same').fields list (by
      rintro ((there | there) | there | there)
      · exact list_off.2.2 there
      · exact list_off.1 there
      · rw [List.mem_cons, List.mem_append, List.mem_singleton, ← or_assoc, ← List.mem_cons] at there
        exact there.elim list_off.1 list_off.2.2
      · exact list_off.2.1 there)).2.2
  refine ⟨back, (congrFun count list).trans untouched, ((same.trans same').trans same'').mono fun u changed => ?_⟩
  rw [← shape] at changed
  simp only [List.mem_cons, List.mem_append, List.not_mem_nil, or_false] at changed ⊢
  rcases changed with ((h | h | h) | (h | h | h) | h | h) | h | h | h | h
  all_goals simp only [h, true_or, or_true]

theorem advance_path {next : Nat → Nat} : ∀ {xs : List Nat} {a b n : Nat}, Circular.Path next a xs b →
    ∀ bound : n < xs.length, advance next n (next a) = xs[n] := by
  intro xs
  induction xs with
  | nil => exact fun _ bound => absurd bound (Nat.not_lt_zero _)
  | cons x xs ih =>
    rintro a b n ⟨rfl, rest⟩ bound
    cases n with
    | zero => rfl
    | succ n => exact ih rest (Nat.lt_of_succ_lt_succ bound)

theorem swap_listed {a b : Nat} (listed : Listed mem list [a, b]) :
    Listed (swap mem list) list [b, a] ∧ Same mem (swap mem list) fun u => u ∈ list :: [a, b] := by
  have first : mem.next list = a := listed.ring.next_head
  have last : mem.prev list = b := listed.ring.prev_head
  have nodup := listed.ring.nodup
  simp only [List.nodup_cons, List.mem_cons, List.not_mem_nil, or_false, not_or, not_false_eq_true, List.nodup_nil,
    and_true] at nodup
  obtain ⟨⟨not_a, not_b⟩, other⟩ := nodup
  have swapped : swap mem list = { mem with
      next := Function.update (Function.update (Function.update mem.next list b) b a) a list
      prev := Function.update (Function.update (Function.update mem.prev list a) b list) a b } := by
    simp only [swap, set_next, set_prev, first, last, Function.update_self, Function.update_of_ne not_b,
      Function.update_of_ne not_a]
  rw [swapped]
  refine ⟨⟨⟨⟨?_, ?_, ?_⟩, ⟨?_, ?_, ?_⟩, ?_⟩, listed.count⟩, rfl, fun u outside => ?_⟩
  · simp only [Function.update_of_ne not_a, Function.update_of_ne not_b, Function.update_self]
  · simp only [Function.update_of_ne (Ne.symm other), Function.update_self]
  · exact Function.update_self ..
  · simp only [Function.update_of_ne not_a, Function.update_of_ne not_b, Function.update_self]
  · exact Function.update_self ..
  · rw [Circular.Path]
    simp only [Function.update_of_ne (Ne.symm other), Function.update_self]
  · simp only [List.nodup_cons, List.mem_cons, List.not_mem_nil, or_false, not_or, not_false_eq_true, List.nodup_nil,
      and_true]
    exact ⟨⟨not_b, not_a⟩, Ne.symm other⟩
  · simp only [List.mem_cons, List.not_mem_nil, or_false, not_or] at outside
    simp only [Function.update_of_ne outside.1, Function.update_of_ne outside.2.1, Function.update_of_ne outside.2.2,
      and_self]

theorem part_cases {sp head : Nat} {part : List Nat} (inside : ∀ u ∈ part, u ∈ xs) (below : ∀ u ∈ xs, u < sp)
    (slot : sp ≤ head ∧ head < sp + 2) : ∀ u ∈ head :: part, u < sp + 2 ∧ (u ∈ xs ∨ sp ≤ u) := by
  intro u member
  rcases List.mem_cons.mp member with rfl | member
  · exact ⟨slot.2, Or.inr slot.1⟩
  · have low := below u (inside u member)
    exact ⟨by omega, Or.inl (inside u member)⟩

theorem not_mem_part {sp head : Nat} {part : List Nat} (low : u < sp) (slot : sp ≤ head) (outside : u ∉ part) :
    u ∉ head :: part := by
  rw [List.mem_cons, not_or]
  exact ⟨by omega, outside⟩

theorem qsort_long (cmp : Nat → Nat → Int) (fuel : Nat) {xs : List Nat} (nodup : xs.Nodup) {n : Nat}
    (half : xs.length / 2 = n) (bound : n < xs.length) (long : 2 < xs.length) :
    list_qsort cmp (fuel + 1) xs =
      list_qsort cmp fuel ((xs.filter (· ≠ xs[n])).filter fun u => ¬ cmp xs[n] u < 0) ++
        xs[n] :: list_qsort cmp fuel ((xs.filter (· ≠ xs[n])).filter fun u => cmp xs[n] u < 0) := by
  have others : xs.filter (· ≠ xs[n]) = xs.eraseIdx n := by
    rw [← nodup.erase_getElem n bound, nodup.erase_eq_filter]
    refine List.filter_congr fun u _ => ?_
    rw [Bool.eq_iff_iff, decide_eq_true_eq, bne_iff_ne]
  rw [others]
  subst half
  cases xs with
  | nil => exact absurd long (by simp)
  | cons a xs =>
    cases xs with
    | nil => exact absurd long (by simp)
    | cons b xs =>
      cases xs with
      | nil => exact absurd long (by simp)
      | cons c xs =>
        rw [list_qsort, List.getD_eq_getElem _ _ bound]

/-- The links of the sorted list, in both directions. Only those of its elements change, and those on the stack. -/
theorem qsort_listed (cmp : α → α → Int) (fuel : Nat) : ∀ (sp list : Nat) (mem : Mem α) (xs : List Nat),
    Listed mem list xs → (∀ u ∈ list :: xs, u < sp) → xs.length ≤ fuel →
    Listed (_list_qsort cmp fuel sp list mem) list
        (list_qsort (fun a b => cmp (mem.item a) (mem.item b)) fuel xs) ∧
      Same mem (_list_qsort cmp fuel sp list mem) fun u => u ∈ list :: xs ∨ sp ≤ u := by
  induction fuel with
  | zero =>
    intro sp list mem xs listed _ _
    exact ⟨listed, rfl, fun _ _ => ⟨rfl, rfl, rfl⟩⟩
  | succ fuel ih =>
    intro sp list mem xs listed below enough
    rw [_list_qsort, listed.count]
    rcases Nat.lt_trichotomy xs.length 2 with short | two | long
    · rw [if_pos short]
      have same : list_qsort (fun a b => cmp (mem.item a) (mem.item b)) (fuel + 1) xs = xs := by
        rcases xs with _ | ⟨a, _ | ⟨b, xs⟩⟩
        · rfl
        · rfl
        · simp only [List.length_cons] at short
          omega
      rw [same]
      exact ⟨listed, rfl, fun _ _ => ⟨rfl, rfl, rfl⟩⟩
    · rw [if_neg (by omega), if_pos two]
      obtain ⟨a, b, rfl⟩ := List.length_eq_two.mp two
      rw [show mem.next list = a from listed.ring.next_head, show mem.prev list = b from listed.ring.prev_head]
      show Listed _ list (if cmp (mem.item b) (mem.item a) < 0 then [b, a] else [a, b]) ∧ _
      split
      next =>
        obtain ⟨swapped, same⟩ := swap_listed listed
        exact ⟨swapped, same.mono fun u member => Or.inl member⟩
      next => exact ⟨listed, rfl, fun _ _ => ⟨rfl, rfl, rfl⟩⟩
    · rw [if_neg (by omega), if_neg (by omega)]
      obtain ⟨apart, nodup⟩ := List.nodup_cons.mp listed.ring.nodup
      have bound : xs.length / 2 < xs.length := by omega
      dsimp only
      rw [advance_path listed.ring.forward bound]
      generalize half : xs.length / 2 = n at bound ⊢
      have some_middle : xs[n] ∈ xs := List.getElem_mem bound
      have total := (qsort_perm (fun a b => cmp (mem.item a) (mem.item b)) (fuel + 1) xs).length_eq
      rw [qsort_long _ fuel nodup half bound long] at total ⊢
      generalize xs[n] = middle at some_middle total ⊢
      generalize low_is : (xs.filter (· ≠ middle)).filter (fun u => ¬ cmp (mem.item middle) (mem.item u) < 0) = lows
        at total ⊢
      generalize high_is : (xs.filter (· ≠ middle)).filter (fun u => cmp (mem.item middle) (mem.item u) < 0) = highs
        at total ⊢
      have in_list := fun u (member : u ∈ xs) => below u (List.mem_cons_of_mem _ member)
      have list_low := below list List.mem_cons_self
      have middle_low := in_list middle some_middle
      have lows_in : ∀ u ∈ lows, u ∈ xs ∧ u ≠ middle ∧ ¬ cmp (mem.item middle) (mem.item u) < 0 := by
        intro u member
        rw [← low_is, List.mem_filter, List.mem_filter, decide_eq_true_eq, decide_eq_true_eq] at member
        exact ⟨member.1.1, member.1.2, member.2⟩
      have highs_in : ∀ u ∈ highs, u ∈ xs ∧ u ≠ middle ∧ ¬ ¬ cmp (mem.item middle) (mem.item u) < 0 := by
        intro u member
        rw [← high_is, List.mem_filter, List.mem_filter, decide_eq_true_eq, decide_eq_true_eq] at member
        exact ⟨member.1.1, member.1.2, not_not_intro member.2⟩
      have fewer : (xs.filter (· ≠ middle)).length ≤ fuel := by
        have less : (xs.filter (· ≠ middle)).length < xs.length :=
          List.length_filter_lt_length_iff_exists.mpr ⟨middle, some_middle, by simp⟩
        omega
      have lows_few : lows.length ≤ fuel := Nat.le_trans (low_is ▸ List.length_filter_le ..) fewer
      have highs_few : highs.length ≤ fuel := Nat.le_trans (high_is ▸ List.length_filter_le ..) fewer
      have lows_part := part_cases (fun u member => (lows_in u member).1) in_list ⟨Nat.le_succ sp, Nat.lt_succ_self _⟩
      have highs_part := part_cases (fun u member => (highs_in u member).1) in_list
        ⟨Nat.le_refl sp, Nat.lt_add_of_pos_right Nat.two_pos⟩
      have sides : ∀ u ∈ (sp + 1) :: lows, u ∉ sp :: highs := by
        intro u left
        rcases List.mem_cons.mp left with rfl | left
        · rw [List.mem_cons, not_or]
          refine ⟨by omega, fun right => ?_⟩
          have := in_list _ (highs_in _ right).1
          omega
        · exact not_mem_part (in_list u (lows_in u left).1) (Nat.le_refl sp) fun right =>
            (highs_in u right).2.2 (lows_in u left).2.2
      -- two empty lists, and the elements moved to them
      have cleared := (clear_same mem sp).trans (clear_same (_mu_list_clear mem sp) (sp + 1))
      have high_empty : Listed (_mu_list_clear (_mu_list_clear mem sp) (sp + 1)) sp [] :=
        (listed_clear mem sp).clear (by simp)
      obtain ⟨lower, higher, same⟩ := split_loop_spec cmp mem.item mem.next middle xs list xs.length
        (_mu_list_clear (_mu_list_clear mem sp) (sp + 1)) [] [] rfl listed.ring.forward
        (fun u member => (cleared.fields u (by have := in_list u member; omega)).1)
        listed.ring.nodup (Nat.le_refl _) (listed_clear (_mu_list_clear mem sp) (sp + 1)) high_empty (by simp)
        (fun u member => by
          have := in_list u member
          simp only [List.mem_singleton]
          omega)
      rw [List.nil_append, low_is] at lower
      rw [List.nil_append, high_is] at higher
      have split := cleared.trans same
      generalize split_loop cmp list middle (sp + 1) sp xs.length (mem.next list)
        (_mu_list_clear (_mu_list_clear mem sp) (sp + 1)) = mem₁ at lower higher split ⊢
      -- the low list is sorted, then the high one
      obtain ⟨lower', same_low⟩ := ih (sp + 2) (sp + 1) mem₁ lows lower (fun u member => (lows_part u member).1)
        lows_few
      generalize _list_qsort cmp fuel (sp + 2) (sp + 1) mem₁ = mem₂ at lower' same_low ⊢
      obtain ⟨higher', same_high⟩ := ih (sp + 2) sp mem₂ highs
        (same_low.listed higher fun u member => not_or.mpr
          ⟨fun there => sides u there member, Nat.not_le.mpr (highs_part u member).1⟩)
        (fun u member => (highs_part u member).1) highs_few
      rw [split.item] at lower'
      rw [same_low.item, split.item] at higher'
      generalize _list_qsort cmp fuel (sp + 2) sp mem₂ = mem₃ at higher' same_high ⊢
      have lows_perm := qsort_perm (fun a b => cmp (mem.item a) (mem.item b)) fuel lows
      have highs_perm := qsort_perm (fun a b => cmp (mem.item a) (mem.item b)) fuel highs
      have low_iff : ∀ u, u ∈ (sp + 1) :: list_qsort (fun a b => cmp (mem.item a) (mem.item b)) fuel lows ↔
          u ∈ (sp + 1) :: lows := fun u => (lows_perm.cons _).mem_iff
      have high_iff : ∀ u, u ∈ sp :: list_qsort (fun a b => cmp (mem.item a) (mem.item b)) fuel highs ↔
          u ∈ sp :: highs := fun u => (highs_perm.cons _).mem_iff
      have lower'' := same_high.listed lower' fun u member => not_or.mpr
        ⟨sides u ((low_iff u).mp member), Nat.not_le.mpr (lows_part u ((low_iff u).mp member)).1⟩
      obtain ⟨joined, count, same_join⟩ := join_listed list middle lower''.ring higher'.ring
        (by simpa only [low_iff, high_iff] using sides)
        (by
          rw [low_iff, high_iff]
          exact ⟨not_mem_part middle_low (Nat.le_succ sp) fun member => (lows_in middle member).2.1 rfl,
            not_mem_part middle_low (Nat.le_refl sp) fun member => (highs_in middle member).2.1 rfl⟩)
        (by
          rw [low_iff, high_iff]
          exact ⟨not_mem_part list_low (Nat.le_succ sp) fun member => apart (lows_in list member).1,
            not_mem_part list_low (Nat.le_refl sp) fun member => apart (highs_in list member).1,
            fun same => apart (same ▸ some_middle)⟩)
      have sorted_same : Same mem mem₃ fun u => u ∈ xs ∨ sp ≤ u := by
        refine ((split.trans same_low).trans same_high).mono fun u changed => ?_
        rcases changed with ((((_ | _) | member | member | member) | member | _) | member | _)
        all_goals first
          | exact Or.inr (by omega)
          | exact Or.inl member
          | exact (lows_part u member).2
          | exact (highs_part u member).2
          | exact Or.inr (by have := List.mem_singleton.mp member; omega)
      refine ⟨⟨joined, ?_⟩, (sorted_same.trans same_join).mono fun u changed => ?_⟩
      · rw [count, (sorted_same.fields list (not_or.mpr ⟨apart, Nat.not_le.mpr list_low⟩)).2.2, listed.count, total]
      · simp only [low_iff, high_iff] at changed
        rw [List.mem_cons, or_assoc]
        rcases changed with changed | same | rfl | member | member
        · exact Or.inr changed
        · exact Or.inl same
        · exact Or.inr (Or.inl some_middle)
        · exact Or.inr (lows_part u member).2
        · exact Or.inr (highs_part u member).2

/-- After the sort the list has the same elements in order, both directions agree, and the number is as before. -/
theorem mu_list_sort_sorts {cmp : α → α → Int} (orders : Orders cmp) {sp : Nat} (listed : Listed mem list xs)
    (below : ∀ u ∈ list :: xs, u < sp) :
    ∃ sorted, Traversed (_list_qsort cmp xs.length sp list mem) list sorted ∧ sorted.Perm xs ∧
      sorted.Pairwise (fun a b => ¬ cmp (mem.item b) (mem.item a) < 0) ∧
      (_list_qsort cmp xs.length sp list mem).item = mem.item ∧
      (_list_qsort cmp xs.length sp list mem).count list = mem.count list := by
  obtain ⟨listed', same⟩ := qsort_listed cmp xs.length sp list mem xs listed below (Nat.le_refl _)
  have perm := qsort_perm (fun a b => cmp (mem.item a) (mem.item b)) xs.length xs
  have orders' : Orders fun a b => cmp (mem.item a) (mem.item b) :=
    ⟨fun a b => orders.asymm _ _, fun a b c => orders.trans _ _ _⟩
  refine ⟨_, listed'.traversed, perm, qsort_sorted orders' xs.length xs (Nat.le_refl _), same.item, ?_⟩
  rw [listed'.count, perm.length_eq, listed.count]

/-- Three elements that are the wrong way round. -/
def descending : Mem Int where
  item u := 5 - u
  next u := [1, 2, 3, 0].getD u 0
  prev u := [3, 0, 1, 2].getD u 0
  count _ := 3

theorem mu_list_sort_sorts_three :
    ∃ sorted, Traversed (_list_qsort (fun a b => a - b) 3 4 0 descending) 0 sorted ∧ sorted.Perm [1, 2, 3] := by
  have listed : Listed descending 0 [1, 2, 3] := ⟨⟨⟨rfl, rfl, rfl, rfl⟩, ⟨rfl, rfl, rfl, rfl⟩, by decide⟩, rfl⟩
  have orders : Orders fun a b : Int => a - b := ⟨fun a b => by omega, fun a b c => by omega⟩
  obtain ⟨sorted, traversed, perm, _⟩ := mu_list_sort_sorts orders listed (show ∀ u ∈ 0 :: [1, 2, 3], u < 4 by decide)
  exact ⟨sorted, traversed, perm⟩
end
end Mailutils.ListQsort

import Mailutils.Characters
import Mailutils.Linked
import Mailutils.OpenAddressing
import Mathlib.Data.List.Nodup
import Mathlib.Data.List.Perm.Subperm

/-!
Associative arrays (`libmailutils/base/assoc.c`). The elements are in a hash table
with linear probing, which grows when it is full, and in a doubly linked list in the
order in which they came. The memory holds for each address the fields of the element
there; an element that is freed is not looked at again.
-/
namespace Mailutils.AssocArray
open Mailutils.OpenAddressing Mailutils.Linked

/-- A string without its terminating null. -/
def Name := { s : List UInt8 // 0 ∉ s }
  deriving DecidableEq

def name_cmp (icase : Bool) (a b : Name) : Int := if icase then mu_c_strcasecmp a.1 b.1 else strcmp a.1 b.1

def hash_size : List Nat := [37, 101, 229, 487, 1009, 2039, 4091, 8191, 16411]

def max_rehash : Nat := hash_size.length

def table_size (hash_num : Nat) : Nat := hash_size.getD hash_num 0

def hash_dfl (name : Name) (hash_num : Nat) : Nat :=
  (name.1.foldl (fun (i : UInt32) c => i <<< 1 ^^^ c.toUInt32) 0).toNat % table_size hash_num

def hash_ci (name : Name) (hash_num : Nat) : Nat :=
  (name.1.foldl (fun (i : UInt32) c => i <<< 1 ^^^ (mu_tolower c).toUInt32) 0).toNat % table_size hash_num

def hash (icase : Bool) : Name → Nat → Nat := if icase then hash_ci else hash_dfl

inductive Rc
  | ok | einval | noent | exist | bufspace
  /-- A loop that did not end. -/
  | failure
  deriving DecidableEq, Repr

/-- `struct _mu_assoc`, with the fields `name`, `data`, `next` and `prev` of the elements.
    A table of null pointers is read as one without elements. -/
structure Assoc (V : Type*) where
  icase : Bool
  hash_num : Nat := 0
  tab : Option (Nat → Option Nat) := none
  head : Option Nat := none
  tail : Option Nat := none
  /-- The address of the next element that is allocated. -/
  brk : Nat := 0
  name : Nat → Name := fun _ => ⟨[], by decide⟩
  data : Nat → Option V := fun _ => none
  next : Nat → Option Nat := fun _ => none
  prev : Nat → Option Nat := fun _ => none

section
variable {V : Type*}

def Assoc.slots (assoc : Assoc V) : Nat → Option Nat := assoc.tab.getD fun _ => none

def Assoc.set (assoc : Assoc V) (slot : Nat) (elem : Option Nat) : Assoc V :=
  { assoc with tab := some (Function.update assoc.slots slot elem) }

/-- The size of the table. -/
def Assoc.size (assoc : Assoc V) : Nat := table_size assoc.hash_num

/-- The first slot for an element. -/
def Assoc.home (assoc : Assoc V) (elem : Nat) : Nat := hash assoc.icase (assoc.name elem) assoc.hash_num

def assoc_elem_unlink (assoc : Assoc V) (elem : Nat) : Assoc V :=
  let (next, head) := put (assoc.prev elem) (assoc.next elem) assoc.next assoc.head
  let (prev, tail) := put (next elem) (assoc.prev elem) assoc.prev assoc.tail
  { assoc with
    head := head
    tail := tail
    next := Function.update next elem none
    prev := Function.update prev elem none }

def assoc_elem_link (assoc : Assoc V) (elem : Nat) : Assoc V :=
  let next := Function.update assoc.next elem none
  let prev := Function.update assoc.prev elem assoc.tail
  let (next, head) := put assoc.tail (some elem) next assoc.head
  { assoc with
    head := head
    tail := some elem
    next := next
    prev := prev }

/-- What `assoc_find_slot` returns: a slot, and whether it is empty and the name is to be
    installed there. -/
structure Slot (V : Type*) where
  rc : Rc
  assoc : Assoc V
  slot : Nat := 0
  inst : Bool := false

/-- The loop of `assoc_rehash` over the slots of the old table. -/
def rehash_loop (find_slot : Assoc V → Name → Slot V) (old_tab : Nat → Option Nat) :
    List Nat → Assoc V → Rc × Assoc V
  | [], assoc => (.ok, assoc)
  | i :: is, assoc =>
    match old_tab i with
    | none => rehash_loop find_slot old_tab is assoc
    | some elem =>
      let found := find_slot assoc (assoc.name elem)
      if found.rc ≠ .ok then (found.rc, found.assoc)
      else rehash_loop find_slot old_tab is (found.assoc.set found.slot (some elem))

/-- A table that is made for the first time has the second size, but `hash_num` stays. -/
def assoc_rehash (find_slot : Assoc V → Name → Slot V) (assoc : Assoc V) : Rc × Assoc V :=
  let hash_num := assoc.hash_num + 1
  if hash_num ≥ max_rehash then (.bufspace, assoc)
  else
    match assoc.tab with
    | none => (.ok, { assoc with tab := some fun _ => none })
    | some old_tab =>
      rehash_loop find_slot old_tab (List.range (table_size (hash_num - 1)))
        { assoc with tab := some (fun _ => none), hash_num := hash_num }

/-- The loop of `assoc_find_slot` over the slots from the first one for the name. -/
def Assoc.search (assoc : Assoc V) (name : Name) : Probe :=
  let pos := hash assoc.icase name assoc.hash_num
  probe assoc.size assoc.slots (fun elem => name_cmp assoc.icase (assoc.name elem) name == 0) pos assoc.size pos

/-- With `install` the name gets a slot if it has none. Each call of itself, also from
    `assoc_rehash`, comes after the table has grown. -/
def assoc_find_slot (install : Bool) : Nat → Assoc V → Name → Slot V
  | 0, assoc, _ => { rc := .failure, assoc := assoc }
  | fuel + 1, assoc, name =>
    let rehash := fun assoc => assoc_rehash (assoc_find_slot true fuel) assoc
    let (rc, assoc) :=
      if assoc.tab.isSome then (.ok, assoc)
      else if install then rehash assoc
      else (.noent, assoc)
    if rc ≠ .ok then { rc := rc, assoc := assoc }
    else
      match assoc.search name with
      | .found i => { rc := .ok, assoc := assoc, slot := i }
      | .empty i => if install then { rc := .ok, assoc := assoc, slot := i, inst := true }
        else { rc := .noent, assoc := assoc }
      | .full =>
        if install then
          let (rc, assoc) := rehash assoc
          if rc ≠ .ok then { rc := rc, assoc := assoc } else assoc_find_slot install fuel assoc name
        else { rc := .noent, assoc := assoc }

/-- The search for a slot with a call of itself for every size. -/
def find_slot (install : Bool) (assoc : Assoc V) (name : Name) : Slot V :=
  assoc_find_slot install (max_rehash + 1) assoc name

def mu_assoc_create (icase : Bool) : Assoc V := { icase := icase }

def mu_assoc_lookup (assoc : Assoc V) (name : Option Name) : Rc × Option V :=
  match name with
  | none => (.einval, none)
  | some name =>
    let found := find_slot false assoc name
    if found.rc ≠ .ok then (found.rc, none) else (.ok, (found.assoc.slots found.slot).bind found.assoc.data)

/-- A new element for a name, put into a slot and linked. -/
def new_elem (assoc : Assoc V) (slot : Nat) (name : Name) (data : Option V) : Assoc V :=
  let elem := assoc.brk
  let assoc :=
    { assoc with
      brk := elem + 1
      name := Function.update assoc.name elem name
      data := Function.update assoc.data elem data }
  assoc_elem_link (assoc.set slot (some elem)) elem

def mu_assoc_install (assoc : Assoc V) (name : Option Name) (value : Option V) : Rc × Assoc V :=
  match name with
  | none => (.einval, assoc)
  | some name =>
    let found := find_slot true assoc name
    if found.rc ≠ .ok then (found.rc, found.assoc)
    else if !found.inst then (.exist, found.assoc)
    else (.ok, new_elem found.assoc found.slot name value)

/-- The element whose data the caller gets a reference to is returned with the rest. -/
def mu_assoc_install_ref (assoc : Assoc V) (name : Option Name) : Rc × Assoc V × Option Nat :=
  match name with
  | none => (.einval, assoc, none)
  | some name =>
    let found := find_slot true assoc name
    if found.rc ≠ .ok then (found.rc, found.assoc, none)
    else
      let assoc := if found.inst then new_elem found.assoc found.slot name none else found.assoc
      (if found.inst then .ok else .exist, assoc, assoc.slots found.slot)

/-- What a caller stores through the reference, which can depend on what was there. -/
def Assoc.store (assoc : Assoc V) (ref : Option Nat) (value : Option V → Option V) : Assoc V :=
  match ref with
  | none => assoc
  | some elem => { assoc with data := Function.update assoc.data elem (value (assoc.data elem)) }

def assoc_free_elem (assoc : Assoc V) (idx : Nat) : Assoc V :=
  match assoc.slots idx with
  | none => assoc
  | some elem => (assoc_elem_unlink assoc elem).set idx none

def assoc_remove (assoc : Assoc V) (idx : Nat) : Rc × Assoc V :=
  if ¬ idx < assoc.size then (.einval, assoc)
  else
    let assoc := assoc_free_elem assoc idx
    let tab := backshift assoc.size assoc.home (fuel assoc.size) (Function.update assoc.slots idx none) idx idx
    (.ok, { assoc with tab := some tab })

def mu_assoc_remove (assoc : Assoc V) (name : Option Name) : Rc × Assoc V :=
  match name with
  | none => (.einval, assoc)
  | some name =>
    let found := find_slot false assoc name
    if found.rc ≠ .ok then (found.rc, found.assoc) else assoc_remove found.assoc found.slot

/-- With `nd` the data is not freed with the element. -/
def assoc_remove_elem (assoc : Assoc V) (elem : Option Nat) (nd : Bool) : Rc × Assoc V :=
  match elem with
  | none => (.noent, assoc)
  | some elem =>
    match (List.range assoc.size).find? fun i => assoc.slots i == some elem with
    | none => (.noent, assoc)
    | some i =>
      let assoc := if nd then { assoc with data := Function.update assoc.data elem none } else assoc
      (.ok, (assoc_remove assoc i).2)

/-- What `mu_assoc_pop` and `mu_assoc_shift` do with the last and the first element. -/
def remove_end (assoc : Assoc V) (name : Option Name) (elem : Option Nat) (ret_val : Bool) :
    Rc × Option V × Assoc V :=
  match name with
  | none => (.einval, none, assoc)
  | some _ =>
    let (rc, left) := assoc_remove_elem assoc elem ret_val
    (rc, if ret_val then elem.bind assoc.data else none, left)

def mu_assoc_pop (assoc : Assoc V) (name : Option Name) (ret_val : Bool) : Rc × Option V × Assoc V :=
  remove_end assoc name assoc.tail ret_val

def mu_assoc_shift (assoc : Assoc V) (name : Option Name) (ret_val : Bool) : Rc × Option V × Assoc V :=
  remove_end assoc name assoc.head ret_val

/-- `mu_assoc_count` -/
def count (next : Nat → Option Nat) : Nat → Option Nat → Nat
  | 0, _ => 0
  | _ + 1, none => 0
  | fuel + 1, some elt => count next fuel (next elt) + 1

/-- The loop of `merge`. The place of `tailptr` is in the element that was linked last, or
    at the head. -/
def merge (le : Nat → Nat → Bool) : Nat → (Nat → Option Nat) → Option Nat → Option Nat → Option Nat → Option Nat →
    (Nat → Option Nat) × Option Nat
  | fuel + 1, next, some left, some right, tailptr, head =>
    if le left right then
      let tmp := next left
      let (next, head) := put tailptr (some left) next head
      merge le fuel next tmp (some right) (some left) head
    else
      let tmp := next right
      let (next, head) := put tailptr (some right) next head
      merge le fuel next (some left) tmp (some right) head
  | _, next, left, right, tailptr, head => put tailptr (left.or right) next head

/-- The element `i` links further. -/
def advance (next : Nat → Option Nat) : Nat → Option Nat → Option Nat
  | 0, elt => elt
  | i + 1, elt => advance next i (elt.bind next)

def merge_sort (le : Nat → Nat → Bool) : Nat → (Nat → Option Nat) → Option Nat → Nat →
    (Nat → Option Nat) × Option Nat
  | 0, next, list, _ => (next, list)
  | fuel + 1, next, list, length =>
    if length ≤ 1 then (next, list)
    else if length = 2 then
      match list, list.bind next with
      | some first, some elt =>
        if le first elt then (next, list)
        else (Function.update (Function.update next elt list) first none, some elt)
      | _, _ => (next, list)
    else
      let left_len := (length + 1) / 2
      let right_len := length / 2
      match advance next (left_len - 1) list with
      | none => (next, list)
      | some elt =>
        let right := next elt
        let next := Function.update next elt none
        let (next, left) := merge_sort le fuel next list left_len
        let (next, right) := merge_sort le fuel next right right_len
        merge le length next left right none none

/-- The loop that sets the links back. It returns them and the last element. -/
def relink (next : Nat → Option Nat) : Nat → (Nat → Option Nat) → Option Nat → Option Nat →
    (Nat → Option Nat) × Option Nat
  | fuel + 1, prev, last, some p => relink next fuel (Function.update prev p last) (some p) (next p)
  | _, prev, last, _ => (prev, last)

/-- Elements are compared by name and data; the comparison may be missing. -/
def mu_assoc_sort_r (assoc : Assoc V) (cmp : Option (Name → Option V → Name → Option V → Int)) : Rc × Assoc V :=
  match cmp with
  | none => (.ok, assoc)
  | some cmp =>
    let le := fun a b => decide (cmp (assoc.name a) (assoc.data a) (assoc.name b) (assoc.data b) ≤ 0)
    let length := count assoc.next assoc.brk assoc.head
    let (next, head) := merge_sort le length assoc.next assoc.head length
    let (prev, last) := relink next length assoc.prev none head
    (.ok, { assoc with next := next, prev := prev, head := head, tail := last })

/-- A name as it is compared. -/
def fold (icase : Bool) (name : Name) : List UInt8 := if icase then name.1.map mu_tolower else name.1

theorem name_cmp_eq_zero (icase : Bool) (a b : Name) : name_cmp icase a b = 0 ↔ fold icase a = fold icase b := by
  cases icase with
  | false => exact strcmp_eq_zero a.2 b.2
  | true => exact mu_c_strcasecmp_eq_zero a.2 b.2

theorem hash_congr {icase : Bool} {a b : Name} (same : fold icase a = fold icase b) (hash_num : Nat) :
    hash icase a hash_num = hash icase b hash_num := by
  cases icase with
  | false =>
    have names : a.1 = b.1 := same
    show hash_dfl a hash_num = hash_dfl b hash_num
    rw [hash_dfl, hash_dfl, names]
  | true =>
    have lower (name : Name) : hash_ci name hash_num =
        ((fold true name).foldl (fun (i : UInt32) c => i <<< 1 ^^^ c.toUInt32) 0).toNat % table_size hash_num := by
      rw [fold, if_pos rfl, List.foldl_map]
      rfl
    show hash_ci a hash_num = hash_ci b hash_num
    rw [lower, lower, same]

theorem size_pos {n : Nat} (small : n < max_rehash) : 0 < table_size n := by
  have cases : ∀ n < max_rehash, 0 < table_size n := by decide
  exact cases n small

theorem size_grows {n : Nat} (small : n + 1 < max_rehash) : table_size n < table_size (n + 1) := by
  have cases : ∀ n < 8, table_size n < table_size (n + 1) := by decide
  exact cases n (Nat.lt_of_succ_lt_succ small)

theorem hash_lt {hash_num : Nat} (small : hash_num < max_rehash) (icase : Bool) (name : Name) :
    hash icase name hash_num < table_size hash_num := by
  cases icase with
  | false => exact Nat.mod_lt _ (size_pos small)
  | true => exact Nat.mod_lt _ (size_pos small)
end
end Mailutils.AssocArray

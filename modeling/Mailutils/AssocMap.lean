import Mailutils.AssocList
import Mailutils.AssocTable

/-!
Associative arrays as maps with an order. The specification is a list of names with
their values (`Entries`), on which each operation has its plain meaning (`specify`).
An array keeps its table and its list in step (`Inv`), in every run (`run_inv`), and a run
gives the results of the specification as long as there are fewer names than slots in the
largest table (`assoc_is_ordered_map`). Sorting the array leaves its table alone: it is a
stable sort of the chain (`mu_assoc_sort_r_stable`).
-/
namespace Mailutils.AssocArray
open Mailutils.OpenAddressing Mailutils.Linked

/-- A call, with the arguments the caller gives. What is stored through the reference of
    `install_ref` is a function of what was there. -/
inductive Op (V : Type*)
  | install (name : Option Name) (value : Option V)
  | install_ref (name : Option Name) (value : Option V → Option V)
  | lookup (name : Option Name)
  | remove (name : Option Name)
  | pop (name : Option Name) (ret_val : Bool)
  | shift (name : Option Name) (ret_val : Bool)
  | sort_r (cmp : Option (Name → Option V → Name → Option V → Int))

/-- A return code, and the value for the operations that return one. -/
abbrev Result (V : Type*) := Rc × Option V

section
variable {V : Type*}

def step (assoc : Assoc V) : Op V → Result V × Assoc V
  | .install name value =>
    let (rc, assoc) := mu_assoc_install assoc name value
    ((rc, none), assoc)
  | .install_ref name value =>
    let (rc, assoc, ref) := mu_assoc_install_ref assoc name
    ((rc, none), assoc.store ref value)
  | .lookup name => (mu_assoc_lookup assoc name, assoc)
  | .remove name =>
    let (rc, assoc) := mu_assoc_remove assoc name
    ((rc, none), assoc)
  | .pop name ret_val =>
    let (rc, value, assoc) := mu_assoc_pop assoc name ret_val
    ((rc, value), assoc)
  | .shift name ret_val =>
    let (rc, value, assoc) := mu_assoc_shift assoc name ret_val
    ((rc, value), assoc)
  | .sort_r cmp =>
    let (rc, assoc) := mu_assoc_sort_r assoc cmp
    ((rc, none), assoc)

def run : List (Op V) → Assoc V → List (Result V) × Assoc V
  | [], assoc => ([], assoc)
  | op :: ops, assoc =>
    let (result, assoc) := step assoc op
    let (results, assoc) := run ops assoc
    (result :: results, assoc)

/-- Names with their values, in order. -/
abbrev Entries (V : Type*) := List (Name × Option V)

/-- The entry is the one for the name. -/
def isFor (icase : Bool) (name : Name) (entry : Name × Option V) : Bool := fold icase entry.1 == fold icase name

/-- What an operation means for the entries. -/
def specify (icase : Bool) (entries : Entries V) : Op V → Result V × Entries V
  | .install none _ => ((.einval, none), entries)
  | .install (some name) value =>
    if entries.any (isFor icase name) then ((.exist, none), entries) else ((.ok, none), entries ++ [(name, value)])
  | .install_ref none _ => ((.einval, none), entries)
  | .install_ref (some name) value =>
    if entries.any (isFor icase name) then
      ((.exist, none), entries.map fun entry => if isFor icase name entry then (entry.1, value entry.2) else entry)
    else ((.ok, none), entries ++ [(name, value none)])
  | .lookup none => ((.einval, none), entries)
  | .lookup (some name) =>
    match entries.find? (isFor icase name) with
    | none => ((.noent, none), entries)
    | some entry => ((.ok, entry.2), entries)
  | .remove none => ((.einval, none), entries)
  | .remove (some name) =>
    if entries.any (isFor icase name) then ((.ok, none), entries.filter fun entry => !isFor icase name entry)
    else ((.noent, none), entries)
  | .pop none _ => ((.einval, none), entries)
  | .pop (some _) ret_val =>
    match entries.getLast? with
    | none => ((.noent, none), entries)
    | some entry => ((.ok, if ret_val then entry.2 else none), entries.dropLast)
  | .shift none _ => ((.einval, none), entries)
  | .shift (some _) ret_val =>
    match entries.head? with
    | none => ((.noent, none), entries)
    | some entry => ((.ok, if ret_val then entry.2 else none), entries.tail)
  | .sort_r none => ((.ok, none), entries)
  | .sort_r (some cmp) =>
    ((.ok, none), entries.mergeSort fun a b => decide (cmp a.1 a.2 b.1 b.2 ≤ 0))

def specification (icase : Bool) : List (Op V) → Entries V → List (Result V) × Entries V
  | [], entries => ([], entries)
  | op :: ops, entries =>
    let (result, entries) := specify icase entries op
    let (results, entries) := specification icase ops entries
    (result :: results, entries)

variable {assoc assoc' : Assoc V} {order : List Nat} {elem : Nat} {name : Name}

/-- The entry of an element. -/
def Assoc.entry (assoc : Assoc V) (elem : Nat) : Name × Option V := (assoc.name elem, assoc.data elem)

/-- The table and the list hold the same elements. -/
structure Inv (assoc : Assoc V) (order : List Nat) : Prop where
  indexed : Indexed assoc order
  listed : Listed assoc order
  allocated : ∀ elem ∈ order, elem < assoc.brk
  first : assoc.tab = none → assoc.hash_num = 0

theorem inv_create (icase : Bool) : Inv (mu_assoc_create icase : Assoc V) [] := by
  refine ⟨indexed_nil (show 0 < max_rehash by decide) rfl, ⟨rfl, rfl, List.nodup_nil⟩, ?_, fun _ => rfl⟩
  intro elem member
  cases member

theorem Inv.length_le (inv : Inv assoc order) : order.length ≤ assoc.brk := by
  have subset : order ⊆ List.range assoc.brk := fun elem member => List.mem_range.mpr (inv.allocated elem member)
  have := (List.subperm_of_subset inv.listed.nodup subset).length_le
  rwa [List.length_range] at this

theorem isFor_entry : isFor assoc.icase name (assoc.entry elem) = true ↔ Named assoc elem name := by
  rw [isFor, beq_iff_eq]
  rfl

theorem any_entries : (order.map assoc.entry).any (isFor assoc.icase name) = true ↔ ∃ elem ∈ order, Named assoc elem name := by
  simp only [List.any_map, List.any_eq_true, Function.comp, isFor_entry]

theorem any_absent (miss : Absent assoc order name) :
    (order.map assoc.entry).any (isFor assoc.icase name) = false := by
  rw [Bool.eq_false_iff, ne_eq, any_entries]
  rintro ⟨elem, member, named⟩
  exact miss elem member named

theorem named_iff (inv : Inv assoc order) (member : elem ∈ order) (named : Named assoc elem name) {other : Nat}
    (member' : other ∈ order) : Named assoc other name ↔ other = elem := by
  constructor
  · intro named'
    exact inv.indexed.distinct other member' elem member (named'.trans named.symm)
  · rintro rfl
    exact named

/-- What an operation has done: its result and the entries are those of the
    specification, and the invariant holds in another order. -/
def Refines (icase : Bool) (entries : Entries V) (op : Op V) (outcome : Result V × Assoc V) : Prop :=
  outcome.1 = (specify icase entries op).1 ∧ outcome.2.icase = icase ∧
    ∃ order, Inv outcome.2 order ∧ order.map outcome.2.entry = (specify icase entries op).2

theorem refines_same (inv : Inv assoc order) {op : Op V} {result : Result V}
    (same : specify assoc.icase (order.map assoc.entry) op = (result, order.map assoc.entry)) :
    Refines assoc.icase (order.map assoc.entry) op (result, assoc) := by
  unfold Refines
  rw [same]
  exact ⟨rfl, rfl, order, inv, rfl⟩

theorem lookup_refines (inv : Inv assoc order) (name : Option Name) :
    Refines assoc.icase (order.map assoc.entry) (.lookup name) (step assoc (.lookup name)) := by
  cases name with
  | none => exact refines_same inv rfl
  | some name =>
    refine refines_same inv ?_
    simp only [mu_assoc_lookup, specify]
    obtain ⟨same, ⟨rc, elem, found⟩ | ⟨rc, miss⟩⟩ := find_slot_cases inv.indexed name
    · have entry : (order.map assoc.entry).find? (isFor assoc.icase name) = some (assoc.entry elem) := by
        rw [List.find?_map]
        have only : order.find? (isFor assoc.icase name ∘ assoc.entry) = some elem := by
          cases result : order.find? (isFor assoc.icase name ∘ assoc.entry) with
          | none =>
            rw [List.find?_eq_none] at result
            exact absurd (isFor_entry.mpr found.named) (result elem found.member)
          | some other =>
            have member := List.mem_of_find?_eq_some result
            have hit : (isFor assoc.icase name ∘ assoc.entry) other = true := List.find?_some result
            have named := isFor_entry.mp hit
            rw [(named_iff inv found.member found.named member).mp named]
        rw [only]
        rfl
      simp only [entry, rc, same, ne_eq, not_true_eq_false, if_false, found.here, Option.bind_some]
      rfl
    · have none_found : (order.map assoc.entry).find? (isFor assoc.icase name) = none := by
        rw [List.find?_eq_none]
        intro entry member hit
        obtain ⟨elem, there, rfl⟩ := List.mem_map.mp member
        exact miss elem there (isFor_entry.mp hit)
      simp only [none_found, rc, ne_eq, reduceCtorEq, not_false_eq_true, if_true]

theorem inv_located (inv : Inv assoc order) {found : Slot V} (located : Located assoc order name found) :
    Inv found.assoc order ∧ found.assoc.icase = assoc.icase ∧ found.assoc.entry = assoc.entry := by
  have same := located.same
  refine ⟨⟨located.indexed, ?_, ?_, ?_⟩, located.same.icase, ?_⟩
  · obtain ⟨forward, backward, nodup⟩ := inv.listed
    refine ⟨?_, ?_, nodup⟩
    · rw [same]
      exact forward
    · rw [same]
      exact backward
  · rw [same]
    exact inv.allocated
  · intro none_there
    have there := located.there
    rw [none_there] at there
    cases there
  · rw [same]
    rfl

theorem inv_new_elem (inv : Inv assoc order) {slot : Nat} (vacant : Vacant assoc name slot)
    (miss : Absent assoc order name) (data : Option V) :
    let assoc' := new_elem assoc slot name data
    Inv assoc' (order ++ [assoc.brk]) ∧ assoc'.icase = assoc.icase ∧ assoc'.slots slot = some assoc.brk ∧
      (order ++ [assoc.brk]).map assoc'.entry = order.map assoc.entry ++ [(name, data)] := by
  intro assoc'
  have new : assoc.brk ∉ order := fun member => Nat.lt_irrefl _ (inv.allocated _ member)
  have other : ∀ elem ∈ order, elem ≠ assoc.brk := fun elem member same => new (same ▸ member)
  let made : Assoc V :=
    { assoc with
      brk := assoc.brk + 1
      name := Function.update assoc.name assoc.brk name
      data := Function.update assoc.data assoc.brk data }
  have names : ∀ elem ∈ order, made.name elem = assoc.name elem := fun elem member =>
    Function.update_of_ne (other elem member) ..
  have own : made.name assoc.brk = name := Function.update_self ..
  have indexed : Indexed made order := inv.indexed.congr rfl rfl rfl names
  have vacant' : Vacant made (made.name assoc.brk) slot := by
    rw [own]
    refine ⟨vacant.inside, vacant.empty, fun s bound before => ?_⟩
    obtain ⟨elem, here, hit⟩ := vacant.passed s bound before
    refine ⟨elem, here, ?_⟩
    dsimp only at hit ⊢
    rw [names elem ((inv.indexed.stored elem).mp ⟨s, bound, here⟩)]
    exact hit
  have miss' : Absent made order (made.name assoc.brk) := by
    intro elem member
    rw [own, Named, names elem member]
    exact miss elem member
  have inserted := indexed_insert indexed vacant' new miss'
  have listed : Listed (made.set slot (some assoc.brk)) order :=
    ⟨inv.listed.forward, inv.listed.backward, inv.listed.nodup⟩
  refine ⟨⟨?_, listed_link listed new, ?_, ?_⟩, rfl, ?_, ?_⟩
  · exact inserted.congr rfl rfl rfl fun _ _ => rfl
  · intro elem member
    rw [List.mem_append, List.mem_singleton] at member
    show elem < assoc.brk + 1
    rcases member with member | rfl
    · exact Nat.lt_succ_of_lt (inv.allocated elem member)
    · exact Nat.lt_succ_self _
  · intro none_there
    cases none_there
  · exact Function.update_self ..
  · rw [List.map_append, List.map_singleton]
    congr 1
    · refine List.map_congr_left fun elem member => ?_
      show (made.name elem, made.data elem) = _
      rw [names elem member]
      exact congrArg _ (Function.update_of_ne (other elem member) ..)
    · show [(made.name assoc.brk, made.data assoc.brk)] = _
      rw [own]
      exact congrArg (fun d => [(name, d)]) (Function.update_self ..)

private theorem install_refines (inv : Inv assoc order) (few : order.length < 16411) (name : Option Name)
    (value : Option V) :
    Refines assoc.icase (order.map assoc.entry) (.install name value) (step assoc (.install name value)) := by
  cases name with
  | none => exact refines_same inv rfl
  | some name =>
    have located := find_slot_install inv.indexed inv.first few name
    obtain ⟨inv', icase, entry⟩ := inv_located inv located
    simp only [Refines, step, mu_assoc_install, specify, located.rc, ne_eq, not_true_eq_false, if_false]
    rcases located.found with ⟨inst, elem, found⟩ | ⟨inst, vacant, miss⟩
    · have there : (order.map assoc.entry).any (isFor assoc.icase name) = true :=
        any_entries.mpr ⟨elem, found.member, (located.same.named elem name).mp found.named⟩
      simp only [inst, there, Bool.not_false, if_true]
      exact ⟨trivial, icase, order, inv', by rw [entry]⟩
    · obtain ⟨inv'', icase', _, entries⟩ := inv_new_elem inv' vacant (located.same.absent miss) value
      simp only [inst, any_absent miss, Bool.not_true, Bool.false_eq_true, if_false]
      exact ⟨trivial, icase'.trans icase, _, inv'', by rw [entries, entry]⟩

theorem inv_data (inv : Inv assoc order) (data : Nat → Option V) : Inv { assoc with data := data } order :=
  ⟨inv.indexed.congr rfl rfl rfl fun _ _ => rfl, ⟨inv.listed.forward, inv.listed.backward, inv.listed.nodup⟩,
    inv.allocated, inv.first⟩

theorem install_ref_refines (inv : Inv assoc order) (few : order.length < 16411) (name : Option Name)
    (value : Option V → Option V) :
    Refines assoc.icase (order.map assoc.entry) (.install_ref name value) (step assoc (.install_ref name value)) := by
  cases name with
  | none => exact refines_same inv rfl
  | some name =>
    have located := find_slot_install inv.indexed inv.first few name
    obtain ⟨inv', icase, entry⟩ := inv_located inv located
    simp only [Refines, step, mu_assoc_install_ref, specify, located.rc, ne_eq, not_true_eq_false, if_false]
    rcases located.found with ⟨inst, elem, found⟩ | ⟨inst, vacant, miss⟩
    · have named := (located.same.named elem name).mp found.named
      have there : (order.map assoc.entry).any (isFor assoc.icase name) = true :=
        any_entries.mpr ⟨elem, found.member, named⟩
      simp only [inst, there, Bool.false_eq_true, if_false, if_true, found.here, Assoc.store]
      refine ⟨trivial, icase, order, inv_data inv' _, ?_⟩
      rw [List.map_map]
      refine List.map_congr_left fun other member => ?_
      dsimp only [Assoc.entry]
      have names : (find_slot true assoc name).assoc.name = assoc.name := located.same.names
      have data : (find_slot true assoc name).assoc.data = assoc.data := by rw [located.same]
      rw [names, data]
      by_cases same : other = elem
      · subst same
        rw [Function.update_self, Function.comp, if_pos (isFor_entry.mpr named)]
        rfl
      · rw [Function.update_of_ne same, Function.comp, if_neg]
        · rfl
        · rw [isFor_entry, named_iff inv found.member named member]
          exact same
    · obtain ⟨inv'', icase', here, entries⟩ :=
        inv_new_elem inv' vacant (located.same.absent miss) (none : Option V)
      simp only [inst, any_absent miss, Bool.false_eq_true, if_false, if_true, here, Assoc.store]
      refine ⟨trivial, icase'.trans icase, _, inv_data inv'' _, ?_⟩
      -- only the last entry is stored to
      have new : (find_slot true assoc name).assoc.brk ∉ order := fun member =>
        Nat.lt_irrefl _ (inv'.allocated _ member)
      rw [List.map_append, List.map_singleton] at entries ⊢
      rw [entry] at entries
      obtain ⟨olds, last⟩ := List.append_inj' entries rfl
      rw [List.singleton_inj] at last
      congr 1
      · rw [← olds]
        refine List.map_congr_left fun other member => ?_
        have unlike : other ≠ (find_slot true assoc name).assoc.brk := fun same => new (same ▸ member)
        exact congrArg _ (Function.update_of_ne unlike ..)
      · have own := congrArg Prod.fst last
        have data := congrArg Prod.snd last
        dsimp only [Assoc.entry] at own data ⊢
        rw [own, Function.update_self, data]

theorem inv_remove (inv : Inv assoc order) {slot : Nat} (inside : slot < assoc.size)
    (here : assoc.slots slot = some elem) :
    let outcome := assoc_remove assoc slot
    outcome.1 = .ok ∧ Inv outcome.2 (order.erase elem) ∧ outcome.2.icase = assoc.icase ∧
      outcome.2.entry = assoc.entry := by
  have member : elem ∈ order := (inv.indexed.stored elem).mp ⟨slot, inside, here⟩
  have unlinked := listed_unlink inv.listed member
  have freed : assoc_free_elem assoc slot = (assoc_elem_unlink assoc elem).set slot none := by
    rw [assoc_free_elem, here]
  have table : Function.update (assoc_free_elem assoc slot).slots slot none = Function.update assoc.slots slot none := by
    rw [freed, set_slots, Function.update_idem]
    rfl
  have indexed := indexed_remove inv.indexed inside here
  intro outcome
  have unfolded : outcome = (.ok,
      { assoc_elem_unlink assoc elem with
        tab := some (backshift assoc.size assoc.home (fuel assoc.size) (Function.update assoc.slots slot none)
          slot slot) }) := by
    show assoc_remove assoc slot = _
    rw [assoc_remove, if_neg (not_not_intro inside)]
    dsimp only
    rw [table, freed]
    rfl
  rw [unfolded]
  refine ⟨rfl, ⟨indexed.congr rfl rfl rfl fun _ _ => rfl, ⟨unlinked.forward, unlinked.backward, unlinked.nodup⟩,
    fun other there => inv.allocated other (List.mem_of_mem_erase there), fun none_there => ?_⟩, rfl, rfl⟩
  cases none_there

theorem remove_refines (inv : Inv assoc order) (name : Option Name) :
    Refines assoc.icase (order.map assoc.entry) (.remove name) (step assoc (.remove name)) := by
  cases name with
  | none => exact refines_same inv rfl
  | some name =>
    simp only [Refines, step, mu_assoc_remove, specify]
    obtain ⟨same, ⟨rc, elem, found⟩ | ⟨rc, miss⟩⟩ := find_slot_cases inv.indexed name
    · have there : (order.map assoc.entry).any (isFor assoc.icase name) = true :=
        any_entries.mpr ⟨elem, found.member, found.named⟩
      obtain ⟨done, inv', icase, entry⟩ := inv_remove inv found.inside found.here
      simp only [rc, same, there, ne_eq, not_true_eq_false, if_false, if_true, done]
      refine ⟨trivial, icase, _, inv', ?_⟩
      rw [entry, List.filter_map, inv.listed.nodup.erase_eq_filter]
      congr 1
      refine List.filter_congr fun other member => ?_
      rw [Function.comp, Bool.eq_iff_iff, Bool.not_eq_true', ← Bool.not_eq_true, isFor_entry,
        named_iff inv found.member found.named member, bne_iff_ne]
    · simp only [rc, same, any_absent miss, ne_eq, reduceCtorEq, not_false_eq_true, if_true, Bool.false_eq_true,
        if_false]
      exact ⟨trivial, trivial, order, inv, rfl⟩

theorem find_elem (inv : Inv assoc order) (member : elem ∈ order) :
    ∃ slot, (List.range assoc.size).find? (fun i => assoc.slots i == some elem) = some slot ∧ slot < assoc.size ∧
      assoc.slots slot = some elem := by
  obtain ⟨s, inside, here⟩ := (inv.indexed.stored elem).mpr member
  cases result : (List.range assoc.size).find? (fun i => assoc.slots i == some elem) with
  | none =>
    rw [List.find?_eq_none] at result
    exact absurd (beq_iff_eq.mpr here) (result s (List.mem_range.mpr inside))
  | some slot =>
    have hit := List.find?_some result
    exact ⟨slot, rfl, List.mem_range.mp (List.mem_of_find?_eq_some result), beq_iff_eq.mp hit⟩

theorem inv_remove_elem (inv : Inv assoc order) (member : elem ∈ order) (nd : Bool) :
    let outcome := assoc_remove_elem assoc (some elem) nd
    outcome.1 = .ok ∧ Inv outcome.2 (order.erase elem) ∧ outcome.2.icase = assoc.icase ∧
      (order.erase elem).map outcome.2.entry = (order.erase elem).map assoc.entry := by
  obtain ⟨slot, result, inside, here⟩ := find_elem inv member
  simp only [assoc_remove_elem, result]
  cases nd with
  | false =>
    obtain ⟨_, inv', icase, entry⟩ := inv_remove inv inside here
    simp only [Bool.false_eq_true, if_false]
    exact ⟨trivial, inv', icase, by rw [entry]⟩
  | true =>
    obtain ⟨_, inv', icase, entry⟩ := inv_remove (inv_data inv (Function.update assoc.data elem none)) inside here
    simp only [if_true]
    refine ⟨trivial, inv', icase, ?_⟩
    rw [entry]
    refine List.map_congr_left fun other there => ?_
    have unlike : other ≠ elem := (inv.listed.nodup.mem_erase_iff.mp there).1
    exact congrArg _ (Function.update_of_ne unlike ..)

theorem pop_refines (inv : Inv assoc order) (name : Option Name) (ret_val : Bool) :
    Refines assoc.icase (order.map assoc.entry) (.pop name ret_val) (step assoc (.pop name ret_val)) := by
  cases name with
  | none => exact refines_same inv rfl
  | some name =>
    simp only [Refines, step, mu_assoc_pop, remove_end, specify, List.getLast?_map, inv.listed.tail]
    rcases List.eq_nil_or_concat order with rfl | ⟨front, last, rfl⟩
    · cases ret_val with
      | false => exact ⟨rfl, rfl, [], inv, rfl⟩
      | true => exact ⟨rfl, rfl, [], inv, rfl⟩
    · rw [List.concat_eq_append] at *
      obtain ⟨rc, inv', icase, entries⟩ := inv_remove_elem inv (show last ∈ front ++ [last] by simp) ret_val
      have apart : last ∉ front := by
        intro member
        exact (List.nodup_append.mp inv.listed.nodup).2.2 last member last (List.mem_singleton_self _) rfl
      have erased : (front ++ [last]).erase last = front := by
        rw [List.erase_append_right _ apart, List.erase_cons_head, List.append_nil]
      simp only [List.getLast?_append_of_ne_nil _ (List.cons_ne_nil _ _), List.getLast?_singleton, Option.map_some,
        rc, Option.bind_some]
      refine ⟨rfl, icase, _, inv', ?_⟩
      rw [entries, erased, List.map_append, List.map_singleton, List.dropLast_concat]

theorem shift_refines (inv : Inv assoc order) (name : Option Name) (ret_val : Bool) :
    Refines assoc.icase (order.map assoc.entry) (.shift name ret_val) (step assoc (.shift name ret_val)) := by
  cases name with
  | none => exact refines_same inv rfl
  | some name =>
    simp only [Refines, step, mu_assoc_shift, remove_end, specify, List.head?_map, inv.listed.head]
    cases order with
    | nil =>
      cases ret_val with
      | false => exact ⟨rfl, rfl, [], inv, rfl⟩
      | true => exact ⟨rfl, rfl, [], inv, rfl⟩
    | cons first rest =>
      obtain ⟨rc, inv', icase, entries⟩ := inv_remove_elem inv (show first ∈ first :: rest from List.mem_cons_self) ret_val
      simp only [List.head?_cons, Option.map_some, rc, Option.bind_some]
      refine ⟨rfl, icase, _, inv', ?_⟩
      rw [entries, List.erase_cons_head, List.map_cons, List.tail_cons]

theorem sort_r_refines (inv : Inv assoc order) (cmp : Option (Name → Option V → Name → Option V → Int)) :
    Refines assoc.icase (order.map assoc.entry) (.sort_r cmp) (step assoc (.sort_r cmp)) := by
  cases cmp with
  | none => exact refines_same inv rfl
  | some cmp =>
    have perm := sorted_perm assoc (some cmp) order
    have listed := listed_sort inv.listed inv.length_le (some cmp)
    refine ⟨rfl, rfl, sorted assoc (some cmp) order, ⟨?_, listed, ?_, inv.first⟩, ?_⟩
    · exact (inv.indexed.reorder listed.nodup fun elem => perm.mem_iff).congr rfl rfl rfl fun _ _ => rfl
    · intro elem member
      exact inv.allocated elem (perm.mem_iff.mp member)
    · exact List.map_mergeSort fun _ _ _ _ => rfl

theorem step_refines (inv : Inv assoc order) (few : order.length < 16411) (op : Op V) :
    Refines assoc.icase (order.map assoc.entry) op (step assoc op) := by
  cases op with
  | install name value => exact install_refines inv few name value
  | install_ref name value => exact install_ref_refines inv few name value
  | lookup name => exact lookup_refines inv name
  | remove name => exact remove_refines inv name
  | pop name ret_val => exact pop_refines inv name ret_val
  | shift name ret_val => exact shift_refines inv name ret_val
  | sort_r cmp => exact sort_r_refines inv cmp

/-- There are never as many entries as slots in the largest table. -/
def Few (icase : Bool) : List (Op V) → Entries V → Prop
  | [], entries => entries.length < 16411
  | op :: ops, entries => entries.length < 16411 ∧ Few icase ops (specify icase entries op).2

instance decidableFew (icase : Bool) : ∀ (ops : List (Op V)) (entries : Entries V), Decidable (Few icase ops entries)
  | [], entries => inferInstanceAs (Decidable (entries.length < 16411))
  | op :: ops, entries =>
    have := decidableFew icase ops (specify icase entries op).2
    inferInstanceAs (Decidable (_ ∧ _))

theorem run_refines (ops : List (Op V)) : ∀ (assoc : Assoc V) (order : List Nat), Inv assoc order →
    Few assoc.icase ops (order.map assoc.entry) →
    (run ops assoc).1 = (specification assoc.icase ops (order.map assoc.entry)).1 ∧
      ∃ order', Inv (run ops assoc).2 order' ∧
        order'.map (run ops assoc).2.entry = (specification assoc.icase ops (order.map assoc.entry)).2 := by
  induction ops with
  | nil =>
    intro assoc order inv _
    exact ⟨rfl, order, inv, rfl⟩
  | cons op ops ih =>
    intro assoc order inv few
    rw [Few, List.length_map] at few
    obtain ⟨result, icase, order', inv', entries⟩ := step_refines inv few.1 op
    have rest := ih (step assoc op).2 order' inv' (by rw [icase, entries]; exact few.2)
    rw [icase, entries] at rest
    obtain ⟨results, order'', inv'', entries'⟩ := rest
    refine ⟨?_, order'', inv'', entries'⟩
    simp only [run, specification]
    rw [result, results]

theorem inv_step (inv : Inv assoc order) (op : Op V) : ∃ order', Inv (step assoc op).2 order' := by
  rcases Nat.lt_or_ge order.length 16411 with few | many
  · obtain ⟨_, _, order', inv', _⟩ := step_refines inv few op
    exact ⟨order', inv'⟩
  · cases op with
    | install name value =>
      cases name with
      | none => exact ⟨order, inv⟩
      | some name =>
        obtain ⟨same, refused | there⟩ := find_slot_full inv.indexed many name
        · simp only [step, mu_assoc_install, same, refused, ne_eq, not_false_eq_true, if_true]
          exact ⟨order, inv⟩
        · simp only [step, mu_assoc_install, same, there, Bool.not_false, if_true]
          exact ⟨order, by split <;> exact inv⟩
    | install_ref name value =>
      cases name with
      | none => exact ⟨order, inv⟩
      | some name =>
        have stored : ∀ ref, Inv (assoc.store ref value) order := by
          intro ref
          cases ref with
          | none => exact inv
          | some elem => exact inv_data inv _
        obtain ⟨same, refused | there⟩ := find_slot_full inv.indexed many name
        · simp only [step, mu_assoc_install_ref, same, refused, ne_eq, not_false_eq_true, if_true]
          exact ⟨order, stored none⟩
        · simp only [step, mu_assoc_install_ref, same, there, Bool.false_eq_true, if_false]
          split
          · exact ⟨order, stored none⟩
          · exact ⟨order, stored _⟩
    | lookup name => exact ⟨order, inv⟩
    | remove name =>
      obtain ⟨_, _, order', inv', _⟩ := remove_refines inv name
      exact ⟨order', inv'⟩
    | pop name ret_val =>
      obtain ⟨_, _, order', inv', _⟩ := pop_refines inv name ret_val
      exact ⟨order', inv'⟩
    | shift name ret_val =>
      obtain ⟨_, _, order', inv', _⟩ := shift_refines inv name ret_val
      exact ⟨order', inv'⟩
    | sort_r cmp =>
      obtain ⟨_, _, order', inv', _⟩ := sort_r_refines inv cmp
      exact ⟨order', inv'⟩

theorem run_inv (ops : List (Op V)) : ∀ (assoc : Assoc V) (order : List Nat), Inv assoc order →
    ∃ order', Inv (run ops assoc).2 order' := by
  induction ops with
  | nil =>
    intro assoc order inv
    exact ⟨order, inv⟩
  | cons op ops ih =>
    intro assoc order inv
    obtain ⟨order', inv'⟩ := inv_step inv op
    exact ih (step assoc op).2 order' inv'

/-- The results of every run are those of a map with an order, and after it the links
    lead through all elements in the table, forward and backward. -/
theorem assoc_is_ordered_map (icase : Bool) (ops : List (Op V)) (few : Few icase ops []) :
    let outcome := run ops (mu_assoc_create icase)
    outcome.1 = (specification icase ops []).1 ∧
      ∃ order, Chain outcome.2.next outcome.2.head order ∧ Chain outcome.2.prev outcome.2.tail order.reverse ∧
        order.Nodup ∧ (∀ elem, elem ∈ order ↔ Stored outcome.2.size outcome.2.slots elem) ∧
        order.map outcome.2.entry = (specification icase ops []).2 := by
  obtain ⟨results, order, inv, entries⟩ := run_refines ops (mu_assoc_create icase) [] (inv_create icase) few
  exact ⟨results, order, inv.listed.forward, inv.listed.backward, inv.listed.nodup,
    fun elem => (inv.indexed.stored elem).symm, entries⟩

/-- Names that differ in case: the second is not installed, and it finds the value of the
    first until that is taken out. -/
theorem assoc_is_ordered_map_case :
    let lower : Name := ⟨[97], by decide⟩
    let upper : Name := ⟨[65], by decide⟩
    let ops : List (Op Nat) := [.install (some lower) (some 1), .install (some upper) (some 2), .lookup (some upper),
      .shift (some lower) true, .lookup (some upper)]
    Few true ops [] ∧ (run ops (mu_assoc_create true)).1 =
      [(.ok, none), (.exist, none), (.ok, some 1), (.ok, some 1), (.noent, none)] := by
  refine ⟨by decide, (assoc_is_ordered_map true _ (by decide)).1.trans (by decide)⟩

/-- A comparison of entries that is total and transitive. -/
structure Preorders (cmp : Name → Option V → Name → Option V → Int) : Prop where
  total : ∀ a b : Name × Option V, cmp a.1 a.2 b.1 b.2 ≤ 0 ∨ cmp b.1 b.2 a.1 a.2 ≤ 0
  trans : ∀ a b c : Name × Option V, cmp a.1 a.2 b.1 b.2 ≤ 0 → cmp b.1 b.2 c.1 c.2 ≤ 0 → cmp a.1 a.2 c.1 c.2 ≤ 0

/-- What a lookup returns, by the table and the elements alone. -/
def Assoc.answer (assoc : Assoc V) (name : Name) : Result V :=
  match assoc.tab.isSome, assoc.search name with
  | true, .found i => (.ok, (assoc.slots i).bind assoc.data)
  | _, _ => (.noent, none)

theorem lookup_answer (name : Name) : mu_assoc_lookup assoc (some name) = assoc.answer name := by
  unfold mu_assoc_lookup find_slot Assoc.answer
  dsimp only
  cases there : assoc.tab with
  | none =>
    simp only [assoc_find_slot, there, Option.isSome_none, Bool.false_eq_true, if_false, ne_eq, reduceCtorEq,
      not_false_eq_true, if_true]
  | some tab =>
    have found : assoc.tab.isSome := by rw [there]; rfl
    rw [find_slot_some false max_rehash found]
    cases assoc.search name with
    | found i => rfl
    | empty i => rfl
    | full => rfl

/-- After the sort the links lead through the same elements, in order, and those that compare as equal are in the
    order they had; the links back lead through them in reverse, and every name is found as before. -/
theorem mu_assoc_sort_r_stable (inv : Inv assoc order) {cmp : Name → Option V → Name → Option V → Int}
    (preorders : Preorders cmp) :
    ∃ order', Chain (mu_assoc_sort_r assoc (some cmp)).2.next (mu_assoc_sort_r assoc (some cmp)).2.head order' ∧
      Chain (mu_assoc_sort_r assoc (some cmp)).2.prev (mu_assoc_sort_r assoc (some cmp)).2.tail order'.reverse ∧
      order'.Perm order ∧
      order'.Pairwise (fun a b => cmp (assoc.name a) (assoc.data a) (assoc.name b) (assoc.data b) ≤ 0) ∧
      (∀ a b, [a, b].Sublist order → cmp (assoc.name a) (assoc.data a) (assoc.name b) (assoc.data b) ≤ 0 →
        [a, b].Sublist order') ∧
      (mu_assoc_sort_r assoc (some cmp)).2.entry = assoc.entry ∧
      ∀ name, mu_assoc_lookup (mu_assoc_sort_r assoc (some cmp)).2 name = mu_assoc_lookup assoc name := by
  have listed := listed_sort inv.listed inv.length_le (some cmp)
  have trans : ∀ a b c : Nat, decide (cmp (assoc.name a) (assoc.data a) (assoc.name b) (assoc.data b) ≤ 0) →
      decide (cmp (assoc.name b) (assoc.data b) (assoc.name c) (assoc.data c) ≤ 0) →
      decide (cmp (assoc.name a) (assoc.data a) (assoc.name c) (assoc.data c) ≤ 0) := by
    intro a b c first second
    rw [decide_eq_true_eq] at first second ⊢
    exact preorders.trans (assoc.entry a) (assoc.entry b) (assoc.entry c) first second
  have total : ∀ a b : Nat, (decide (cmp (assoc.name a) (assoc.data a) (assoc.name b) (assoc.data b) ≤ 0) ||
      decide (cmp (assoc.name b) (assoc.data b) (assoc.name a) (assoc.data a) ≤ 0)) = true := by
    intro a b
    rw [Bool.or_eq_true, decide_eq_true_eq, decide_eq_true_eq]
    exact preorders.total (assoc.entry a) (assoc.entry b)
  refine ⟨sorted assoc (some cmp) order, listed.forward, listed.backward, sorted_perm assoc (some cmp) order, ?_, ?_,
    rfl, ?_⟩
  · exact (List.pairwise_mergeSort trans total order).imp of_decide_eq_true
  · intro a b before le
    exact List.pair_sublist_mergeSort trans total (decide_eq_true le) before
  · intro name
    cases name with
    | none => rfl
    | some name =>
      rw [lookup_answer, lookup_answer]
      rfl

/-- Entries by their values. -/
def by_value (_ : Name) (a : Option Int) (_ : Name) (b : Option Int) : Int := a.getD 0 - b.getD 0

/-- Two names whose values are the other way round than the names came. -/
def swapped : List (Op Int) :=
  [.install (some ⟨[97], by decide⟩) (some 2), .install (some ⟨[98], by decide⟩) (some 1)]

theorem mu_assoc_sort_r_stable_two :
    Preorders by_value ∧ ∃ order order', order.length = 2 ∧ order'.Perm order ∧
      Chain (mu_assoc_sort_r (run swapped (mu_assoc_create false)).2 (some by_value)).2.next
        (mu_assoc_sort_r (run swapped (mu_assoc_create false)).2 (some by_value)).2.head order' := by
  have preorders : Preorders by_value := by
    refine ⟨fun a b => ?_, fun a b c first second => ?_⟩
    · unfold by_value
      omega
    · unfold by_value at first second ⊢
      omega
  obtain ⟨_, order, inv, entries⟩ := run_refines swapped (mu_assoc_create false) [] (inv_create false) (by decide)
  obtain ⟨order', forward, _, perm, _⟩ := mu_assoc_sort_r_stable inv preorders
  refine ⟨preorders, order, order', ?_, perm, forward⟩
  rw [← List.length_map, entries]
  rfl
end
end Mailutils.AssocArray

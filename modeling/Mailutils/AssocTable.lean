import Mailutils.AssocArray

/-!
The hash table of an associative array. Every element can be reached from the hash
of its name, and no two have equal names (`Indexed`). A search then finds the element
with a name or a slot for it (`find_slot_cases`, `find_slot_install`), also when the
table has to grow for it (`assoc_rehash_indexed`).
-/
namespace Mailutils.AssocArray
open Mailutils.OpenAddressing Mailutils.Linked

section
variable {V : Type*} {assoc assoc' : Assoc V} {elems : List Nat} {name : Name} {elem i : Nat}

/-- The element has the name. -/
def Named (assoc : Assoc V) (elem : Nat) (name : Name) : Prop :=
  fold assoc.icase (assoc.name elem) = fold assoc.icase name

/-- The table holds some elements, whose names differ. -/
structure Indexed (assoc : Assoc V) (elems : List Nat) : Prop where
  small : assoc.hash_num < max_rehash
  reach : Reach assoc.size assoc.home assoc.slots
  single : Single assoc.size assoc.slots
  stored : ∀ elem, Stored assoc.size assoc.slots elem ↔ elem ∈ elems
  nodup : elems.Nodup
  distinct : ∀ a ∈ elems, ∀ b ∈ elems, Named assoc a (assoc.name b) → a = b
  clear : ∃ g < assoc.size, ClearAt assoc.size assoc.home g assoc.slots

theorem Indexed.home_lt (indexed : Indexed assoc elems) (elem : Nat) : assoc.home elem < assoc.size :=
  hash_lt indexed.small ..

/-- A table is one of other memory as well where the names of its elements are the same. -/
theorem Indexed.congr (indexed : Indexed assoc elems) (icase : assoc'.icase = assoc.icase)
    (hash_num : assoc'.hash_num = assoc.hash_num) (slots : assoc'.slots = assoc.slots)
    (names : ∀ elem ∈ elems, assoc'.name elem = assoc.name elem) : Indexed assoc' elems := by
  have size : assoc'.size = assoc.size := by rw [Assoc.size, Assoc.size, hash_num]
  have homes : ∀ elem ∈ elems, assoc'.home elem = assoc.home elem := by
    intro elem member
    rw [Assoc.home, Assoc.home, icase, hash_num, names elem member]
  constructor
  · rw [hash_num]
    exact indexed.small
  · rw [size, slots]
    intro s bound elem there
    rw [homes elem ((indexed.stored elem).mp ⟨s, bound, there⟩)]
    exact indexed.reach s bound elem there
  · rw [size, slots]
    exact indexed.single
  · rw [size, slots]
    exact indexed.stored
  · exact indexed.nodup
  · intro a left b right
    rw [Named, icase, names a left, names b right]
    exact indexed.distinct a left b right
  · obtain ⟨g, bound, clear⟩ := indexed.clear
    rw [size, slots]
    refine ⟨g, bound, fun s inside elem there before => clear s inside elem there ?_⟩
    rwa [homes elem ((indexed.stored elem).mp ⟨s, inside, there⟩)] at before

theorem Indexed.reorder (indexed : Indexed assoc elems) {others : List Nat} (nodup : others.Nodup)
    (same : ∀ elem, elem ∈ others ↔ elem ∈ elems) : Indexed assoc others := by
  refine ⟨indexed.small, indexed.reach, indexed.single, ?_, nodup, ?_, indexed.clear⟩
  · intro elem
    rw [same]
    exact indexed.stored elem
  · intro a left b right
    exact indexed.distinct a ((same a).mp left) b ((same b).mp right)

theorem indexed_nil (small : assoc.hash_num < max_rehash) (empty : assoc.slots = fun _ => none) :
    Indexed assoc [] := by
  refine ⟨small, ?_, ?_, ?_, List.nodup_nil, ?_, 0, size_pos small, ?_⟩
  · intro s _ elem there
    rw [empty] at there
    cases there
  · intro s _ q _ elem there
    rw [empty] at there
    cases there
  · intro elem
    constructor
    · rintro ⟨s, _, there⟩
      rw [empty] at there
      cases there
    · intro member
      cases member
  · intro a left
    cases left
  · intro s _ elem there
    rw [empty] at there
    cases there

/-- No element has the name. -/
def Absent (assoc : Assoc V) (elems : List Nat) (name : Name) : Prop := ∀ elem ∈ elems, ¬ Named assoc elem name

/-- The empty slot where a name belongs. -/
structure Vacant (assoc : Assoc V) (name : Name) (i : Nat) : Prop where
  inside : i < assoc.size
  empty : assoc.slots i = none
  passed : Passed assoc.size assoc.slots (fun elem => name_cmp assoc.icase (assoc.name elem) name == 0)
    (hash assoc.icase name assoc.hash_num) i

/-- The slot of the element with a name. -/
structure Occupied (assoc : Assoc V) (elems : List Nat) (name : Name) (i elem : Nat) : Prop where
  inside : i < assoc.size
  here : assoc.slots i = some elem
  member : elem ∈ elems
  named : Named assoc elem name

private theorem full_length (indexed : Indexed assoc elems) (full : ∀ s < assoc.size, ∃ elem, assoc.slots s = some elem) :
    assoc.size ≤ elems.length := by
  let listed := (List.range assoc.size).map fun s => (assoc.slots s).getD 0
  have there : ∀ s < assoc.size, assoc.slots s = some ((assoc.slots s).getD 0) := by
    intro s bound
    obtain ⟨elem, there⟩ := full s bound
    rw [there]
    rfl
  have nodup : listed.Nodup := by
    refine List.Nodup.map_on ?_ List.nodup_range
    intro s left q right same
    rw [List.mem_range] at left right
    refine indexed.single s left q right ((assoc.slots s).getD 0) (there s left) ?_
    rw [same]
    exact there q right
  have subset : listed ⊆ elems := by
    intro elem member
    obtain ⟨s, bound, rfl⟩ := List.mem_map.mp member
    rw [List.mem_range] at bound
    exact (indexed.stored _).mp ⟨s, bound, there s bound⟩
  have := (List.subperm_of_subset nodup subset).length_le
  rwa [List.length_map, List.length_range] at this

theorem search_cases (indexed : Indexed assoc elems) (name : Name) :
    (∃ i elem, assoc.search name = .found i ∧ Occupied assoc elems name i elem) ∨
    (∃ i, assoc.search name = .empty i ∧ Vacant assoc name i ∧ Absent assoc elems name) ∨
    (assoc.search name = .full ∧ Absent assoc elems name ∧ assoc.size ≤ elems.length) := by
  have start := hash_lt indexed.small assoc.icase name
  have hits (elem : Nat) : (name_cmp assoc.icase (assoc.name elem) name == 0) = true ↔ Named assoc elem name := by
    rw [beq_iff_eq, name_cmp_eq_zero]
    rfl
  have shown := probe_start start assoc.slots fun elem => name_cmp assoc.icase (assoc.name elem) name == 0
  change Probe.Shows _ _ _ _ (assoc.search name) at shown
  cases result : assoc.search name with
  | found i =>
    rw [result] at shown
    obtain ⟨inside, elem, here, hit⟩ := shown
    exact Or.inl ⟨i, elem, rfl, inside, here, (indexed.stored elem).mp ⟨i, inside, here⟩, (hits elem).mp hit⟩
  | empty i =>
    rw [result] at shown
    obtain ⟨inside, empty, passed⟩ := shown
    refine Or.inr (Or.inl ⟨i, rfl, ⟨inside, empty, passed⟩, fun elem member named => ?_⟩)
    have miss := absent indexed.reach inside empty passed
      (fun elem _ hit => hash_congr ((hits elem).mp hit) assoc.hash_num) start ((indexed.stored elem).mpr member)
    rw [(hits elem).mpr named] at miss
    cases miss
  | full =>
    rw [result] at shown
    refine Or.inr (Or.inr ⟨rfl, fun elem member named => ?_, ?_⟩)
    · obtain ⟨s, inside, there⟩ := (indexed.stored elem).mpr member
      obtain ⟨elem', there', miss⟩ := shown s inside
      rw [there] at there'
      cases there'
      exact Bool.false_ne_true (miss.symm.trans ((hits elem).mpr named))
    · exact full_length indexed fun s inside => (shown s inside).imp fun _ there => there.1

@[simp] theorem set_slots (i : Nat) (entry : Option Nat) :
    (assoc.set i entry).slots = Function.update assoc.slots i entry := rfl

@[simp] theorem set_size (i : Nat) (entry : Option Nat) : (assoc.set i entry).size = assoc.size := rfl

theorem indexed_insert (indexed : Indexed assoc elems) (vacant : Vacant assoc (assoc.name elem) i)
    (new : elem ∉ elems) (none_like : Absent assoc elems (assoc.name elem)) :
    Indexed (assoc.set i (some elem)) (elems ++ [elem]) := by
  refine ⟨indexed.small, ?_, ?_, ?_, ?_, ?_, i, vacant.inside, clear_insert indexed.reach vacant.inside vacant.empty elem⟩
  · exact reach_insert indexed.reach vacant.passed
  · exact single_insert indexed.single fun stored => new ((indexed.stored elem).mp stored)
  · intro other
    show Stored assoc.size (Function.update assoc.slots i (some elem)) other ↔ _
    rw [stored_update vacant.inside vacant.empty, indexed.stored, List.mem_append, List.mem_singleton, or_comm]
  · rw [List.nodup_append]
    refine ⟨indexed.nodup, List.nodup_singleton _, ?_⟩
    rintro a left b right rfl
    rw [List.mem_singleton] at right
    exact new (right ▸ left)
  · intro a left b right named
    rw [List.mem_append, List.mem_singleton] at left right
    rcases left with left | rfl
    · rcases right with right | rfl
      · exact indexed.distinct a left b right named
      · exact absurd named (none_like a left)
    · rcases right with right | rfl
      · exact absurd named.symm (none_like b right)
      · rfl

/-- The same memory and list, with another table. -/
def SameElems (assoc assoc' : Assoc V) : Prop :=
  assoc' = { assoc with tab := assoc'.tab, hash_num := assoc'.hash_num }

theorem SameElems.refl (assoc : Assoc V) : SameElems assoc assoc := rfl

theorem SameElems.trans {assoc'' : Assoc V} (first : SameElems assoc assoc') (second : SameElems assoc' assoc'') :
    SameElems assoc assoc'' := by
  unfold SameElems at *
  rw [second, first]

theorem SameElems.names (same : SameElems assoc assoc') : assoc'.name = assoc.name := by rw [same]

theorem SameElems.icase (same : SameElems assoc assoc') : assoc'.icase = assoc.icase := by rw [same]

theorem SameElems.named (same : SameElems assoc assoc') (elem : Nat) (name : Name) :
    Named assoc' elem name ↔ Named assoc elem name := by
  rw [Named, Named, same.icase, same.names]

theorem SameElems.absent (same : SameElems assoc assoc') (none_like : Absent assoc elems name) :
    Absent assoc' elems name := fun elem member named => none_like elem member ((same.named elem name).mp named)

theorem find_slot_some (install : Bool) (fuel : Nat) (there : assoc.tab.isSome) :
    assoc_find_slot install (fuel + 1) assoc name =
      match assoc.search name with
      | .found i => { rc := .ok, assoc := assoc, slot := i }
      | .empty i => if install then { rc := .ok, assoc := assoc, slot := i, inst := true }
        else { rc := .noent, assoc := assoc }
      | .full =>
        if install then
          let (rc, assoc) := assoc_rehash (assoc_find_slot true fuel) assoc
          if rc ≠ .ok then { rc := rc, assoc := assoc } else assoc_find_slot install fuel assoc name
        else { rc := .noent, assoc := assoc } := by
  rw [assoc_find_slot, if_pos there]
  exact if_neg (not_not_intro rfl)

/-- What the loop over the old table has put into the new one. -/
structure Refilled (assoc : Assoc V) (elems : List Nat) (result : Rc × Assoc V) : Prop where
  rc : result.1 = .ok
  same : SameElems assoc result.2
  hash_num : result.2.hash_num = assoc.hash_num
  there : result.2.tab.isSome
  indexed : Indexed result.2 elems

theorem rehash_loop_refilled (fuel : Nat) (old_tab : Nat → Option Nat) (is : List Nat) :
    ∀ (assoc : Assoc V) (elems : List Nat), Indexed assoc elems → assoc.tab.isSome →
      (elems ++ is.filterMap old_tab).Nodup →
      (∀ a ∈ elems ++ is.filterMap old_tab, ∀ b ∈ elems ++ is.filterMap old_tab,
        Named assoc a (assoc.name b) → a = b) →
      (elems ++ is.filterMap old_tab).length < assoc.size →
      Refilled assoc (elems ++ is.filterMap old_tab)
        (rehash_loop (assoc_find_slot true (fuel + 1)) old_tab is assoc) := by
  induction is with
  | nil =>
    intro assoc elems indexed there _ _ _
    rw [List.filterMap_nil, List.append_nil]
    exact ⟨rfl, SameElems.refl assoc, rfl, there, indexed⟩
  | cons i is ih =>
    intro assoc elems indexed there nodup distinct room
    rw [rehash_loop]
    split
    next empty =>
      rw [List.filterMap_cons_none empty] at nodup distinct room ⊢
      exact ih assoc elems indexed there nodup distinct room
    next elem here =>
      rw [List.filterMap_cons_some here] at nodup distinct room ⊢
      have member : elem ∈ elems ++ elem :: is.filterMap old_tab := by simp
      have new : elem ∉ elems := by
        intro old
        exact (List.nodup_append.mp nodup).2.2 elem old elem List.mem_cons_self rfl
      have none_like : Absent assoc elems (assoc.name elem) := by
        intro a left named
        have same := distinct a (List.mem_append_left _ left) elem member named
        exact new (same ▸ left)
      rw [List.length_append] at room
      rw [find_slot_some true fuel there]
      rcases search_cases indexed (assoc.name elem) with
        ⟨k, a, _, found⟩ | ⟨k, result, vacant, _⟩ | ⟨_, _, full⟩
      · exact absurd found.named (none_like a found.member)
      · simp only [result, if_true, ne_eq, not_true_eq_false, if_false]
        rw [List.append_cons] at nodup distinct ⊢
        obtain ⟨rc, same, hash_num, there', indexed'⟩ := ih (assoc.set k (some elem)) (elems ++ [elem])
          (indexed_insert indexed vacant new none_like) rfl nodup distinct (by
            rw [set_size]
            simp only [List.length_append, List.length_cons, List.length_nil] at room ⊢
            omega)
        exact ⟨rc, SameElems.trans (show SameElems assoc (assoc.set k (some elem)) from rfl) same, hash_num, there', indexed'⟩
      · omega

theorem slots_elems (indexed : Indexed assoc elems) :
    ((List.range assoc.size).filterMap assoc.slots).Nodup ∧
      ∀ elem, elem ∈ (List.range assoc.size).filterMap assoc.slots ↔ elem ∈ elems := by
  constructor
  · rw [List.nodup_iff_pairwise_ne, List.pairwise_filterMap]
    refine (List.nodup_range (n := assoc.size)).imp_of_mem ?_
    rintro s q left right other a there b there' rfl
    exact other (indexed.single s (List.mem_range.mp left) q (List.mem_range.mp right) a there there')
  · intro elem
    rw [← indexed.stored, List.mem_filterMap]
    constructor
    · rintro ⟨s, bound, there⟩
      exact ⟨s, List.mem_range.mp bound, there⟩
    · rintro ⟨s, bound, there⟩
      exact ⟨s, List.mem_range.mpr bound, there⟩

theorem Indexed.length_le (indexed : Indexed assoc elems) : elems.length ≤ assoc.size := by
  have same := (slots_elems indexed).2
  have perm := (List.perm_ext_iff_of_nodup (slots_elems indexed).1 indexed.nodup).mpr same
  rw [← perm.length_eq]
  have := List.length_filterMap_le assoc.slots (List.range assoc.size)
  rwa [List.length_range] at this

theorem assoc_rehash_indexed (fuel : Nat) (indexed : Indexed assoc elems) (there : assoc.tab.isSome)
    (larger : assoc.hash_num + 1 < max_rehash) :
    let result := assoc_rehash (assoc_find_slot true (fuel + 1)) assoc
    result.1 = .ok ∧ SameElems assoc result.2 ∧ result.2.hash_num = assoc.hash_num + 1 ∧ result.2.tab.isSome ∧
      Indexed result.2 elems := by
  obtain ⟨old_tab, old⟩ := Option.isSome_iff_exists.mp there
  have slots : assoc.slots = old_tab := by rw [Assoc.slots, old, Option.getD_some]
  obtain ⟨nodup, same⟩ := slots_elems indexed
  rw [slots] at nodup same
  have length : ((List.range assoc.size).filterMap old_tab).length < table_size (assoc.hash_num + 1) := by
    have := List.length_filterMap_le old_tab (List.range assoc.size)
    rw [List.length_range] at this
    exact lt_of_le_of_lt this (size_grows larger)
  obtain ⟨rc, same_elems, hash_num, there', indexed'⟩ := rehash_loop_refilled fuel old_tab (List.range assoc.size)
    { assoc with tab := some (fun _ => none), hash_num := assoc.hash_num + 1 } []
    (indexed_nil larger rfl) rfl nodup
    (fun a left b right named => indexed.distinct a ((same a).mp left) b ((same b).mp right) named) length
  have unfolded : assoc_rehash (assoc_find_slot true (fuel + 1)) assoc =
      rehash_loop (assoc_find_slot true (fuel + 1)) old_tab (List.range assoc.size)
        { assoc with tab := some (fun _ => none), hash_num := assoc.hash_num + 1 } := by
    rw [assoc_rehash, old]
    simp only [ge_iff_le, Nat.not_le.mpr larger, if_false, Nat.add_sub_cancel]
    rfl
  intro result
  rw [← unfolded] at rc same_elems hash_num there' indexed'
  exact ⟨rc, same_elems, hash_num, there', indexed'.reorder indexed.nodup fun elem => (same elem).symm⟩

theorem find_slot_cases (indexed : Indexed assoc elems) (name : Name) :
    let found := find_slot false assoc name
    found.assoc = assoc ∧
      ((found.rc = .ok ∧ ∃ elem, Occupied assoc elems name found.slot elem) ∨
        (found.rc = .noent ∧ Absent assoc elems name)) := by
  unfold find_slot
  cases there : assoc.tab with
  | none =>
    have none_stored : Absent assoc elems name := by
      intro elem member
      obtain ⟨s, _, here⟩ := (indexed.stored elem).mpr member
      rw [Assoc.slots, there] at here
      cases here
    rw [assoc_find_slot]
    simp only [there, Option.isSome_none, Bool.false_eq_true, if_false, ne_eq, reduceCtorEq, not_false_eq_true,
      if_true, false_and, false_or, true_and]
    exact none_stored
  | some tab =>
    rw [find_slot_some false _ (by rw [there]; rfl)]
    rcases search_cases indexed name with ⟨i, elem, result, found⟩ | ⟨i, result, _, miss⟩ | ⟨result, miss, _⟩
    · rw [result]
      exact ⟨rfl, Or.inl ⟨rfl, elem, found⟩⟩
    · rw [result]
      exact ⟨rfl, Or.inr ⟨rfl, miss⟩⟩
    · rw [result]
      exact ⟨rfl, Or.inr ⟨rfl, miss⟩⟩

/-- What a search that installs comes to: an array with the same elements in a table that
    may have grown, and in it the element with the name or a slot for it. -/
structure Located (assoc : Assoc V) (elems : List Nat) (name : Name) (found : Slot V) : Prop where
  rc : found.rc = .ok
  same : SameElems assoc found.assoc
  there : found.assoc.tab.isSome
  indexed : Indexed found.assoc elems
  found : (found.inst = false ∧ ∃ elem, Occupied found.assoc elems name found.slot elem) ∨
    (found.inst = true ∧ Vacant found.assoc name found.slot ∧ Absent assoc elems name)

theorem find_slot_room (fuel : Nat) (indexed : Indexed assoc elems) (there : assoc.tab.isSome)
    (room : elems.length < assoc.size) (name : Name) :
    Located assoc elems name (assoc_find_slot true (fuel + 1) assoc name) := by
  rw [find_slot_some true fuel there]
  rcases search_cases indexed name with ⟨i, elem, result, found⟩ | ⟨i, result, vacant, miss⟩ | ⟨_, _, full⟩
  · rw [result]
    exact ⟨rfl, SameElems.refl assoc, there, indexed, Or.inl ⟨rfl, elem, found⟩⟩
  · rw [result]
    exact ⟨rfl, SameElems.refl assoc, there, indexed, Or.inr ⟨rfl, vacant, miss⟩⟩
  · omega

theorem find_slot_there (fuel : Nat) (indexed : Indexed assoc elems) (there : assoc.tab.isSome)
    (few : elems.length < 16411) (name : Name) :
    Located assoc elems name (assoc_find_slot true (fuel + 2) assoc name) := by
  rcases Nat.lt_or_ge elems.length assoc.size with room | full
  · exact find_slot_room (fuel + 1) indexed there room name
  · rw [find_slot_some true (fuel + 1) there]
    rcases search_cases indexed name with ⟨i, elem, result, found⟩ | ⟨i, result, vacant, miss⟩ | ⟨result, miss, _⟩
    · rw [result]
      exact ⟨rfl, SameElems.refl assoc, there, indexed, Or.inl ⟨rfl, elem, found⟩⟩
    · rw [result]
      exact ⟨rfl, SameElems.refl assoc, there, indexed, Or.inr ⟨rfl, vacant, miss⟩⟩
    · rw [result]
      have larger : assoc.hash_num + 1 < max_rehash := by
        by_contra last
        have : assoc.hash_num = 8 := by
          have := indexed.small
          have : max_rehash = 9 := rfl
          omega
        rw [Assoc.size, this] at full
        have : table_size 8 = 16411 := rfl
        omega
      have bounded := indexed.length_le
      obtain ⟨rc, same, hash_num, there', indexed'⟩ := assoc_rehash_indexed fuel indexed there larger
      have grown : elems.length < (assoc_rehash (assoc_find_slot true (fuel + 1)) assoc).2.size := by
        rw [Assoc.size, hash_num]
        exact lt_of_le_of_lt bounded (size_grows larger)
      obtain ⟨rc', same', there'', indexed'', found⟩ := find_slot_room fuel indexed' there' grown name
      simp only [if_true, rc, ne_eq, not_true_eq_false, if_false]
      refine ⟨rc', same.trans same', there'', indexed'', found.imp_right ?_⟩
      rintro ⟨inst, vacant, _⟩
      exact ⟨inst, vacant, miss⟩

theorem find_slot_install (indexed : Indexed assoc elems) (first : assoc.tab = none → assoc.hash_num = 0)
    (few : elems.length < 16411) (name : Name) : Located assoc elems name (find_slot true assoc name) := by
  unfold find_slot
  cases there : assoc.tab with
  | some tab => exact find_slot_there _ indexed (by rw [there]; rfl) few name
  | none =>
    have zero := first there
    let made : Assoc V := { assoc with tab := some fun _ => none }
    have same : SameElems assoc made := rfl
    have slots : made.slots = assoc.slots := by
      rw [Assoc.slots, Assoc.slots, there]
      rfl
    have indexed' : Indexed made elems := indexed.congr rfl rfl slots fun _ _ => rfl
    have unfolded : assoc_find_slot true (max_rehash + 1) assoc name =
        assoc_find_slot true (max_rehash + 1) made name := by
      have rehashed : assoc_rehash (assoc_find_slot true max_rehash) assoc = (.ok, made) := by
        have larger : ¬ assoc.hash_num + 1 ≥ max_rehash := by
          rw [zero]
          decide
        rw [assoc_rehash, there]
        exact if_neg larger
      rw [assoc_find_slot, assoc_find_slot]
      simp only [there, rehashed, Option.isSome_none, Bool.false_eq_true, if_false, if_true]
      rfl
    rw [unfolded]
    obtain ⟨rc, same', there', indexed'', found⟩ := find_slot_there _ indexed' rfl few name
    exact ⟨rc, same.trans same', there', indexed'', found⟩

/-- In the largest table nothing changes once it is full: a name that is not there gets no slot. -/
theorem find_slot_full (indexed : Indexed assoc elems) (many : 16411 ≤ elems.length) (name : Name) :
    (find_slot true assoc name).assoc = assoc ∧
      ((find_slot true assoc name).rc ≠ .ok ∨ (find_slot true assoc name).inst = false) := by
  have bounded := indexed.length_le
  have last : assoc.hash_num = 8 := by
    have sizes : ∀ n < 8, table_size n < 16411 := by decide
    have small : assoc.hash_num < 9 := indexed.small
    by_contra other
    have := sizes assoc.hash_num (by omega)
    rw [Assoc.size] at bounded
    omega
  have there : assoc.tab.isSome := by
    rw [Option.isSome_iff_ne_none]
    intro missing
    have some_elem : 0 < elems.length := by omega
    obtain ⟨s, _, here⟩ := (indexed.stored _).mpr (List.getElem_mem some_elem)
    rw [Assoc.slots, missing] at here
    cases here
  have refused : assoc_rehash (assoc_find_slot true max_rehash) assoc = (.bufspace, assoc) := by
    rw [assoc_rehash, last]
    rfl
  rw [find_slot, find_slot_some true max_rehash there]
  rcases search_cases indexed name with ⟨i, elem, result, _⟩ | ⟨i, result, vacant, _⟩ | ⟨result, _, _⟩
  · rw [result]
    exact ⟨rfl, Or.inr rfl⟩
  -- a table with as many elements as slots has no empty one
  · exfalso
    have short : ((List.range assoc.size).filterMap assoc.slots).length < (List.range assoc.size).length :=
      List.length_filterMap_lt_length_iff_exists.mpr ⟨i, List.mem_range.mpr vacant.inside, by rw [vacant.empty]⟩
    have perm := (List.perm_ext_iff_of_nodup (slots_elems indexed).1 indexed.nodup).mpr (slots_elems indexed).2
    rw [perm.length_eq, List.length_range, Assoc.size, last] at short
    have : table_size 8 = 16411 := rfl
    omega
  · rw [result]
    simp only [if_true, refused, ne_eq, reduceCtorEq, not_false_eq_true]
    exact ⟨trivial, Or.inl trivial⟩

theorem indexed_remove (indexed : Indexed assoc elems) (inside : i < assoc.size) (here : assoc.slots i = some elem) :
    Indexed
      { assoc with
        tab := some (backshift assoc.size assoc.home (fuel assoc.size) (Function.update assoc.slots i none) i i) }
      (elems.erase elem) := by
  obtain ⟨reach, single, stored⟩ := delete_shifted inside here (fun elem _ => indexed.home_lt elem) indexed.single
    indexed.reach
  obtain ⟨g, bound, clear⟩ := indexed.clear
  refine ⟨indexed.small, reach, single, ?_, indexed.nodup.erase elem, ?_, g, bound,
    clear_delete clear (fun elem _ => indexed.home_lt elem) inside _⟩
  · intro other
    rw [indexed.nodup.mem_erase_iff, and_comm, ← indexed.stored]
    exact stored other
  · intro a left b right
    exact indexed.distinct a (List.mem_of_mem_erase left) b (List.mem_of_mem_erase right)
end
end Mailutils.AssocArray

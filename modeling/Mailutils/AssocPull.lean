import Mailutils.AssocSweep

/-!
Values taken over from another associative array (`mu_assoc_pull` in `libmailutils/base/assoc.c`). The elements of the
first array are looked at slot by slot, and those whose names the second one does not have are removed on the way. Such
a removal can take an element back to a slot that was looked at already, and then some element is passed over. The
function is right just where no removal moves an element of a slot that is still to be looked at (`pull_moves_values`).
-/
namespace Mailutils.AssocArray
open Mailutils.OpenAddressing Mailutils.Linked

section
variable {V : Type*}

/-- The loop over the slots of `a`. -/
def pull_loop : List Nat → Assoc V → Assoc V → Assoc V × Assoc V
  | [], a, b => (a, b)
  | i :: is, a, b =>
    match a.slots i with
    | none => pull_loop is a b
    | some elem =>
      let found := find_slot false b (a.name elem)
      if found.rc = .ok then
        match b.slots found.slot with
        | none => (a, b)
        | some other =>
          pull_loop is { a with data := Function.update a.data elem (b.data other) }
            (assoc_remove { b with data := Function.update b.data other none } found.slot).2
      else pull_loop is (assoc_remove a i).2 b

/-- There is no result when `a` has no table, which is looked at all the same. -/
def mu_assoc_pull (a b : Assoc V) : Option (Assoc V × Assoc V) :=
  if a.tab.isSome then some (pull_loop (List.range a.size) a b) else none

/-- What the function is for: entries of the first array whose names are in the second one get the values there, and
    the second one loses them. -/
def pull (icase : Bool) (a b : Entries V) : Entries V × Entries V :=
  (a.filterMap fun entry => (b.find? (isFor icase entry.1)).map fun other => (entry.1, other.2),
    b.filter fun other => !a.any (isFor icase other.1))

/-- The entries of an array. -/
def Has (assoc : Assoc V) (entries : Entries V) : Prop :=
  ∃ order, Inv assoc order ∧ ∀ entry, entry ∈ order.map assoc.entry ↔ entry ∈ entries

variable {a b : Assoc V} {orderA orderB : List Nat}

/-- The element with a name. -/
def namesake (b : Assoc V) (orderB : List Nat) (name : Name) : Option Nat :=
  orderB.find? fun other => fold b.icase (b.name other) == fold b.icase name

private theorem namesake_some {orderB : List Nat} {name : Name} {other : Nat} (same : namesake b orderB name = some other) :
    other ∈ orderB ∧ Named b other name := by
  rw [namesake] at same
  have hit := List.find?_some same
  exact ⟨List.mem_of_find?_eq_some same, beq_iff_eq.mp hit⟩

theorem namesake_of_named (inv : Inv b orderB) {name : Name} {other : Nat} (member : other ∈ orderB)
    (named : Named b other name) : namesake b orderB name = some other := by
  cases result : namesake b orderB name with
  | none =>
    have := List.find?_eq_none.mp result other member
    exact absurd (beq_iff_eq.mpr named) this
  | some found =>
    obtain ⟨member', named'⟩ := namesake_some result
    rw [(named_iff inv member named member').mp named']

/-- No two names of `a` are the same for `b`. -/
def Apart (a b : Assoc V) (orderA orderB : List Nat) : Prop :=
  ∀ e ∈ orderA, ∀ e' ∈ orderA, ∀ f ∈ orderB, Named b f (a.name e) → Named b f (a.name e') → e = e'

theorem apart_of_icase (same : a.icase = b.icase) (inv : Inv a orderA) : Apart a b orderA orderB := by
  intro e member e' member' f _ named named'
  refine inv.indexed.distinct e member e' member' ?_
  rw [Named, same]
  exact named.symm.trans named'

/-- An element of the slot that is to be removed is on the way of none behind it. -/
def Clear (a b : Assoc V) (orderB : List Nat) (slot : Nat) : Prop :=
  ∀ elem, a.slots slot = some elem → (∀ other ∈ orderB, ¬ Named b other (a.name elem)) →
    ∀ s < a.size, slot < s → ∀ e, a.slots s = some e →
      ¬ OpenAddressing.dist a.size (a.home e) slot < OpenAddressing.dist a.size (a.home e) s

/-- The elements of `b` with the names of none that was looked at. -/
def left (a b : Assoc V) (orderB done : List Nat) : List Nat :=
  orderB.filter fun f => done.all fun e => fold b.icase (b.name f) != fold b.icase (a.name e)

theorem mem_left {done : List Nat} {f : Nat} :
    f ∈ left a b orderB done ↔ f ∈ orderB ∧ ∀ e ∈ done, ¬ Named b f (a.name e) := by
  simp only [left, List.mem_filter, List.all_eq_true, bne_iff_ne]
  rfl

/-- The arrays once some elements have been looked at. -/
structure Looking (a b : Assoc V) (orderA orderB order done : List Nat) (a' b' : Assoc V) : Prop where
  names : a'.name = a.name ∧ a'.icase = a.icase ∧ a'.hash_num = a.hash_num
  others : b'.name = b.name ∧ b'.icase = b.icase
  invA : Inv a' order
  invB : Inv b' (left a b orderB done)
  sub : ∀ e ∈ order, e ∈ orderA
  known : ∀ e ∈ done, e ∈ orderA

variable {order done : List Nat} {a' b' : Assoc V} {t elem : Nat}

theorem Looking.size (looking : Looking a b orderA orderB order done a' b') : a'.size = a.size := by
  rw [Assoc.size, Assoc.size, looking.names.2.2]

theorem Looking.home (looking : Looking a b orderA orderB order done a' b') : a'.home = a.home := by
  funext e
  rw [Assoc.home, Assoc.home, looking.names.1, looking.names.2.1, looking.names.2.2]

theorem Looking.named (looking : Looking a b orderA orderB order done a' b') (f : Nat) (name : Name) :
    Named b' f name ↔ Named b f name := by
  rw [Named, Named, looking.others.1, looking.others.2]

theorem Looking.take (invB : Inv b orderB) (looking : Looking a b orderA orderB order done a' b')
    (member : elem ∈ orderA) {slot other : Nat} (bound : slot < b'.size)
    (there : b'.slots slot = some other) (named : Named b' other (a.name elem)) :
    Looking a b orderA orderB order (elem :: done) { a' with data := Function.update a'.data elem (b'.data other) }
      (assoc_remove { b' with data := Function.update b'.data other none } slot).2 := by
  obtain ⟨stored, _⟩ := mem_left.mp ((looking.invB.indexed.stored other).mp ⟨slot, bound, there⟩)
  rw [looking.named] at named
  obtain ⟨_, removed, icase, entry⟩ := inv_remove (inv_data looking.invB (Function.update b'.data other none)) bound there
  refine ⟨looking.names, ⟨?_, icase.trans looking.others.2⟩, inv_data looking.invA _, ?_, looking.sub,
    List.forall_mem_cons.mpr ⟨member, looking.known⟩⟩
  · funext f
    rw [← looking.others.1]
    exact congrArg Prod.fst (congrFun entry f)
  · rw [left, invB.listed.nodup.filter _ |>.erase_eq_filter, List.filter_filter] at removed
    rwa [List.filter_congr (q := fun f => (elem :: done).all fun e =>
      fold b.icase (b.name f) != fold b.icase (a.name e))] at removed
    intro f there'
    rw [List.all_cons]
    congr 1
    rw [Bool.eq_iff_iff, bne_iff_ne, bne_iff_ne]
    exact not_congr (named_iff invB stored named there').symm

theorem Looking.drop (looking : Looking a b orderA orderB order done a' b') (inside : t < a'.size)
    (here : a'.slots t = some elem) (absent : Absent b' (left a b orderB done) (a.name elem)) :
    Looking a b orderA orderB (order.erase elem) (elem :: done) (assoc_remove a' t).2 b' := by
  have member := (looking.invA.indexed.stored elem).mp ⟨t, inside, here⟩
  obtain ⟨_, removed, icase, entry⟩ := inv_remove looking.invA inside here
  have same : left a b orderB (elem :: done) = left a b orderB done := by
    refine List.filter_congr fun f stored => ?_
    rw [List.all_cons, Bool.and_eq_right_iff_imp, bne_iff_ne]
    intro other alike
    exact absent f (List.mem_filter.mpr ⟨stored, other⟩) ((looking.named f _).mpr alike)
  refine ⟨⟨?_, icase.trans looking.names.2.1, ?_⟩, looking.others, removed, same ▸ looking.invB,
    fun e stored => looking.sub e (List.mem_of_mem_erase stored),
    List.forall_mem_cons.mpr ⟨looking.sub elem member, looking.known⟩⟩
  · funext e
    rw [← looking.names.1]
    exact congrArg Prod.fst (congrFun entry e)
  · rw [remove_slots inside here]
    exact looking.names.2.2

/-- The slots before `t` that are in use. -/
def filled (assoc : Assoc V) (t : Nat) : Finset Nat := (Finset.range t).filter fun s => (assoc.slots s).isSome

theorem filled_succ {assoc : Assoc V} (here : assoc.slots t = some elem) :
    (filled assoc (t + 1)).card = (filled assoc t).card + 1 := by
  rw [filled, Finset.range_add_one, Finset.filter_insert, if_pos (by rw [here]; rfl), Finset.card_insert_of_notMem]
  · rfl
  · simp

theorem filled_skip {assoc : Assoc V} (empty : assoc.slots t = none) : filled assoc (t + 1) = filled assoc t := by
  rw [filled, Finset.range_add_one, Finset.filter_insert, if_neg (by rw [empty]; exact Bool.false_ne_true)]
  rfl

theorem remove_filled {assoc : Assoc V} (inv : Inv assoc order) (inside : t < assoc.size)
    (here : assoc.slots t = some elem) :
    ∃ h, (∀ t', filled (assoc_remove assoc t).2 t' = (filled assoc t').erase h) ∧
      ∀ g < assoc.size, t ≤ g → ClearAt assoc.size assoc.home g assoc.slots → t ≤ h := by
  obtain ⟨h, _, freed, low⟩ := backshift_frees (fuel assoc.size) inside
    (Function.update_self t none assoc.slots) fun e _ => inv.indexed.home_lt e
  refine ⟨h, fun t' => ?_, fun g bound up clear => low g bound up fun s inside e there =>
    clear s inside e (emptied_some there).2⟩
  ext s
  have free : (assoc_remove assoc t).2.slots s = none ↔ s = h ∨ assoc.slots s = none := by
    rw [remove_slots inside here]
    refine (freed s).trans (or_congr_right ?_)
    by_cases same : s = t
    · simp [same, here]
    · simp [same]
  simp only [filled, Finset.mem_filter, Finset.mem_range, Finset.mem_erase, Option.isSome_iff_ne_none, ne_eq, free,
    not_or]
  exact and_left_comm

/-- The elements looked at that are still there. -/
def seen (order done : List Nat) : Finset Nat := order.toFinset ∩ done.toFinset

theorem seen_take : (seen order (elem :: done)).card ≤ (seen order done).card + 1 := by
  refine le_trans (Finset.card_le_card ?_) (Finset.card_insert_le elem _)
  intro e
  simp only [seen, Finset.mem_inter, List.mem_toFinset, List.mem_cons, Finset.mem_insert]
  tauto

theorem seen_drop (nodup : order.Nodup) : (seen (order.erase elem) (elem :: done)).card ≤ (seen order done).card := by
  refine Finset.card_le_card fun e => ?_
  simp only [seen, Finset.mem_inter, List.mem_toFinset, List.mem_cons, nodup.mem_erase_iff]
  tauto

/-- With `t` the next slot some element will not have been looked at in the end: there is one in a slot from its home
    on that is passed, or fewer elements were looked at than slots are in use up to there. -/
def Missed (assoc : Assoc V) (t : Nat) (order done : List Nat) : Prop :=
  (∃ s < assoc.size, s < t ∧ ∃ z, assoc.slots s = some z ∧ assoc.home z ≤ s ∧ z ∉ done) ∨
    (seen order done).card < (filled assoc t).card

theorem Missed.skip (missed : Missed a' t order done) (empty : a'.slots t = none) : Missed a' (t + 1) order done := by
  rcases missed with ⟨s, bound, low, rest⟩ | fewer
  · exact Or.inl ⟨s, bound, by omega, rest⟩
  · exact Or.inr (by rwa [filled_skip empty])

theorem Missed.take (inv : Inv a' order) (inside : t < a'.size) (here : a'.slots t = some elem)
    (missed : Missed a' t order done) (data : Nat → Option V) :
    Missed { a' with data := data } (t + 1) order (elem :: done) := by
  rcases missed with ⟨s, bound, low, z, there, at_home, new⟩ | fewer
  · refine Or.inl ⟨s, bound, by omega, z, there, at_home, ?_⟩
    rw [List.mem_cons, not_or]
    refine ⟨fun same => ?_, new⟩
    have := inv.indexed.single s bound t inside elem (same ▸ there) here
    omega
  · refine Or.inr (lt_of_le_of_lt seen_take ?_)
    exact lt_of_lt_of_eq (Nat.succ_lt_succ fewer) (filled_succ here).symm

theorem Missed.drop (inv : Inv a' order) (inside : t < a'.size) (here : a'.slots t = some elem)
    (missed : Missed a' t order done) : Missed (assoc_remove a' t).2 (t + 1) (order.erase elem) (elem :: done) := by
  rcases missed with ⟨s, bound, low, z, there, at_home, new⟩ | fewer
  · have other : z ≠ elem := by
      rintro rfl
      have := inv.indexed.single s bound t inside z there here
      omega
    obtain ⟨_, removed, _, _⟩ := inv_remove inv inside here
    obtain ⟨s', bound', there'⟩ := (removed.indexed.stored z).mpr
      ((inv.listed.nodup.mem_erase_iff).mpr ⟨other, (inv.indexed.stored z).mp ⟨s, bound, there⟩⟩)
    have near := backshift_nearer
      (P := fun s e => e = z → a'.home z ≤ s ∧ s < t)
      (fun e _ s bound j _ less placed same => by
        obtain ⟨first, last⟩ := placed same
        have := nearer_low bound first (same ▸ less)
        omega)
      (fuel a'.size) inside (Function.update_self t none a'.slots) (fun e _ => inv.indexed.home_lt e)
      (by
        rintro q bound'' e there'' rfl
        have := inv.indexed.single q bound'' s bound e (emptied_some there'').2 there
        subst this
        exact ⟨at_home, low⟩)
    rw [remove_slots inside here] at bound' there' ⊢
    have := near s' bound' z there' rfl
    refine Or.inl ⟨s', bound', by omega, z, there', this.1, ?_⟩
    rw [List.mem_cons, not_or]
    exact ⟨other, new⟩
  · obtain ⟨h, freed, _⟩ := remove_filled inv inside here
    refine Or.inr (lt_of_le_of_lt (seen_drop inv.listed.nodup) ?_)
    have most := Finset.pred_card_le_card_erase (a := h) (s := filled a' (t + 1))
    rw [filled_succ here] at most
    rw [freed]
    omega

theorem Missed.end (inv : Inv a' order) (missed : Missed a' a'.size order done) : ∃ z ∈ order, z ∉ done := by
  rcases missed with ⟨s, bound, _, z, there, _, new⟩ | fewer
  · exact ⟨z, (inv.indexed.stored z).mp ⟨s, bound, there⟩, new⟩
  · by_contra all
    push Not at all
    have same : seen order done = order.toFinset :=
      Finset.inter_eq_left.mpr fun e member => List.mem_toFinset.mpr (all e (List.mem_toFinset.mp member))
    refine absurd fewer (not_lt.mpr ?_)
    rw [same]
    -- each slot in use has an element of its own
    refine Finset.card_le_card_of_injOn (fun s => (a'.slots s).getD 0) ?_ ?_
    · intro s used
      obtain ⟨bound, used⟩ := Finset.mem_filter.mp used
      obtain ⟨e, there⟩ := Option.isSome_iff_exists.mp used
      simp only [there, Option.getD_some, Finset.mem_coe, List.mem_toFinset]
      exact (inv.indexed.stored e).mp ⟨s, Finset.mem_range.mp bound, there⟩
    · intro s used q used' same
      obtain ⟨bound, used⟩ := Finset.mem_filter.mp used
      obtain ⟨bound', used'⟩ := Finset.mem_filter.mp used'
      obtain ⟨e, there⟩ := Option.isSome_iff_exists.mp used
      obtain ⟨e', there'⟩ := Option.isSome_iff_exists.mp used'
      simp only [there, there', Option.getD_some] at same
      subst same
      exact inv.indexed.single s (Finset.mem_range.mp bound) q (Finset.mem_range.mp bound') e there there'

/-- A removal that moves an element from behind: the one that fills the slot stays before the slots still to come, or
    the slot that is freed in the end is among these. -/
theorem missed_of_moved (inv : Inv a' order) (inside : t < a'.size) (here : a'.slots t = some elem)
    (behind : ∀ s < a'.size, t ≤ s → ∀ e, a'.slots s = some e → e ∉ done)
    (count : (seen order done).card ≤ (filled a' t).card) {s e : Nat} (bound : s < a'.size) (later : t < s)
    (there : a'.slots s = some e)
    (way : OpenAddressing.dist a'.size (a'.home e) t < OpenAddressing.dist a'.size (a'.home e) s) :
    Missed (assoc_remove a' t).2 (t + 1) (order.erase elem) (elem :: done) := by
  have homes : Homes a'.size a'.home (Function.update a'.slots t none) := fun e _ => inv.indexed.home_lt e
  have at_home := inv.indexed.home_lt e
  have enough : s ≤ fuel a'.size + t := by
    have : a'.size ≤ fuel a'.size := Nat.le_add_left ..
    omega
  have used (q : Nat) (after : t < q) (up : q ≤ s) : Function.update a'.slots t none q ≠ none := by
    rw [Function.update_of_ne (by omega)]
    rcases Nat.eq_or_lt_of_le up with rfl | before
    · rw [there]
      exact Option.some_ne_none _
    · refine (inv.indexed.reach s bound e there q (by omega) ?_).resolve_right id
      unfold OpenAddressing.dist at way ⊢
      split_ifs at way ⊢ <;> omega
  obtain ⟨fuel', k, z, after, up, there', way', shift⟩ := backshift_first (fuel a'.size) bound
    (by rwa [Function.update_of_ne (by omega)]) (Function.update_self ..) way inside homes t le_rfl later used enough
  rw [Function.update_of_ne (by omega)] at there'
  have homes' : Homes a'.size a'.home (moved (Function.update a'.slots t none) t k z) :=
    fun e _ => inv.indexed.home_lt e
  have slots : (assoc_remove a' t).2.slots =
      backshift a'.size a'.home fuel' (moved (Function.update a'.slots t none) t k z) k k := by
    rw [remove_slots inside here]
    exact shift
  have old {q e' : Nat} (stored : moved (Function.update a'.slots t none) t k z q = some e') :
      q = t ∧ e' = z ∨ q ≠ k ∧ a'.slots q = some e' := by
    rcases moved_some stored with ⟨other, new | ⟨_, before⟩⟩
    · exact Or.inl new
    · exact Or.inr ⟨other, (emptied_some before).2⟩
  have size : (assoc_remove a' t).2.size = a'.size := by rw [remove_slots inside here]; rfl
  by_cases natural : a'.home z ≤ t
  · left
    have other : z ≠ elem := by
      rintro rfl
      have := inv.indexed.single k (by omega) t inside z there' here
      omega
    have near := backshift_nearer (P := fun s e => e = z → a'.home z ≤ s ∧ s ≤ t)
      (fun e _ s bound j _ less placed same => by
        obtain ⟨first, last⟩ := placed same
        have := nearer_low bound first (same ▸ less)
        omega)
      fuel' (by omega) moved_hole homes' (by
        rintro q bound'' e stored rfl
        rcases old stored with ⟨rfl, _⟩ | ⟨other, before⟩
        · exact ⟨natural, le_rfl⟩
        · exact absurd (inv.indexed.single q bound'' k (by omega) e before there') other)
    obtain ⟨_, removed, _, _⟩ := inv_remove inv inside here
    obtain ⟨q, bound', stored⟩ := (removed.indexed.stored z).mpr
      ((inv.listed.nodup.mem_erase_iff).mpr ⟨other, (inv.indexed.stored z).mp ⟨k, by omega, there'⟩⟩)
    have placed := near q (size ▸ bound') z (slots ▸ stored) rfl
    refine ⟨q, bound', by omega, z, stored, ?_, ?_⟩
    · rw [remove_slots inside here]
      exact placed.1
    · rw [List.mem_cons, not_or]
      exact ⟨other, behind k (by omega) (by omega) z there'⟩
  · right
    -- the element was before its home, so that the slot on no way is behind it
    obtain ⟨g, bound', clear⟩ := inv.indexed.clear
    have low := not_lt.mp (clear k (by omega) z there')
    have at_home' := inv.indexed.home_lt z
    have between : k ≤ g := by
      unfold OpenAddressing.dist at way' low
      split_ifs at way' low <;> omega
    obtain ⟨h, freed, first⟩ := remove_filled inv inside here
    obtain ⟨h', _, freed', first'⟩ := backshift_frees fuel' (by omega) moved_hole homes'
    have onward : k ≤ h' := first' g bound' between (by
      intro q bound'' e' stored
      rcases old stored with ⟨rfl, rfl⟩ | ⟨_, before⟩
      · exact not_lt.mpr (way'.le.trans low)
      · exact clear q bound'' e' before)
    have kept : t ∈ filled (assoc_remove a' t).2 (t + 1) := by
      rw [filled, Finset.mem_filter, Option.isSome_iff_ne_none, slots, Ne, freed']
      refine ⟨Finset.self_mem_range_succ t, ?_⟩
      rw [moved_filled (by omega)]
      simp only [reduceCtorEq, and_false, or_false]
      omega
    rw [freed, Finset.mem_erase] at kept
    have behind' : t < h := lt_of_le_of_ne (first g bound' (by omega) clear) kept.1
    refine lt_of_le_of_lt (le_trans (seen_drop inv.listed.nodup) count) ?_
    rw [freed, Finset.erase_eq_of_notMem, filled_succ here]
    · exact Nat.lt_succ_self _
    · rw [filled, Finset.mem_filter, Finset.mem_range]
      omega

/-- The elements of `a` that are left: those not looked at yet and those with a namesake. -/
def kept (a b : Assoc V) (orderA orderB done : List Nat) : List Nat :=
  orderA.filter fun e => decide (e ∉ done) || (namesake b orderB (a.name e)).isSome

/-- The arrays once the slots before `t` have been looked at and no later one has changed. -/
structure Pulling (a b : Assoc V) (orderA orderB : List Nat) (t : Nat) (done : List Nat) (a' b' : Assoc V) : Prop
    extends Looking a b orderA orderB (kept a b orderA orderB done) done a' b' where
  dataA : ∀ e ∈ orderA, (e ∉ done → a'.data e = a.data e) ∧
    (e ∈ done → ∀ f, namesake b orderB (a.name e) = some f → a'.data e = b.data f)
  dataB : ∀ f ∈ orderB, (∀ e ∈ done, ¬ Named b f (a.name e)) → b'.data f = b.data f
  ahead : ∀ s < a.size, t ≤ s → a'.slots s = a.slots s
  visited : ∀ e, e ∈ done ↔ ∃ s < a.size, s < t ∧ a.slots s = some e
  count : (seen (kept a b orderA orderB done) done).card ≤ (filled a' t).card
  clear : ∀ s < t, Clear a b orderB s

theorem Pulling.unseen (invA : Inv a orderA) (pulling : Pulling a b orderA orderB t done a' b') {s : Nat}
    (inside : s < a.size) (later : t ≤ s) (here : a.slots s = some elem) : elem ∉ done := by
  intro seen
  obtain ⟨q, bound, before, there⟩ := (pulling.visited elem).mp seen
  have := invA.indexed.single q bound s inside elem there here
  omega

theorem Pulling.visit (pulling : Pulling a b orderA orderB t done a' b') (inside : t < a.size)
    (here : a.slots t = some elem) (e : Nat) : e ∈ elem :: done ↔ ∃ s < a.size, s < t + 1 ∧ a.slots s = some e := by
  rw [List.mem_cons, pulling.visited]
  constructor
  · rintro (rfl | ⟨s, bound, before, there⟩)
    · exact ⟨t, inside, Nat.lt_succ_self t, here⟩
    · exact ⟨s, bound, by omega, there⟩
  · rintro ⟨s, bound, before, there⟩
    rcases Nat.lt_succ_iff_lt_or_eq.mp before with before | rfl
    · exact Or.inr ⟨s, bound, before, there⟩
    · rw [here] at there
      exact Or.inl (Option.some.inj there).symm

theorem Pulling.skip (pulling : Pulling a b orderA orderB t done a' b') (inside : t < a.size)
    (empty : a.slots t = none) : Pulling a b orderA orderB (t + 1) done a' b' := by
  have at_slot : ∀ e, a.slots t ≠ some e := by simp [empty]
  refine ⟨pulling.toLooking, pulling.dataA, pulling.dataB, fun s bound later => pulling.ahead s bound (by omega),
    fun e => ?_, ?_, fun s before => ?_⟩
  · rw [pulling.visited]
    refine exists_congr fun s => and_congr_right fun _ => and_congr_left fun there => ?_
    have : s ≠ t := fun same => at_slot e (same ▸ there)
    omega
  · rw [filled_skip (by rw [pulling.ahead t inside le_rfl, empty])]
    exact pulling.count
  · rcases Nat.lt_succ_iff_lt_or_eq.mp before with before | rfl
    · exact pulling.clear s before
    · exact fun e here => absurd here (at_slot e)

theorem Pulling.take (invB : Inv b orderB) (pulling : Pulling a b orderA orderB t done a' b') (member : elem ∈ orderA)
    (inside : t < a.size) (here : a.slots t = some elem) {slot other : Nat} (bound : slot < b'.size)
    (there : b'.slots slot = some other) (named : Named b' other (a.name elem)) :
    Pulling a b orderA orderB (t + 1) (elem :: done) { a' with data := Function.update a'.data elem (b'.data other) }
      (assoc_remove { b' with data := Function.update b'.data other none } slot).2 := by
  have looking := pulling.toLooking.take invB member bound there named
  obtain ⟨stored, apart⟩ := mem_left.mp ((pulling.invB.indexed.stored other).mp ⟨slot, bound, there⟩)
  rw [pulling.named] at named
  have same := namesake_of_named invB stored named
  have kept_same : kept a b orderA orderB (elem :: done) = kept a b orderA orderB done := by
    refine List.filter_congr fun e _ => ?_
    by_cases at_hand : e = elem
    · rw [at_hand, same, Option.isSome_some, Bool.or_true, Bool.or_true]
    · simp only [List.mem_cons, at_hand, false_or]
  obtain ⟨_, _, _, entry⟩ := inv_remove (inv_data pulling.invB (Function.update b'.data other none)) bound there
  refine ⟨kept_same ▸ looking, fun e stored => ?_, fun f stored unlike => ?_,
    fun s bound later => pulling.ahead s bound (by omega), pulling.visit inside here, ?_, fun s before => ?_⟩
  · refine ⟨fun new => ?_, fun seen f alike => ?_⟩
    · rw [List.mem_cons, not_or] at new
      exact (Function.update_of_ne new.1 ..).trans ((pulling.dataA e stored).1 new.2)
    · by_cases at_hand : e = elem
      · subst at_hand
        rw [same] at alike
        cases alike
        exact (Function.update_self ..).trans (pulling.dataB other ‹_› apart)
      · exact (Function.update_of_ne at_hand ..).trans
          ((pulling.dataA e stored).2 ((List.mem_cons.mp seen).resolve_left at_hand) f alike)
  · have unlike' : f ≠ other := by
      rintro rfl
      exact unlike elem List.mem_cons_self named
    refine (congrArg Prod.snd (congrFun entry f)).trans ?_
    exact (Function.update_of_ne unlike' ..).trans
      (pulling.dataB f stored fun e seen => unlike e (List.mem_cons_of_mem _ seen))
  · rw [kept_same]
    exact (seen_take.trans (Nat.succ_le_succ pulling.count)).trans
      (filled_succ ((pulling.ahead t inside le_rfl).trans here)).ge
  · rcases Nat.lt_succ_iff_lt_or_eq.mp before with before | rfl
    · exact pulling.clear s before
    · intro e there' alone
      rw [here] at there'
      cases there'
      exact absurd named (alone other stored)

/-- What had the name would have been removed for an element of the same name. -/
theorem Pulling.alone (invA : Inv a orderA) (apart : Apart a b orderA orderB)
    (pulling : Pulling a b orderA orderB t done a' b') (member : elem ∈ orderA) (inside : t < a.size)
    (here : a.slots t = some elem) (absent : Absent b' (left a b orderB done) (a.name elem)) :
    ∀ other ∈ orderB, ¬ Named b other (a.name elem) := by
  intro other stored named
  refine absent other (mem_left.mpr ⟨stored, fun e seen alike => ?_⟩) ((pulling.named other _).mpr named)
  have same := apart e (pulling.known e seen) elem member other stored alike named
  exact pulling.unseen invA inside le_rfl here (same ▸ seen)

/-- An element without a namesake is removed, and those behind it stay where they are. -/
theorem Pulling.drop (invA : Inv a orderA) (pulling : Pulling a b orderA orderB t done a' b')
    (inside : t < a.size) (here : a.slots t = some elem) (alone : ∀ other ∈ orderB, ¬ Named b other (a.name elem))
    (looking : Looking a b orderA orderB ((kept a b orderA orderB done).erase elem) (elem :: done)
      (assoc_remove a' t).2 b') (clear : Clear a b orderB t) :
    Pulling a b orderA orderB (t + 1) (elem :: done) (assoc_remove a' t).2 b' := by
  have none_there : namesake b orderB (a.name elem) = none := by
    rw [namesake, List.find?_eq_none]
    intro other stored hit
    exact alone other stored (beq_iff_eq.mp hit)
  have inside' : t < a'.size := by rw [pulling.size]; exact inside
  have here' : a'.slots t = some elem := (pulling.ahead t inside le_rfl).trans here
  have kept_same : (kept a b orderA orderB done).erase elem = kept a b orderA orderB (elem :: done) := by
    rw [kept, invA.listed.nodup.filter _ |>.erase_eq_filter, List.filter_filter]
    refine List.filter_congr fun e _ => ?_
    by_cases at_hand : e = elem
    · subst at_hand
      simp [none_there]
    · simp [at_hand]
  obtain ⟨_, _, _, entry⟩ := inv_remove pulling.invA inside' here'
  refine ⟨kept_same ▸ looking, fun e stored => ?_, fun f stored unlike =>
    pulling.dataB f stored fun e seen => unlike e (List.mem_cons_of_mem _ seen), fun s bound later => ?_,
    pulling.visit inside here, ?_, fun s before => ?_⟩
  · have same : (assoc_remove a' t).2.data e = a'.data e := congrArg Prod.snd (congrFun entry e)
    refine ⟨fun new => ?_, fun seen f alike => ?_⟩
    · rw [List.mem_cons, not_or] at new
      exact same.trans ((pulling.dataA e stored).1 new.2)
    · have at_hand : e ≠ elem := by
        rintro rfl
        rw [none_there] at alike
        cases alike
      exact same.trans ((pulling.dataA e stored).2 ((List.mem_cons.mp seen).resolve_left at_hand) f alike)
  · rw [remove_slots inside' here']
    refine (backshift_behind _ inside' (Function.update_self ..) (fun e _ => pulling.invA.indexed.home_lt e) ?_
      (by rw [pulling.size]; exact bound) later).trans ?_
    · intro q bound' behind e there
      have there' := (emptied_some there).2
      rw [pulling.size] at bound' ⊢
      rw [pulling.home]
      exact clear elem here alone q bound' behind e ((pulling.ahead q bound' behind.le).symm.trans there')
    · rw [Function.update_of_ne (by omega)]
      exact pulling.ahead s bound (by omega)
  · obtain ⟨h, freed, _⟩ := remove_filled pulling.invA inside' here'
    have most := Finset.pred_card_le_card_erase (a := h) (s := filled a' (t + 1))
    have fewer : (seen ((kept a b orderA orderB done).erase elem) (elem :: done)).card ≤ _ :=
      (seen_drop pulling.invA.listed.nodup).trans pulling.count
    rw [filled_succ here'] at most
    rw [freed, ← kept_same]
    omega
  · rcases Nat.lt_succ_iff_lt_or_eq.mp before with before | rfl
    · exact pulling.clear s before
    · exact clear

theorem pulling_start (invA : Inv a orderA) (invB : Inv b orderB) : Pulling a b orderA orderB 0 [] a b := by
  have all : kept a b orderA orderB [] = orderA := List.filter_eq_self.mpr fun e _ => rfl
  have all' : left a b orderB [] = orderB := List.filter_eq_self.mpr fun f _ => rfl
  refine ⟨⟨⟨rfl, rfl, rfl⟩, ⟨rfl, rfl⟩, all.symm ▸ invA, all'.symm ▸ invB, fun e member => all ▸ member, ?_⟩,
    fun e _ => ⟨fun _ => rfl, fun seen => absurd seen List.not_mem_nil⟩, fun _ _ _ => rfl, fun _ _ _ => rfl, ?_, ?_, ?_⟩
  · exact fun e seen => absurd seen List.not_mem_nil
  · simp
  · simp [seen]
  · exact fun s before => absurd before (Nat.not_lt_zero s)

/-- Once something is passed over, it stays so. -/
theorem pull_loop_missed (invB : Inv b orderB) (n : Nat) :
    ∀ (t : Nat) (order done : List Nat) (a' b' : Assoc V), t + n = a.size →
    Looking a b orderA orderB order done a' b' → Missed a' t order done →
    ∃ order' done', (∃ z ∈ order', z ∉ done') ∧ Looking a b orderA orderB order' done'
      (pull_loop (List.range' t n) a' b').1 (pull_loop (List.range' t n) a' b').2 := by
  induction n with
  | zero =>
    intro t order done a' b' last looking missed
    have : t = a'.size := last.trans looking.size.symm
    subst this
    exact ⟨order, done, missed.end looking.invA, looking⟩
  | succ n ih =>
    intro t order done a' b' last looking missed
    have inside : t < a'.size := by
      rw [looking.size]
      omega
    rw [List.range'_succ, pull_loop]
    cases here : a'.slots t with
    | none => exact ih (t + 1) order done a' b' (by omega) looking (missed.skip here)
    | some elem =>
      have member := looking.sub elem ((looking.invA.indexed.stored elem).mp ⟨t, inside, here⟩)
      dsimp only
      rw [congrFun looking.names.1 elem]
      obtain ⟨_, ⟨rc, other, found⟩ | ⟨rc, absent⟩⟩ := find_slot_cases looking.invB.indexed (a.name elem)
      · rw [if_pos rc, found.here]
        exact ih (t + 1) _ _ _ _ (by omega) (looking.take invB member found.inside found.here found.named)
          (missed.take looking.invA inside here _)
      · rw [if_neg (by rw [rc]; exact Rc.noConfusion)]
        exact ih (t + 1) _ _ _ _ (by omega) (looking.drop inside here absent) (missed.drop looking.invA inside here)

/-- Each slot is looked at as it was before the call, or something is passed over. -/
theorem pull_loop_pulling (invA : Inv a orderA) (invB : Inv b orderB) (apart : Apart a b orderA orderB) (n : Nat) :
    ∀ (t : Nat) (done : List Nat) (a' b' : Assoc V), t + n = a.size → Pulling a b orderA orderB t done a' b' →
    let after := pull_loop (List.range' t n) a' b'
    (∃ done', Pulling a b orderA orderB a.size done' after.1 after.2) ∨
      (∃ slot < a.size, ¬ Clear a b orderB slot) ∧ ∃ order' done', (∃ z ∈ order', z ∉ done') ∧
        Looking a b orderA orderB order' done' after.1 after.2 := by
  induction n with
  | zero =>
    intro t done a' b' last pulling
    exact Or.inl ⟨done, last ▸ pulling⟩
  | succ n ih =>
    intro t done a' b' last pulling
    have inside : t < a.size := by omega
    have same := pulling.ahead t inside le_rfl
    rw [List.range'_succ, pull_loop]
    cases here : a.slots t with
    | none =>
      rw [same, here]
      exact ih (t + 1) done a' b' (by omega) (pulling.skip inside here)
    | some elem =>
      have member := (invA.indexed.stored elem).mp ⟨t, inside, here⟩
      have inside' : t < a'.size := by rw [pulling.size]; exact inside
      rw [same, here]
      dsimp only
      rw [congrFun pulling.names.1 elem]
      obtain ⟨_, ⟨rc, other, found⟩ | ⟨rc, absent⟩⟩ := find_slot_cases pulling.invB.indexed (a.name elem)
      · rw [if_pos rc, found.here]
        exact ih (t + 1) _ _ _ (by omega) (pulling.take invB member inside here found.inside found.here found.named)
      · rw [if_neg (by rw [rc]; exact Rc.noConfusion)]
        have looking := pulling.toLooking.drop inside' (same.trans here) absent
        by_cases clear : Clear a b orderB t
        · exact ih (t + 1) _ _ _ (by omega)
            (pulling.drop invA inside here (pulling.alone invA apart member inside here absent) looking clear)
        · refine Or.inr ⟨⟨t, inside, clear⟩, pull_loop_missed invB n (t + 1) _ _ _ _ (by omega) looking ?_⟩
          rw [Clear] at clear
          push Not at clear
          obtain ⟨elem', here', _, s, bound, later, e, there, way⟩ := clear
          rw [here] at here'
          cases here'
          refine missed_of_moved pulling.invA inside' (same.trans here) ?_ pulling.count
            (by rw [pulling.size]; exact bound) later ((pulling.ahead s bound later.le).trans there)
            (by rw [pulling.size, pulling.home]; exact way)
          intro q bound' after e' there'
          rw [pulling.size] at bound'
          exact pulling.unseen invA bound' after ((pulling.ahead q bound' after).symm.trans there')

theorem Pulling.entries (invA : Inv a orderA) (pulling : Pulling a b orderA orderB a.size done a' b') :
    ((kept a b orderA orderB done).map a'.entry, (left a b orderB done).map b'.entry) =
      pull b.icase (orderA.map a.entry) (orderB.map b.entry) := by
  have seen : ∀ e, e ∈ done ↔ e ∈ orderA := by
    intro e
    rw [pulling.visited, ← invA.indexed.stored]
    exact exists_congr fun s => and_congr_right fun bound => and_iff_right bound
  rw [pull]
  congr 1
  · rw [kept, ← List.filterMap_eq_map, List.filterMap_filter, List.filterMap_map]
    refine List.filterMap_congr fun e stored => ?_
    have found : (orderB.map b.entry).find? (isFor b.icase (a.entry e).1) =
        (namesake b orderB (a.name e)).map b.entry := List.find?_map ..
    simp only [Function.comp_apply, found]
    cases same : namesake b orderB (a.name e) with
    | none =>
      rw [if_neg (by simp [(seen e).mpr stored])]
      rfl
    | some f =>
      rw [if_pos (by simp)]
      show some (_, _) = some (_, _)
      rw [(pulling.dataA e stored).2 ((seen e).mpr stored) f same, pulling.names.1]
      rfl
  · rw [List.filter_map]
    have data : ∀ f ∈ left a b orderB done, b'.entry f = b.entry f := by
      intro f member
      obtain ⟨stored, apart⟩ := mem_left.mp member
      exact Prod.ext (congrFun pulling.others.1 f) (pulling.dataB f stored apart)
    rw [List.map_congr_left data]
    congr 1
    refine List.filter_congr fun f _ => ?_
    rw [Bool.eq_iff_iff, List.all_eq_true, Function.comp, Bool.not_eq_true', ← Bool.not_eq_true, List.any_eq_true]
    constructor
    · rintro apart ⟨entry, member, alike⟩
      obtain ⟨e, stored, rfl⟩ := List.mem_map.mp member
      have := apart e ((seen e).mpr stored)
      rw [bne_iff_ne] at this
      exact this (beq_iff_eq.mp alike).symm
    · intro none_alike e there
      rw [bne_iff_ne]
      intro alike
      exact none_alike ⟨a.entry e, List.mem_map_of_mem ((seen e).mp there), beq_iff_eq.mpr alike.symm⟩

/-- An element that was passed over stays as it was, or its namesake does. -/
theorem Looking.wrong (apart : Apart a b orderA orderB)
    (looking : Looking a b orderA orderB order done a' b') {z : Nat} (member : z ∈ order) (new : z ∉ done)
    (hasA : Has a' (pull b.icase (orderA.map a.entry) (orderB.map b.entry)).1)
    (hasB : Has b' (pull b.icase (orderA.map a.entry) (orderB.map b.entry)).2) : False := by
  obtain ⟨order', invA', sameA⟩ := hasA
  obtain ⟨orderB', invB', sameB⟩ := hasB
  have there : z ∈ order' := (invA'.indexed.stored z).mp ((looking.invA.indexed.stored z).mpr member)
  obtain ⟨entry, listed, found⟩ := List.mem_filterMap.mp ((sameA _).mp (List.mem_map_of_mem there))
  obtain ⟨e, stored, rfl⟩ := List.mem_map.mp listed
  obtain ⟨other, found, both⟩ := Option.map_eq_some_iff.mp found
  obtain ⟨f, storedB, rfl⟩ := List.mem_map.mp (List.mem_of_find?_eq_some found)
  have name : a.name e = a.name z := (congrArg Prod.fst both).trans (congrFun looking.names.1 z)
  have hit := List.find?_some found
  have named : Named b f (a.name z) := name ▸ beq_iff_eq.mp hit
  have memberA := looking.sub z member
  have left_over : f ∈ left a b orderB done := mem_left.mpr ⟨storedB, fun e' seen alike =>
    new (apart e' (looking.known e' seen) z memberA f storedB alike named ▸ seen)⟩
  have there' : f ∈ orderB' := (invB'.indexed.stored f).mp ((looking.invB.indexed.stored f).mpr left_over)
  have gone := (List.mem_filter.mp ((sameB _).mp (List.mem_map_of_mem there'))).2
  rw [Bool.not_eq_true', List.any_eq_false] at gone
  refine gone (a.entry z) (List.mem_map_of_mem memberA) (beq_iff_eq.mpr ?_)
  show fold b.icase (a.name z) = fold b.icase (b'.name f)
  rw [looking.others.1]
  exact named.symm

/-- The entries whose names are in both arrays have the values of the second one, which loses them, just if there is a
    table and no removal moves an element behind it. -/
theorem pull_moves_values (invA : Inv a orderA) (invB : Inv b orderB) (apart : Apart a b orderA orderB) :
    (∃ a' b', mu_assoc_pull a b = some (a', b') ∧ a'.icase = a.icase ∧ b'.icase = b.icase ∧
        Has a' (pull b.icase (orderA.map a.entry) (orderB.map b.entry)).1 ∧
        Has b' (pull b.icase (orderA.map a.entry) (orderB.map b.entry)).2) ↔
      a.tab.isSome ∧ ∀ slot < a.size, Clear a b orderB slot := by
  have loop := pull_loop_pulling invA invB apart a.size 0 [] a b (Nat.zero_add _) (pulling_start invA invB)
  rw [← List.range_eq_range'] at loop
  unfold mu_assoc_pull
  split
  next there =>
    rw [and_iff_right there]
    constructor
    · rintro ⟨a', b', done, _, _, hasA, hasB⟩
      rcases loop with ⟨_, pulling⟩ | ⟨_, order', done', ⟨z, member, new⟩, looking⟩
      · exact pulling.clear
      · rw [Option.some.inj done] at looking
        exact (looking.wrong apart member new hasA hasB).elim
    · intro clear
      rcases loop with ⟨_, pulling⟩ | ⟨⟨slot, inside, moves⟩, _⟩
      · have entries := pulling.entries invA
        exact ⟨_, _, rfl, pulling.names.2.1, pulling.others.2,
          ⟨_, pulling.invA, fun entry => by rw [← entries]⟩, ⟨_, pulling.invB, fun entry => by rw [← entries]⟩⟩
      · exact absurd (clear slot inside) moves
  next missing =>
    simp only [reduceCtorEq, false_and, exists_false, missing]

/-- An array of two names with homes of their own, and one with the first of them. -/
def pair : Assoc Nat :=
  (run [.install (some ⟨[4], by decide⟩) (some 1), .install (some ⟨[5], by decide⟩) (some 2)]
    (mu_assoc_create false)).2

def single : Assoc Nat := (run [.install (some ⟨[4], by decide⟩) (some 7)] (mu_assoc_create false)).2

/-- The value of the name in both is moved, and the other name goes. -/
theorem pull_moves_values_pair :
    ∃ a' b', mu_assoc_pull pair single = some (a', b') ∧ Has a' [(⟨[4], by decide⟩, some 7)] ∧ Has b' [] := by
  obtain ⟨_, orderA, invA, entriesA⟩ := run_refines
    [.install (some ⟨[4], by decide⟩) (some 1), .install (some ⟨[5], by decide⟩) (some 2)] (mu_assoc_create false) []
    (inv_create false) (by decide)
  obtain ⟨_, orderB, invB, entriesB⟩ := run_refines [.install (some ⟨[4], by decide⟩) (some 7)]
    (mu_assoc_create false) [] (inv_create false) (by decide)
  have checked : ∀ slot < 37, ∀ s < 37, ∀ e ∈ pair.slots s,
      ¬ OpenAddressing.dist 37 (pair.home e) slot < OpenAddressing.dist 37 (pair.home e) s := by decide +kernel
  obtain ⟨a', b', done, _, _, hasA, hasB⟩ := (pull_moves_values (a := pair) (b := single) invA invB
    (apart_of_icase rfl invA)).mpr
      ⟨by decide +kernel, fun slot inside _ _ _ s bound _ e there => checked slot inside s bound e there⟩
  refine ⟨a', b', done, ?_, ?_⟩
  · rw [show orderA.map pair.entry = _ from entriesA, show orderB.map single.entry = _ from entriesB] at hasA
    exact hasA
  · rw [show orderA.map pair.entry = _ from entriesA, show orderB.map single.entry = _ from entriesB] at hasB
    exact hasB

/-- Two names of one home, which the other array does not have: with the first removed the second is passed over. An
    array without a table has no result at all. Of two names that are one for the other array one is removed. -/
theorem pull_passes :
    ((mu_assoc_pull (run [.install (some ⟨[1], by decide⟩) (some 1), .install (some ⟨[38], by decide⟩) (some 2)]
        (mu_assoc_create false)).2 (mu_assoc_create false : Assoc Nat)).map fun result =>
          mu_assoc_lookup result.1 (some ⟨[38], by decide⟩)) = some (.ok, some 2) ∧
      (mu_assoc_pull (mu_assoc_create false : Assoc Nat) (mu_assoc_create false)).isNone = true ∧
      ((mu_assoc_pull (run [.install (some ⟨[65], by decide⟩) (some 1), .install (some ⟨[97], by decide⟩) (some 2)]
        (mu_assoc_create false)).2 (run [.install (some ⟨[65], by decide⟩) (some 7)]
          (mu_assoc_create true) : List (Result Nat) × Assoc Nat).2).map fun result =>
          mu_assoc_lookup result.1 (some ⟨[65], by decide⟩)) = some (.noent, none) := by
  decide +kernel
end
end Mailutils.AssocArray

import Mailutils.AssocArray

/-!
The list of the elements of an associative array: its forward and backward links
lead through the same elements (`Listed`). The merge sort works in the links
themselves; it comes to the stable sort of the list (`merge_sort_chain`).
-/
namespace Mailutils.AssocArray
open Mailutils.Linked

section
variable {V : Type*} {assoc : Assoc V} {order : List Nat} {elem : Nat}

/-- The links lead through the elements in both directions. -/
structure Listed (assoc : Assoc V) (order : List Nat) : Prop where
  forward : Chain assoc.next assoc.head order
  backward : Chain assoc.prev assoc.tail order.reverse
  nodup : order.Nodup

theorem Listed.head (listed : Listed assoc order) : assoc.head = order.head? := chain_head listed.forward

theorem Listed.tail (listed : Listed assoc order) : assoc.tail = order.getLast? := by
  rw [chain_head listed.backward, List.head?_reverse]

theorem listed_link (listed : Listed assoc order) (new : elem ∉ order) :
    Listed (assoc_elem_link assoc elem) (order ++ [elem]) := by
  have nodup : (order ++ [elem]).Nodup := by
    rw [List.nodup_append]
    refine ⟨listed.nodup, List.nodup_singleton _, ?_⟩
    rintro a left b right rfl
    exact new (List.mem_singleton.mp right ▸ left)
  refine ⟨?_, ?_, nodup⟩
  · show Chain (put assoc.tail _ _ _).1 (put assoc.tail _ _ _).2 _
    rw [listed.tail]
    refine open_chain (open_of_segment listed.nodup (chain_update new listed.forward)) ?_ ?_
    · exact ⟨rfl, Function.update_self ..⟩
    · intro a left right
      exact new (List.mem_singleton.mp right ▸ left)
  · rw [List.reverse_append]
    refine ⟨rfl, ?_⟩
    show Chain (Function.update assoc.prev elem assoc.tail) (Function.update assoc.prev elem assoc.tail elem) _
    rw [Function.update_self]
    exact chain_update (fun member => new (List.mem_reverse.mp member)) listed.backward

theorem listed_unlink (listed : Listed assoc order) (member : elem ∈ order) :
    Listed (assoc_elem_unlink assoc elem) (order.erase elem) := by
  obtain ⟨front, back, rfl⟩ := List.append_of_mem member
  have nodup := listed.nodup
  have back_apart : elem ∉ back := (List.nodup_cons.mp (List.nodup_append.mp nodup).2.1).1
  have front_apart : elem ∉ front := fun left => (List.nodup_append.mp nodup).2.2 elem left elem List.mem_cons_self rfl
  have erased : (front ++ elem :: back).erase elem = front ++ back := by
    rw [List.erase_append_right _ front_apart, List.erase_cons_head]
  have backward := listed.backward
  rw [List.reverse_append, List.reverse_cons, List.append_assoc, List.singleton_append] at backward
  have reversed : (back.reverse ++ elem :: front.reverse).Nodup := by
    have := List.nodup_reverse.mpr nodup
    rwa [List.reverse_append, List.reverse_cons, List.append_assoc, List.singleton_append] at this
  have next : assoc.next elem = back.head? := chain_link listed.forward
  have prev : assoc.prev elem = front.getLast? := by
    rw [chain_link backward, List.head?_reverse]
  -- the first of the two links that are set is not the element's own
  have kept : (put (assoc.prev elem) (assoc.next elem) assoc.next assoc.head).1 elem = assoc.next elem := by
    refine put_apart fun t place => ?_
    rintro rfl
    rw [prev] at place
    exact front_apart (List.mem_of_getLast? place)
  rw [erased]
  refine ⟨?_, ?_, ?_⟩
  · show Chain (Function.update _ elem none) (put (assoc.prev elem) (assoc.next elem) assoc.next assoc.head).2 _
    refine chain_update ?_ ?_
    · rw [List.mem_append]
      exact not_or.mpr ⟨front_apart, back_apart⟩
    · rw [prev]
      exact chain_remove nodup listed.forward
  · let after := (put (assoc.prev elem) (assoc.next elem) assoc.next assoc.head).1 elem
    show Chain (Function.update (put after (assoc.prev elem) assoc.prev assoc.tail).1 elem none)
      (put after (assoc.prev elem) assoc.prev assoc.tail).2 _
    rw [show after = assoc.next elem from kept, next, List.reverse_append]
    refine chain_update ?_ ?_
    · rw [List.mem_append, List.mem_reverse, List.mem_reverse]
      exact not_or.mpr ⟨back_apart, front_apart⟩
    · rw [← List.getLast?_reverse]
      exact chain_remove reversed backward
  · rw [← erased]
    exact nodup.erase elem

section
variable {next : Nat → Option Nat} (le : Nat → Nat → Bool)

private theorem count_chain : ∀ {order : List Nat} {fuel : Nat} {p : Option Nat}, Chain next p order → order.length ≤ fuel →
    count next fuel p = order.length := by
  intro order
  induction order with
  | nil =>
    intro fuel p chain _
    rw [chain_nil] at chain
    subst chain
    cases fuel with
    | zero => rfl
    | succ fuel => rfl
  | cons x xs ih =>
    rintro fuel p ⟨rfl, chain⟩ enough
    cases fuel with
    | zero => simp at enough
    | succ fuel =>
      rw [count, ih chain (Nat.le_of_succ_le_succ enough), List.length_cons]

private theorem advance_segment : ∀ {front : List Nat} {p : Option Nat} {x : Nat}, Segment next p front (some x) →
    advance next front.length p = some x := by
  intro front
  induction front with
  | nil => exact fun seg => seg
  | cons y front ih =>
    rintro p x ⟨rfl, seg⟩
    rw [List.length_cons, advance, Option.bind_some]
    exact ih seg

/-- The links of other elements are left alone. -/
def Frame (next next' : Nat → Option Nat) (order : List Nat) : Prop := ∀ x ∉ order, next' x = next x

/-- What a part of the sort makes of the links: a chain of some elements. -/
structure Relinked (next : Nat → Option Nat) (elems order : List Nat) (result : (Nat → Option Nat) × Option Nat) :
    Prop where
  chain : Chain result.1 result.2 order
  frame : Frame next result.1 elems

theorem put_relinked {place start q : Option Nat} {done rest order : List Nat} (opened : Open place next start done)
    (chain : Chain next q rest) (apart : ∀ x ∈ done, x ∉ rest) (same : done ++ rest = order) (elems : List Nat)
    (among : ∀ x ∈ done, x ∈ elems) : Relinked next elems order (put place q next start) := by
  refine ⟨same ▸ open_chain opened chain apart, fun x other => put_apart fun t there => ?_⟩
  rintro rfl
  exact other (among x (List.mem_of_getLast? (by rw [← opened.1, there])))

theorem put_step {place start : Option Nat} {done rest others : List Nat} {x : Nat}
    (opened : Open place next start done) (nodup : (done ++ (x :: rest) ++ others).Nodup) :
    let linked := put place (some x) next start
    Open (some x) linked.1 linked.2 (done ++ [x]) ∧ (∀ y ∉ done, linked.1 y = next y) := by
  have apart : x ∉ done := by
    intro member
    rw [List.append_assoc, List.nodup_append] at nodup
    exact nodup.2.2 x member x (by simp) rfl
  refine ⟨open_snoc opened apart, fun y other => put_apart fun t there => ?_⟩
  rintro rfl
  exact other (List.mem_of_getLast? (by rw [← opened.1, there]))

theorem merge_chain (fuel : Nat) : ∀ (next : Nat → Option Nat) (lefts rights done : List Nat)
    (left right tailptr head : Option Nat), Open tailptr next head done → Chain next left lefts →
    Chain next right rights → (done ++ lefts ++ rights).Nodup → lefts.length + rights.length ≤ fuel →
    Relinked next (done ++ lefts ++ rights) (done ++ lefts.merge rights le)
      (merge le fuel next left right tailptr head) := by
  induction fuel with
  | zero =>
    intro next lefts rights done left right tailptr head opened lchain rchain nodup enough
    have lnil : lefts = [] := List.eq_nil_of_length_eq_zero (by omega)
    have rnil : rights = [] := List.eq_nil_of_length_eq_zero (by omega)
    subst lnil rnil
    rw [chain_nil] at lchain rchain
    subst lchain rchain
    rw [merge]
    · exact put_relinked opened (chain_nil.mpr rfl) (by simp) (by simp) _ (by simp)
    · simp
  | succ fuel ih =>
    intro next lefts rights done left right tailptr head opened lchain rchain nodup enough
    have apart := List.nodup_append.mp nodup
    cases lefts with
    | nil =>
      rw [chain_nil] at lchain
      subst lchain
      rw [merge]
      · rw [List.append_nil] at apart
        exact put_relinked opened rchain (fun x left right => apart.2.2 x left x right rfl) (by simp) _
          (fun x member => by simp [member])
      · simp
    | cons l lefts =>
      obtain ⟨rfl, lrest⟩ := lchain
      cases rights with
      | nil =>
        rw [chain_nil] at rchain
        subst rchain
        rw [merge]
        · rw [List.append_nil, List.nodup_append] at nodup
          exact put_relinked opened (chain_cons.mpr ⟨rfl, lrest⟩) (fun x left right => nodup.2.2 x left x right rfl) (by simp) _
            (fun x member => by simp [member])
        · simp
      | cons r rights =>
        obtain ⟨rfl, rrest⟩ := rchain
        rw [merge, List.cons_merge_cons]
        simp only [List.length_cons] at enough
        split
        next first =>
          obtain ⟨opened', frame⟩ := put_step opened nodup
          have elems : done ++ [l] ++ lefts ++ r :: rights = done ++ l :: lefts ++ r :: rights := by simp
          rw [← elems] at nodup ⊢
          have outside : ∀ y ∈ lefts ++ r :: rights, y ∉ done := by
            intro y member there
            rw [List.append_assoc, List.append_assoc, List.nodup_append] at nodup
            exact nodup.2.2 y there y (by simp only [List.mem_append] at member ⊢; exact Or.inr member) rfl
          obtain ⟨chain, frame'⟩ := ih _ lefts (r :: rights) (done ++ [l]) _ (some r) (some l) _ opened'
            (chain_congr (fun y member => (frame y (outside y (List.mem_append_left _ member))).symm) lrest)
            (chain_congr (fun y member => (frame y (outside y (List.mem_append_right _ member))).symm)
              (show Chain next (some r) (r :: rights) from ⟨rfl, rrest⟩))
            nodup (by simp only [List.length_cons]; omega)
          refine ⟨?_, fun x other => (frame' x other).trans (frame x fun member => other (by simp [member]))⟩
          rwa [List.append_assoc, List.singleton_append] at chain
        next second =>
          have moved : (done ++ (r :: rights) ++ (l :: lefts)).Nodup :=
            (List.Perm.nodup_iff (by
              rw [List.append_assoc, List.append_assoc]
              exact List.perm_append_comm.append_left done)).mp nodup
          obtain ⟨opened', frame⟩ := put_step opened moved
          have elems : (done ++ [r] ++ l :: lefts ++ rights).Perm (done ++ l :: lefts ++ r :: rights) := by
            rw [List.append_assoc, List.append_assoc, List.append_assoc]
            refine List.Perm.append_left done ?_
            exact (@List.perm_middle _ r (l :: lefts) rights).symm
          have nodup' := elems.nodup_iff.mpr nodup
          have outside : ∀ y ∈ l :: lefts ++ rights, y ∉ done := by
            intro y member there
            rw [List.append_assoc, List.append_assoc, List.nodup_append] at nodup'
            exact nodup'.2.2 y there y (by simp only [List.mem_append] at member ⊢; exact Or.inr member) rfl
          obtain ⟨chain, frame'⟩ := ih _ (l :: lefts) rights (done ++ [r]) (some l) _ (some r) _ opened'
            (chain_congr (fun y member => (frame y (outside y (List.mem_append_left _ member))).symm)
              (show Chain next (some l) (l :: lefts) from ⟨rfl, lrest⟩))
            (chain_congr (fun y member => (frame y (outside y (List.mem_append_right _ member))).symm) rrest)
            nodup' (by simp only [List.length_cons]; omega)
          refine ⟨?_, fun x other => ?_⟩
          · rwa [List.append_assoc, List.singleton_append] at chain
          · exact (frame' x fun member => other (elems.mem_iff.mp member)).trans
              (frame x fun member => other (by simp [member]))

theorem mergeSort_halves {order : List Nat} (long : 2 ≤ order.length) :
    order.mergeSort le = ((order.take ((order.length + 1) / 2)).mergeSort le).merge
      ((order.drop ((order.length + 1) / 2)).mergeSort le) le := by
  match order, long with
  | a :: b :: rest, _ =>
    rw [List.mergeSort]
    simp

theorem mergeSort_pair (a b : Nat) : [a, b].mergeSort le = if le a b then [a, b] else [b, a] := by
  rw [mergeSort_halves le (by simp)]
  simp [List.cons_merge_cons]

theorem merge_sort_chain (fuel : Nat) : ∀ (next : Nat → Option Nat) (order : List Nat) (list : Option Nat),
    Chain next list order → order.Nodup → order.length ≤ fuel →
    Relinked next order (order.mergeSort le) (merge_sort le fuel next list order.length) := by
  induction fuel with
  | zero =>
    intro next order list chain _ enough
    have empty : order = [] := List.eq_nil_of_length_eq_zero (by omega)
    subst empty
    rw [merge_sort, List.mergeSort_nil]
    exact ⟨chain, fun _ _ => rfl⟩
  | succ fuel ih =>
    intro next order list chain nodup enough
    unfold merge_sort
    split
    next short =>
      have same : order.mergeSort le = order := by
        match order, short with
        | [], _ => exact List.mergeSort_nil
        | [x], _ => exact List.mergeSort_singleton x
      rw [same]
      exact ⟨chain, fun _ _ => rfl⟩
    next long =>
      split
      next two =>
        obtain ⟨a, b, rfl⟩ := List.length_eq_two.mp two
        obtain ⟨rfl, link, last⟩ := chain
        rw [mergeSort_pair le, Option.bind_some, link]
        dsimp only
        have other : a ≠ b := by
          intro same
          simp [same] at nodup
        split
        next first => exact ⟨⟨rfl, link, last⟩, fun _ _ => rfl⟩
        next second =>
          refine ⟨⟨rfl, ?_, Function.update_self ..⟩, fun x outside => ?_⟩
          · dsimp only
            rw [Function.update_of_ne other.symm, Function.update_self]
          · simp only [List.mem_cons, List.not_mem_nil, or_false, not_or] at outside
            dsimp only
            rw [Function.update_of_ne outside.1, Function.update_of_ne outside.2]
      next more =>
        -- the last element of the first half
        have half : 0 < (order.take ((order.length + 1) / 2)).length := by
          rw [List.length_take]
          omega
        obtain ⟨front, elt, split_at⟩ : ∃ front elt, order.take ((order.length + 1) / 2) = front ++ [elt] := by
          rcases List.eq_nil_or_concat (order.take ((order.length + 1) / 2)) with none | ⟨front, elt, same⟩
          · rw [none] at half
            exact absurd half (Nat.lt_irrefl 0)
          · exact ⟨front, elt, by rw [same, List.concat_eq_append]⟩
        have lengths : front.length = (order.length + 1) / 2 - 1 := by
          have := congrArg List.length split_at
          rw [List.length_take, List.length_append, List.length_singleton] at this
          omega
        generalize back_def : order.drop ((order.length + 1) / 2) = back
        have whole : order = front ++ [elt] ++ back := by
          rw [← split_at, ← back_def, List.take_append_drop]
        have left_len : (front ++ [elt]).length = (order.length + 1) / 2 := by
          rw [List.length_append, List.length_singleton, lengths]
          omega
        have right_len : back.length = order.length / 2 := by
          rw [← back_def, List.length_drop]
          omega
        rw [mergeSort_halves le (by omega), split_at, back_def]
        have chain' := chain
        rw [whole, chain_append] at chain'
        obtain ⟨q, before, after⟩ := chain'
        rw [segment_append] at before
        obtain ⟨r, front_seg, rfl, link⟩ := before
        rw [segment_nil] at link
        dsimp only
        rw [← lengths, advance_segment front_seg]
        dsimp only
        rw [whole] at nodup
        have apart := List.nodup_append.mp nodup
        have elt_front : elt ∉ front := fun member =>
          (List.nodup_append.mp apart.1).2.2 elt member elt (List.mem_singleton_self _) rfl
        have elt_back : elt ∉ back := fun member => apart.2.2 elt (by simp) elt member rfl
        -- each half is sorted, and the links of the other are left alone
        have sorted_left := ih (Function.update next elt none) (front ++ [elt]) list
          (segment_set_last elt_front front_seg) apart.1 (by omega)
        rw [left_len] at sorted_left
        generalize merge_sort le fuel (Function.update next elt none) list ((order.length + 1) / 2) = left_result
          at sorted_left
        obtain ⟨left_chain, left_frame⟩ := sorted_left
        have right_chain : Chain left_result.1 (next elt) back := by
          rw [link]
          refine chain_congr (fun x member => (left_frame x fun left => ?_).symm) (chain_update elt_back after)
          exact apart.2.2 x left x member rfl
        have sorted_right := ih left_result.1 back (next elt) right_chain apart.2.1 (by omega)
        rw [right_len] at sorted_right
        generalize merge_sort le fuel left_result.1 (next elt) (order.length / 2) = right_result at sorted_right
        obtain ⟨right_chain', right_frame⟩ := sorted_right
        have left_chain' : Chain right_result.1 left_result.2 ((front ++ [elt]).mergeSort le) := by
          refine chain_congr (fun x member => (right_frame x fun right => ?_).symm) left_chain
          exact apart.2.2 x (List.mem_mergeSort.mp member) x right rfl
        have perm : ((front ++ [elt]).mergeSort le ++ back.mergeSort le).Perm (front ++ [elt] ++ back) :=
          (List.mergeSort_perm _ le).append (List.mergeSort_perm _ le)
        obtain ⟨merged, frame⟩ := merge_chain le order.length right_result.1 _ _ [] _ _ none none
          (open_nil _ _) left_chain' right_chain' (perm.nodup_iff.mpr nodup) (by
            rw [List.length_mergeSort, List.length_mergeSort]
            omega)
        refine ⟨merged, fun x outside => ?_⟩
        rw [whole] at outside
        have not_left : x ∉ front ++ [elt] := fun member => outside (List.mem_append_left _ member)
        have not_right : x ∉ back := fun member => outside (List.mem_append_right _ member)
        have not_elt : x ≠ elt := by
          rintro rfl
          exact not_left (by simp)
        rw [frame x fun member => outside (perm.mem_iff.mp member), right_frame x not_right, left_frame x not_left,
          Function.update_of_ne not_elt]

theorem relink_chain (fuel : Nat) : ∀ (order done : List Nat) (prev : Nat → Option Nat) (last p : Option Nat),
    Chain next p order → Chain prev last done → (order ++ done).Nodup → order.length ≤ fuel →
    Chain (relink next fuel prev last p).1 (relink next fuel prev last p).2 (order.reverse ++ done) := by
  induction fuel with
  | zero =>
    intro order done prev last p chain back _ enough
    have empty : order = [] := List.eq_nil_of_length_eq_zero (by omega)
    subst empty
    rw [relink]
    · exact back
    · simp
  | succ fuel ih =>
    intro order done prev last p chain back nodup enough
    cases order with
    | nil =>
      rw [chain_nil] at chain
      subst chain
      rw [relink]
      · exact back
      · simp
    | cons x order =>
      obtain ⟨rfl, rest⟩ := chain
      rw [List.cons_append, List.nodup_cons, List.mem_append, not_or] at nodup
      rw [relink, List.reverse_cons, List.append_assoc, List.singleton_append]
      refine ih order (x :: done) _ _ _ rest ⟨rfl, ?_⟩ ?_ (Nat.le_of_succ_le_succ enough)
      · rw [Function.update_self]
        exact chain_update nodup.1.2 back
      · refine (List.perm_middle.nodup_iff).mpr ?_
        rw [List.nodup_cons, List.mem_append]
        exact ⟨not_or.mpr nodup.1, nodup.2⟩
end

/-- The order after the elements have been sorted. -/
def sorted (assoc : Assoc V) (cmp : Option (Name → Option V → Name → Option V → Int)) (order : List Nat) : List Nat :=
  match cmp with
  | none => order
  | some cmp =>
    order.mergeSort fun a b => decide (cmp (assoc.name a) (assoc.data a) (assoc.name b) (assoc.data b) ≤ 0)

theorem sorted_perm (assoc : Assoc V) (cmp : Option (Name → Option V → Name → Option V → Int)) (order : List Nat) :
    (sorted assoc cmp order).Perm order := by
  cases cmp with
  | none => exact List.Perm.refl _
  | some cmp => exact List.mergeSort_perm ..

theorem listed_sort (listed : Listed assoc order) (enough : order.length ≤ assoc.brk)
    (cmp : Option (Name → Option V → Name → Option V → Int)) :
    Listed (mu_assoc_sort_r assoc cmp).2 (sorted assoc cmp order) := by
  cases cmp with
  | none => exact listed
  | some cmp =>
    have length := count_chain listed.forward enough
    obtain ⟨chain, _⟩ := merge_sort_chain
      (fun a b => decide (cmp (assoc.name a) (assoc.data a) (assoc.name b) (assoc.data b) ≤ 0))
      order.length assoc.next order assoc.head listed.forward listed.nodup le_rfl
    have nodup := (sorted_perm assoc (some cmp) order).nodup_iff.mpr listed.nodup
    refine ⟨?_, ?_, nodup⟩
    · simp only [mu_assoc_sort_r, length]
      exact chain
    · simp only [mu_assoc_sort_r, length]
      have back := relink_chain order.length (sorted assoc (some cmp) order) [] assoc.prev none _ chain rfl
        (by rwa [List.append_nil]) (by rw [(sorted_perm assoc (some cmp) order).length_eq])
      rwa [List.append_nil] at back
end
end Mailutils.AssocArray

import Mathlib.Data.List.Basic
import Mathlib.Data.List.GetD
import Mathlib.Data.List.Pairwise
import Mathlib.Data.List.Perm.Basic

/-!
`mu_list_sort`: a quicksort of a list around its middle element, with its own case
for two elements. Whatever the comparator answers, the outcome is a permutation;
for a comparator that is an order it is sorted.
-/
namespace Mailutils.ListSort

section
variable {α : Type*} (cmp : α → α → Int)

/-- `_list_qsort`; a sublist is shorter than its list, so the recursion is bounded
    by the length. -/
def list_qsort : Nat → List α → List α
  | 0, list => list
  | fuel + 1, list =>
    match list with
    | [] => []
    | [a] => [a]
    | [a, b] => if cmp b a < 0 then [b, a] else [a, b]
    | a :: b :: c :: rest =>
      let list := a :: b :: c :: rest
      let n := list.length / 2
      let middle := list.getD n a
      let others := list.eraseIdx n
      list_qsort fuel (others.filter fun cur => ¬ cmp middle cur < 0) ++
        middle :: list_qsort fuel (others.filter fun cur => cmp middle cur < 0)

def mu_list_sort (list : List α) : List α := list_qsort cmp list.length list

private theorem partition_perm (list : List α) (n : Nat) (inside : n < list.length) (a : α) (high : α → Bool) :
    ((list.eraseIdx n).filter (fun cur => ¬ high cur) ++ list.getD n a :: (list.eraseIdx n).filter high).Perm list := by
  have split := (List.filter_append_perm high (list.eraseIdx n)).symm
  have whole : (list[n] :: list.eraseIdx n).Perm list := List.getElem_cons_eraseIdx_perm inside
  rw [List.getD_eq_getElem _ _ inside]
  refine List.perm_middle.trans (.trans (.cons _ ?_) whole)
  refine List.perm_append_comm.trans ?_
  simpa using split.symm

theorem qsort_perm (fuel : Nat) (list : List α) : (list_qsort cmp fuel list).Perm list := by
  induction fuel generalizing list with
  | zero => exact .refl _
  | succ fuel ih =>
    match list with
    | [] => exact .refl _
    | [a] => exact .refl _
    | [a, b] =>
      simp only [list_qsort]
      split
      · exact .swap a b []
      · exact .refl _
    | a :: b :: c :: rest =>
      have inside : (a :: b :: c :: rest).length / 2 < (a :: b :: c :: rest).length := by
        simp only [List.length_cons]
        omega
      have whole := partition_perm _ _ inside a fun cur =>
        decide (cmp ((a :: b :: c :: rest).getD ((a :: b :: c :: rest).length / 2) a) cur < 0)
      simp only [decide_eq_true_eq] at whole
      simp only [list_qsort]
      exact ((ih _).append ((ih _).cons _)).trans whole

theorem mu_list_sort_perm (list : List α) : (mu_list_sort cmp list).Perm list := qsort_perm cmp _ list

/-- A comparator that orders the elements. -/
structure Orders : Prop where
  asymm : ∀ a b, cmp a b < 0 → ¬ cmp b a < 0
  trans : ∀ a b c, ¬ cmp b a < 0 → ¬ cmp c b < 0 → ¬ cmp c a < 0

/-- The elements of a list in order. -/
def Sorted (list : List α) : Prop := list.Pairwise fun a b => ¬ cmp b a < 0

variable {cmp}

theorem qsort_sorted (orders : Orders cmp) (fuel : Nat) (list : List α) (enough : list.length ≤ fuel) :
    Sorted cmp (list_qsort cmp fuel list) := by
  induction fuel generalizing list with
  | zero => simp [Sorted, list_qsort, List.eq_nil_of_length_eq_zero (Nat.le_zero.mp enough)]
  | succ fuel ih =>
    match list with
    | [] => simp [Sorted, list_qsort]
    | [a] => simp [Sorted, list_qsort]
    | [a, b] =>
      simp only [list_qsort, Sorted]
      split
      · next less => simpa using orders.asymm b a less
      · next more => simpa using more
    | a :: b :: c :: rest =>
      have inside : (a :: b :: c :: rest).length / 2 < (a :: b :: c :: rest).length := by
        simp only [List.length_cons]
        omega
      have shorter : ((a :: b :: c :: rest).eraseIdx ((a :: b :: c :: rest).length / 2)).length ≤ fuel := by
        rw [List.length_eraseIdx_of_lt inside]
        simp only [List.length_cons] at enough ⊢
        omega
      simp only [list_qsort]
      generalize (a :: b :: c :: rest).getD ((a :: b :: c :: rest).length / 2) a = middle
      refine List.pairwise_append.mpr ⟨ih _ (Nat.le_trans (List.length_filter_le _ _) shorter),
        List.pairwise_cons.mpr ⟨?_, ih _ (Nat.le_trans (List.length_filter_le _ _) shorter)⟩, ?_⟩
      · intro y high
        have high : cmp middle y < 0 := by simpa using (List.mem_filter.mp ((qsort_perm cmp _ _).mem_iff.mp high)).2
        exact orders.asymm _ _ high
      · intro x low y high
        have low : ¬ cmp middle x < 0 := by simpa using (List.mem_filter.mp ((qsort_perm cmp _ _).mem_iff.mp low)).2
        rcases List.mem_cons.mp high with rfl | high
        · exact low
        · have high : cmp middle y < 0 := by simpa using (List.mem_filter.mp ((qsort_perm cmp _ _).mem_iff.mp high)).2
          exact orders.trans _ _ _ low (orders.asymm _ _ high)

theorem mu_list_sort_sorted (orders : Orders cmp) (list : List α) : Sorted cmp (mu_list_sort cmp list) :=
  qsort_sorted orders _ list (Nat.le_refl _)

end
end Mailutils.ListSort

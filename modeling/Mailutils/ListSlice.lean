import Mathlib.Data.List.Sort
import Mathlib.Data.List.GetD

/-!
Slices of lists (`libmailutils/list/slice.c`, with `gmap.c` and `map.c`). One pass over the list goes along with the
sorted positions, two by two; an item stays if its index is within the two positions at hand, and positions that the
index has passed are left behind. This selects the items within any of the intervals (`mu_list_slice_selects`).
-/
namespace Mailutils.ListSlice

section
variable {α σ : Type*}

/-- The loop of `mu_list_gmap`, with the items in the buffer. A mapper says whether to go on. -/
def gmap_loop (map : List α → σ → Bool × σ) (nelem : Nat) : List α → List α → σ → Bool × List α × σ
  | [], buf, data => (true, buf, data)
  | item :: rest, buf, data =>
    if buf.length + 1 = nelem then
      let (go_on, data) := map (buf ++ [item]) data
      if go_on then gmap_loop map nelem rest [] data else (false, [], data)
    else gmap_loop map nelem rest (buf ++ [item]) data

def mu_list_gmap (map : List α → σ → Bool × σ) (nelem : Nat) (list : List α) (data : σ) : σ :=
  let (go_on, buf, data) := gmap_loop map nelem list [] data
  if go_on ∧ 0 < buf.length ∧ buf.length < nelem then (map buf data).2 else data

/-- `MU_LIST_MAP_OK`, `MU_LIST_MAP_SKIP`, and this with `MU_LIST_MAP_STOP`. -/
inductive Verdict
  | ok | skip | stop
  deriving DecidableEq, Repr

/-- `_list_mapper`: the list is made at the first call. -/
def list_mapper (map : List α → σ → Verdict × σ) (itmv : List α) (clos : Option (List α) × σ) :
    Bool × Option (List α) × σ :=
  let list := clos.1.getD []
  let (rc, data) := map itmv clos.2
  (rc ≠ .stop, some (if rc = .ok then list ++ itmv.take 1 else list), data)

/-- There is no list when the mapper was not called. -/
def mu_list_map (list : List α) (map : List α → σ → Verdict × σ) (data : σ) (nelem : Nat) : Option (List α) :=
  (mu_list_gmap (list_mapper map) nelem list (none, data)).1

/-- The loop of `_slice_mapper`, with the index of the first position of the two. -/
def slice_loop (posv : List Nat) (cur : Nat) : Nat → Nat → Verdict × Nat
  | 0, idx => (.skip, idx)
  | fuel + 1, idx =>
    if cur < posv.getD idx 0 then (.skip, idx)
    else if idx + 1 < posv.length ∧ cur > posv.getD (idx + 1) 0 then
      if idx + 2 ≥ posv.length then (.stop, idx + 2) else slice_loop posv cur fuel (idx + 2)
    else (.ok, idx)

/-- `cur` and `idx` of the `slice_info`. -/
def _slice_mapper (posv : List Nat) (_ : List α) (si : Nat × Nat) : Verdict × Nat × Nat :=
  let (rc, idx) := slice_loop posv si.1 (posv.length + 1) si.2
  (rc, si.1 + 1, idx)

/-- `qsort` puts the positions in order. -/
def mu_list_slice (list : List α) (posv : List Nat) : Option (List α) :=
  mu_list_map list (_slice_mapper (posv.insertionSort (· ≤ ·))) (0, 0) 1

/-- The index is within the positions `2 k` and `2 k + 1`; the last interval has no end if there is no such position. -/
def Within (q : List Nat) (i : Nat) : Prop :=
  ∃ k < q.length, 2 * k < q.length ∧ q.getD (2 * k) 0 ≤ i ∧ (2 * k + 1 < q.length → i ≤ q.getD (2 * k + 1) 0)

instance (q : List Nat) (i : Nat) : Decidable (Within q i) := inferInstanceAs (Decidable (∃ k < q.length, _))

variable {q : List Nat} {cur : Nat}

/-- The intervals before the `j`-th end before the index. -/
def Behind (q : List Nat) (j cur : Nat) : Prop := ∀ k < j, 2 * k + 1 < q.length ∧ q.getD (2 * k + 1) 0 < cur

private theorem getD_le (sorted : q.Pairwise (· ≤ ·)) {m n : Nat} (order : m ≤ n) (bound : n < q.length) :
    q.getD m 0 ≤ q.getD n 0 := by
  rw [List.getD_eq_getElem _ _ bound, List.getD_eq_getElem _ _ (order.trans_lt bound)]
  rcases Nat.eq_or_lt_of_le order with rfl | less
  · exact le_rfl
  · exact List.pairwise_iff_getElem.mp sorted m n _ _ less

/-- What the mapper decides for an index, and where it stands then. -/
def Decides (q : List Nat) (cur : Nat) : Verdict × Nat → Prop
  | (.ok, idx) => ∃ j, idx = 2 * j ∧ 2 * j < q.length ∧ Behind q j cur ∧ Within q cur
  | (.skip, idx) => ∃ j, idx = 2 * j ∧ 2 * j < q.length ∧ Behind q j cur ∧ ¬ Within q cur
  | (.stop, _) => ∀ i ≥ cur, ¬ Within q i

theorem slice_loop_decides (sorted : q.Pairwise (· ≤ ·)) (cur fuel : Nat) : ∀ j, 2 * j < q.length → Behind q j cur →
    q.length < fuel + 2 * j → Decides q cur (slice_loop q cur fuel (2 * j)) := by
  induction fuel with
  | zero =>
    intro j inside _ enough
    omega
  | succ fuel ih =>
    intro j inside behind enough
    rw [slice_loop]
    split
    next before =>
      refine ⟨j, rfl, inside, behind, ?_⟩
      rintro ⟨k, _, bound, from_k, to_k⟩
      rcases Nat.lt_or_ge k j with earlier | later
      · have := behind k earlier
        have := to_k this.1
        omega
      · have := getD_le sorted (show 2 * j ≤ 2 * k by omega) bound
        omega
    next reached =>
      split
      next beyond =>
        have behind' : Behind q (j + 1) cur := by
          intro k earlier
          rcases Nat.lt_succ_iff_lt_or_eq.mp earlier with earlier | rfl
          · exact behind k earlier
          · exact beyond
        split
        next last =>
          rintro i later ⟨k, _, bound, _, to_k⟩
          have := behind' k (by omega)
          have := to_k this.1
          omega
        next more => exact ih (j + 1) (by omega) behind' (by omega)
      next within =>
        refine ⟨j, rfl, inside, behind, j, by omega, inside, by omega, fun bound => ?_⟩
        by_contra beyond
        exact within ⟨bound, by omega⟩

/-- The items whose indices are within an interval, the first one with the index `cur`. -/
def selected (q : List Nat) (cur : Nat) (list : List α) : List α :=
  ((list.zipIdx cur).filter fun entry => decide (Within q entry.2)).map Prod.fst

theorem selected_cons (q : List Nat) (cur : Nat) (item : α) (list : List α) :
    selected q cur (item :: list) = (if Within q cur then [item] else []) ++ selected q (cur + 1) list := by
  unfold selected
  rw [List.zipIdx_cons, List.filter_cons]
  simp only [decide_eq_true_eq]
  split
  next => rfl
  next => rfl

theorem selected_none {list : List α} : ∀ {cur : Nat}, (∀ i ≥ cur, ¬ Within q i) → selected q cur list = [] := by
  induction list with
  | nil => exact fun _ => rfl
  | cons item list ih =>
    intro cur outside
    rw [selected_cons, if_neg (outside cur le_rfl), ih fun i later => outside i (Nat.le_of_succ_le later)]
    rfl

theorem gmap_selects (sorted : q.Pairwise (· ≤ ·)) (list : List α) : ∀ (cur j : Nat) (dest : List α),
    2 * j < q.length → Behind q j cur →
    (gmap_loop (list_mapper (_slice_mapper q)) 1 list [] (some dest, cur, 2 * j)).2.1 = [] ∧
      (gmap_loop (list_mapper (_slice_mapper q)) 1 list [] (some dest, cur, 2 * j)).2.2.1 =
        some (dest ++ selected q cur list) := by
  induction list with
  | nil =>
    intro cur j dest _ _
    exact ⟨rfl, by rw [selected, List.zipIdx_nil, List.filter_nil, List.map_nil, List.append_nil]; rfl⟩
  | cons item list ih =>
    intro cur j dest inside behind
    have decides := slice_loop_decides sorted cur (q.length + 1) j inside behind (by omega)
    have onward : ∀ {j}, Behind q j cur → Behind q j (cur + 1) := fun behind k earlier =>
      ⟨(behind k earlier).1, Nat.lt_succ_of_lt (behind k earlier).2⟩
    rcases verdict : slice_loop q cur (q.length + 1) (2 * j) with ⟨rc, idx⟩
    rw [verdict] at decides
    have mapped : list_mapper (_slice_mapper q) ([] ++ [item]) (some dest, cur, 2 * j) =
        (decide (rc ≠ .stop), some (if rc = .ok then dest ++ [item] else dest), cur + 1, idx) := by
      simp only [list_mapper, _slice_mapper, verdict]
      rfl
    rw [gmap_loop, if_pos (show ([] : List α).length + 1 = 1 from rfl), mapped, selected_cons]
    cases rc with
    | ok =>
      obtain ⟨j', rfl, inside', behind', within⟩ := decides
      have rest := ih (cur + 1) j' (dest ++ [item]) inside' (onward behind')
      rw [List.append_assoc] at rest
      rw [if_pos within]
      exact rest
    | skip =>
      obtain ⟨j', rfl, inside', behind', outside⟩ := decides
      rw [if_neg outside]
      exact ih (cur + 1) j' dest inside' (onward behind')
    | stop =>
      rw [if_neg (decides cur le_rfl), selected_none fun i later => decides i (Nat.le_of_succ_le later)]
      exact ⟨rfl, by rw [List.append_nil, List.append_nil]; rfl⟩

/-- The result has the items whose indices are within one of the intervals between the sorted positions, in order. A
    list without items gives none. -/
theorem mu_list_slice_selects (list : List α) {posv : List Nat} (some_pos : posv ≠ []) :
    ((mu_list_slice list posv).getD []) = selected (posv.insertionSort (· ≤ ·)) 0 list ∧
      ((mu_list_slice list posv).isNone ↔ list = []) := by
  generalize order : posv.insertionSort (· ≤ ·) = q
  have sorted : q.Pairwise (· ≤ ·) := by
    rw [← order]
    exact List.pairwise_insertionSort _ _
  have some_q : 2 * 0 < q.length := by
    rw [← order, List.length_insertionSort]
    exact List.length_pos_iff.mpr some_pos
  unfold mu_list_slice mu_list_map
  rw [order]
  cases list with
  | nil => exact ⟨rfl, fun _ => rfl, fun _ => rfl⟩
  | cons item list =>
    -- the first call makes the list
    have first : gmap_loop (list_mapper (_slice_mapper q)) 1 (item :: list) [] (none, 0, 0) =
        gmap_loop (list_mapper (_slice_mapper q)) 1 (item :: list) [] (some [], 0, 2 * 0) := rfl
    obtain ⟨empty, result⟩ := gmap_selects sorted (item :: list) 0 0 [] some_q fun k earlier =>
      absurd earlier (Nat.not_lt_zero k)
    have whole : (mu_list_gmap (list_mapper (_slice_mapper q)) 1 (item :: list) (none, 0, 0)).1 =
        some (selected q 0 (item :: list)) := by
      unfold mu_list_gmap
      rw [first]
      dsimp only
      rw [empty, if_neg (by simp), result, List.nil_append]
    rw [whole]
    exact ⟨rfl, by simp⟩

/-- Positions in any order, an odd number of them. -/
theorem mu_list_slice_selects_three :
    (mu_list_slice [10, 11, 12, 13, 14] [3, 1, 1]).getD [] = [11, 13, 14] := by
  rw [(mu_list_slice_selects [10, 11, 12, 13, 14] (List.cons_ne_nil 3 [1, 1])).1]
  decide +kernel
end
end Mailutils.ListSlice

import Mailutils.MessageSet

/-!
`mu_msgset_sub_range`: taking a range of messages out of a message set. The ranges
are joined first, and then walked through once, with `beg` moved on as they are cut.
A remainder of one message behind the range is dropped, and an open range is cut
right only where the removed range begins before it and ends in it or just before it
(`sub_range_difference`).
-/
namespace Mailutils.Subtract
open Mailutils.ListSort Mailutils.MessageSet

/-! ## The functions -/

/-- The walk of `mu_msgset_sub_range`, with the range that is still to be taken out. -/
def sub_loop (beg fin : Nat) : List Msgrange → List Msgrange
  | [] => []
  | mr :: rest =>
    if mr.msg_end = MU_MSGNO_LAST then
      -- the last element in the list
      if mr.msg_beg = beg then rest
      else if mr.msg_beg > beg then { mr with msg_beg := size (fin + 1) } :: rest
      else mr :: rest
    else if mr.msg_beg = beg ∧ mr.msg_end = fin then rest
    else if mr.msg_beg ≤ beg ∧ beg ≤ mr.msg_end then
      if mr.msg_beg ≤ fin ∧ fin ≤ mr.msg_end then
        let tail := if fin ≠ mr.msg_end then ⟨size (fin + 1), mr.msg_end⟩ :: rest else rest
        if mr.msg_beg = beg then tail else { mr with msg_end := beg - 1 } :: tail
      else if mr.msg_beg = beg then sub_loop mr.msg_end fin rest
      else { mr with msg_end := beg - 1 } :: sub_loop mr.msg_end fin rest
    else if mr.msg_beg ≤ fin ∧ fin ≤ mr.msg_end then
      if size (fin + 1) ≥ mr.msg_end then rest else { mr with msg_beg := size (fin + 1) } :: rest
    else if beg ≤ mr.msg_beg ∧ mr.msg_beg ≤ fin then sub_loop beg fin rest
    else mr :: sub_loop beg fin rest

/-- The part of `mu_msgset_sub_range` after the ranges are joined, for a range with
    an end. -/
def sub_finite (list : List Msgrange) (beg fin : Nat) : List Msgrange :=
  match list with
  | [] => []
  | first :: rest =>
    if fin < first.msg_beg then list
    else
      let beg := if beg < first.msg_beg then first.msg_beg else beg
      let last := rest.getLastD first
      if last.msg_end ≠ MU_MSGNO_LAST then
        if beg > last.msg_end then list
        else sub_loop beg (if fin > last.msg_end then last.msg_end else fin) list
      else sub_loop beg fin list

/-- The walk of `sub_msgno_last` from the back. -/
def sub_back (beg : Nat) : List Msgrange → List Msgrange
  | [] => []
  | range :: before =>
    if range.msg_beg > beg then sub_back beg before
    else if range.msg_beg = beg then before
    else range :: before

def sub_msgno_last (list : List Msgrange) (beg : Nat) : List Msgrange :=
  if beg = 1 then [] else (sub_back beg list.reverse).reverse

/-- `translate` is `_mu_msgset_translate_pair`, which asks the mailbox. -/
def mu_msgset_sub_range (translate : Nat → Nat → Except Code (Nat × Nat)) (mset : Msgset) (beg fin mode : Nat) :
    Code × Msgset :=
  if mset.list = [] then (.MU_ERR_NOENT, mset)
  else
    let pair := if fin ≠ 0 ∧ beg > fin then (fin, beg) else (beg, fin)
    match if mode ≠ mset.mode then translate pair.1 pair.2 else .ok pair with
    | .error .MU_ERR_NOENT => (.ok, mset)
    | .error rc => (rc, mset)
    | .ok (beg, fin) =>
      let mset := mu_msgset_aggregate mset
      (.ok, { mset with
        list := if fin = MU_MSGNO_LAST then sub_msgno_last mset.list beg else sub_finite mset.list beg fin })

/-! ## What is left of finite ranges -/

/-- What is left of a range below `lo`. -/
def below (lo : Nat) (r : Msgrange) : Option Msgrange :=
  if r.msg_beg < lo then some ⟨r.msg_beg, min r.msg_end (lo - 1)⟩ else none

/-- What is left of a range above `hi`. -/
def above (hi : Nat) (r : Msgrange) : Option Msgrange :=
  if hi < r.msg_end then some ⟨max r.msg_beg (hi + 1), r.msg_end⟩ else none

/-- A range of which one message is left, and dropped: the removed range begins before
    it; or a range of which nothing should be left, but `hi + 1` runs over. -/
def Lost (lo hi : Nat) (r : Msgrange) : Prop :=
  lo < r.msg_beg ∧ r.msg_beg ≤ hi ∧ (r.msg_end = hi + 1 ∨ hi ≤ r.msg_end ∧ hi + 1 = 2 ^ 64)

instance (lo hi : Nat) (r : Msgrange) : Decidable (Lost lo hi r) := inferInstanceAs (Decidable (_ ∧ _))

/-- What the walk leaves of a range above `hi`. -/
def upper (lo hi : Nat) (r : Msgrange) : Option Msgrange := if Lost lo hi r then none else above hi r

/-- How far `beg` has been moved on behind the finite ranges. -/
def reached (lo : Nat) (front : List Msgrange) : Nat :=
  ((front.find? fun r => r.msg_beg ≤ lo ∧ lo ≤ r.msg_end).map Msgrange.msg_end).getD lo

/-- A range in which the removed range ends. -/
def Inside (hi : Nat) (front : List Msgrange) : Prop := ∃ r ∈ front, r.msg_beg ≤ hi ∧ hi ≤ r.msg_end

instance (hi : Nat) (front : List Msgrange) : Decidable (Inside hi front) :=
  inferInstanceAs (Decidable (∃ r ∈ front, r.msg_beg ≤ hi ∧ hi ≤ r.msg_end))

section
variable {lo hi beg : Nat} {r : Msgrange} {front back : List Msgrange}

/-- A range with an end. -/
def Finite (r : Msgrange) : Prop := r.msg_beg ≤ r.msg_end ∧ 1 ≤ r.msg_beg ∧ r.msg_end < 2 ^ 64

theorem finite_closed (finite : Finite r) : r.msg_end ≠ MU_MSGNO_LAST := by
  have := finite.1
  have := finite.2.1
  simp only [MU_MSGNO_LAST]
  omega

theorem upper_later (finite : Finite r) (later : hi < r.msg_beg) : upper lo hi r = some r := by
  have ordered := finite.1
  have kept : ¬ Lost lo hi r := fun lost => by
    have := lost.2.1
    omega
  rw [upper, if_neg kept, above, if_pos (by omega), Nat.max_eq_left (by omega)]

theorem upper_earlier (earlier : r.msg_end < hi) : upper lo hi r = none := by
  unfold upper
  split
  · rfl
  · rw [above, if_neg (by omega)]

theorem upper_all_later (finite : ∀ r ∈ front, Finite r) (later : ∀ r ∈ front, hi < r.msg_beg) :
    front.filterMap (upper lo hi) = front := by
  rw [List.filterMap_congr fun r member => upper_later (finite r member) (later r member)]
  exact List.filterMap_some

variable {n : Nat}

theorem later_of_canonical {c : Msgrange} (canonical : Canonical (c :: front)) (within : n ≤ c.msg_end + 1) :
    ∀ r ∈ front, n < r.msg_beg := fun r member => by
  have := ((List.pairwise_cons.mp canonical).1 r member).2.2
  omega

theorem inside_cons : Inside hi (r :: front) ↔ (r.msg_beg ≤ hi ∧ hi ≤ r.msg_end) ∨ Inside hi front := by
  simp [Inside]

theorem sub_after (beg : Nat) (back : List Msgrange) (canonical : Canonical front) (finite : ∀ r ∈ front, Finite r)
    (begins : ∀ r ∈ front, beg < r.msg_beg) (later : ∀ r ∈ front, lo < r.msg_beg)
    (fits : hi + 1 = 2 ^ 64 → ∀ r ∈ front, ¬ Lost lo hi r) :
    sub_loop beg hi (front ++ back) =
      front.filterMap (upper lo hi) ++ (if Inside hi front then back else sub_loop beg hi back) := by
  induction front with
  | nil => simp [Inside]
  | cons r front ih =>
    obtain ⟨finiteR, finite⟩ := List.forall_mem_cons.mp finite
    obtain ⟨beginsR, begins⟩ := List.forall_mem_cons.mp begins
    obtain ⟨laterR, later⟩ := List.forall_mem_cons.mp later
    have fitsR : hi + 1 = 2 ^ 64 → ¬ Lost lo hi r := fun wraps => fits wraps r List.mem_cons_self
    have ih := ih (List.pairwise_cons.mp canonical).2 finite begins later
      fun wraps s member => fits wraps s (List.mem_cons_of_mem _ member)
    have ⟨ordered, positive, small⟩ := finiteR
    rw [List.cons_append, sub_loop, if_neg (finite_closed finiteR), if_neg (by omega), if_neg (by omega)]
    by_cases ends : r.msg_beg ≤ hi ∧ hi ≤ r.msg_end
    · -- the removed range ends here
      have rest := later_of_canonical canonical (n := hi) (by omega)
      have inside : Inside hi (r :: front) := ⟨r, List.mem_cons_self, ends⟩
      have next : size (hi + 1) = hi + 1 := by
        refine Nat.mod_eq_of_lt (Nat.lt_of_le_of_ne (by omega) fun wraps => fitsR wraps ?_)
        exact ⟨laterR, ends.1, .inr ⟨ends.2, wraps⟩⟩
      rw [if_pos ends, if_pos inside, next]
      by_cases lost : r.msg_end ≤ hi + 1
      · have gone : upper lo hi r = none := by
          unfold upper
          split
          · rfl
          · next kept =>
            have : r.msg_end ≠ hi + 1 := fun one => kept ⟨laterR, ends.1, .inl one⟩
            rw [above, if_neg (by omega)]
        rw [if_pos lost, List.filterMap_cons_none gone, upper_all_later finite rest]
      · have left : upper lo hi r = some ⟨hi + 1, r.msg_end⟩ := by
          have kept : ¬ Lost lo hi r := fun ⟨_, _, one⟩ => by omega
          rw [upper, if_neg kept, above, if_pos (by omega), Nat.max_eq_right (by omega)]
        rw [if_neg lost, List.filterMap_cons_some left, upper_all_later finite rest, List.cons_append]
    · rw [if_neg ends]
      by_cases covered : beg ≤ r.msg_beg ∧ r.msg_beg ≤ hi
      · rw [if_pos covered, ih, List.filterMap_cons_none (upper_earlier (by omega))]
        simp only [inside_cons, ends, false_or]
      · rw [if_neg covered, ih, List.filterMap_cons_some (upper_later finiteR (by omega)), List.cons_append]
        simp only [inside_cons, ends, false_or]

theorem below_later (later : lo ≤ r.msg_beg) : below lo r = none := by
  rw [below, if_neg (by omega)]

theorem below_all_later (later : ∀ r ∈ front, lo ≤ r.msg_beg) : front.filterMap (below lo) = [] :=
  List.filterMap_eq_nil_iff.mpr fun r member => below_later (later r member)

private theorem reached_none (none_has : ∀ r ∈ front, ¬ (r.msg_beg ≤ lo ∧ lo ≤ r.msg_end)) : reached lo front = lo := by
  rw [reached, List.find?_eq_none.mpr fun r member => by simpa using none_has r member]
  rfl

theorem sub_front (back : List Msgrange) (canonical : Canonical front) (finite : ∀ r ∈ front, Finite r)
    (ordered : lo ≤ hi) (fits : hi + 1 = 2 ^ 64 → ∀ r ∈ front, ¬ Lost lo hi r) :
    sub_loop lo hi (front ++ back) = front.filterMap (below lo) ++ front.filterMap (upper lo hi) ++
      (if Inside hi front then back else sub_loop (reached lo front) hi back) := by
  induction front with
  | nil => simp [Inside, reached]
  | cons r front ih =>
    obtain ⟨finiteR, finite'⟩ := List.forall_mem_cons.mp finite
    have canonical' := (List.pairwise_cons.mp canonical).2
    have fits' : hi + 1 = 2 ^ 64 → ∀ r ∈ front, ¬ Lost lo hi r :=
      fun wraps s member => fits wraps s (List.mem_cons_of_mem _ member)
    have ⟨orderedR, positive, small⟩ := finiteR
    rcases Nat.lt_or_ge lo r.msg_beg with later | begun
    · -- `lo` is before all of them
      have laterAll : ∀ s ∈ r :: front, lo < s.msg_beg :=
        List.forall_mem_cons.mpr ⟨later, later_of_canonical canonical (by omega)⟩
      rw [sub_after _ _ canonical finite laterAll laterAll fits,
        below_all_later fun s member => Nat.le_of_lt (laterAll s member),
        reached_none fun s member has => Nat.not_le_of_lt (laterAll s member) has.1, List.nil_append]
    rcases Nat.lt_or_ge r.msg_end lo with before | here
    · have whole : below lo r = some r := by
        rw [below, if_pos (by omega), Nat.min_eq_left (by omega)]
      have other : ¬ (r.msg_beg ≤ hi ∧ hi ≤ r.msg_end) := by omega
      have skips : reached lo (r :: front) = reached lo front := by
        rw [reached, List.find?_cons_of_neg (by simp; omega), reached]
      rw [List.cons_append, sub_loop, if_neg (finite_closed finiteR), if_neg (by omega), if_neg (by omega), if_neg other,
        if_neg (by omega), ih canonical' finite' fits', List.filterMap_cons_some whole,
        List.filterMap_cons_none (upper_earlier (by omega)), skips]
      simp only [inside_cons, other, false_or, List.cons_append]
    -- `lo` is in this range
    have later : ∀ s ∈ front, lo < s.msg_beg := later_of_canonical canonical (by omega)
    have moves : reached lo (r :: front) = r.msg_end := by
      rw [reached, List.find?_cons_of_pos (by simp [begun, here])]
      rfl
    have nothing : front.filterMap (below lo) = [] := below_all_later fun s member => Nat.le_of_lt (later s member)
    have lower : (r :: front).filterMap (below lo) = if r.msg_beg = lo then [] else [⟨r.msg_beg, lo - 1⟩] := by
      split
      · next same => rw [List.filterMap_cons_none (below_later (Nat.le_of_eq same.symm)), nothing]
      · next other =>
        rw [List.filterMap_cons_some (by rw [below, if_pos (by omega), Nat.min_eq_right (by omega)]), nothing]
    have kept : ¬ Lost lo hi r := fun lost => Nat.not_le_of_lt lost.1 begun
    rw [List.cons_append, sub_loop, if_neg (finite_closed finiteR), lower, moves]
    rcases Nat.lt_or_ge r.msg_end hi with goes_on | ends
    · have other : ¬ (r.msg_beg ≤ hi ∧ hi ≤ r.msg_end) := by omega
      have rest := sub_after r.msg_end back canonical' finite'
        (later_of_canonical canonical (Nat.le_succ _)) later fits'
      rw [if_neg (by omega), if_pos ⟨begun, here⟩, if_neg other, rest,
        List.filterMap_cons_none (upper_earlier goes_on)]
      simp only [inside_cons, other, false_or]
      split
      · rfl
      · rfl
    · have rest : ∀ s ∈ front, hi < s.msg_beg := later_of_canonical canonical (by omega)
      have inside : Inside hi (r :: front) := ⟨r, List.mem_cons_self, by omega, ends⟩
      have piece : (r :: front).filterMap (upper lo hi) =
          if hi ≠ r.msg_end then ⟨hi + 1, r.msg_end⟩ :: front else front := by
        split
        · next less =>
          rw [List.filterMap_cons_some (by rw [upper, if_neg kept, above, if_pos (by omega), Nat.max_eq_right (by omega)]),
            upper_all_later finite' rest]
        · next same =>
          rw [List.filterMap_cons_none (by rw [upper, if_neg kept, above, if_neg (by omega)]),
            upper_all_later finite' rest]
      have next : hi ≠ r.msg_end → size (hi + 1) = hi + 1 := fun less => Nat.mod_eq_of_lt (by omega)
      have within : r.msg_beg ≤ lo ∧ lo ≤ r.msg_end := ⟨begun, here⟩
      have within' : r.msg_beg ≤ hi ∧ hi ≤ r.msg_end := ⟨Nat.le_trans begun ordered, ends⟩
      simp only [piece, if_pos inside, if_pos within, if_pos within']
      by_cases start : r.msg_beg = lo
      · by_cases same : hi = r.msg_end
        · simp [start, same]
        · simp [start, same, Ne.symm same, next same]
      · by_cases same : hi = r.msg_end
        · simp [start, same]
        · simp [start, same, next same]

/-! ## The messages that are left -/

theorem has_finite (finite : Finite r) (n : Nat) : r.Has n ↔ r.msg_beg ≤ n ∧ n ≤ r.msg_end :=
  has_closed (finite_closed finite) n

theorem has_filterMap (f : Msgrange → Option Msgrange) (list : List Msgrange) (n : Nat) :
    Has (list.filterMap f) n ↔ ∃ r ∈ list, ∃ s ∈ f r, s.Has n := by
  simp only [Has, List.mem_filterMap, Option.mem_def]
  constructor
  · rintro ⟨s, ⟨r, member, piece⟩, has⟩
    exact ⟨r, member, s, piece, has⟩
  · rintro ⟨r, member, s, piece, has⟩
    exact ⟨s, ⟨r, member, piece⟩, has⟩

variable {s : Msgrange}

theorem below_piece (finite : Finite r) (piece : s ∈ below lo r) :
    Finite s ∧ s.msg_beg = r.msg_beg ∧ s.msg_end ≤ r.msg_end ∧ s.msg_end < lo := by
  obtain ⟨ordered, positive, small⟩ := finite
  simp only [below, Option.mem_def] at piece
  split at piece
  · obtain rfl := Option.some.inj piece
    exact ⟨⟨by dsimp only; omega, positive, by dsimp only; omega⟩, rfl, by dsimp only; omega, by dsimp only; omega⟩
  · cases piece

theorem above_piece (finite : Finite r) (piece : s ∈ above hi r) :
    Finite s ∧ r.msg_beg ≤ s.msg_beg ∧ s.msg_end = r.msg_end ∧ hi < s.msg_beg := by
  obtain ⟨ordered, positive, small⟩ := finite
  simp only [above, Option.mem_def] at piece
  split at piece
  · obtain rfl := Option.some.inj piece
    exact ⟨⟨by dsimp only; omega, by dsimp only; omega, small⟩, by dsimp only; omega, rfl, by dsimp only; omega⟩
  · cases piece

theorem upper_above (piece : s ∈ upper lo hi r) : s ∈ above hi r ∧ ¬ Lost lo hi r := by
  unfold upper at piece
  split at piece
  · cases piece
  · next kept => exact ⟨piece, kept⟩

theorem below_has (finite : Finite r) (n : Nat) : (∃ s ∈ below lo r, s.Has n) ↔ r.Has n ∧ n < lo := by
  have ⟨ordered, positive, small⟩ := finite
  rw [has_finite finite]
  constructor
  · rintro ⟨s, piece, has⟩
    obtain ⟨finite', begins, ends, less⟩ := below_piece finite piece
    have := (has_finite finite' n).mp has
    omega
  · rintro ⟨has, less⟩
    have piece : (⟨r.msg_beg, min r.msg_end (lo - 1)⟩ : Msgrange) ∈ below lo r := by
      rw [below, if_pos (by omega)]
      rfl
    refine ⟨_, piece, (has_finite (below_piece finite piece).1 n).mpr ?_⟩
    dsimp only
    omega

theorem above_has (finite : Finite r) (n : Nat) : (∃ s ∈ above hi r, s.Has n) ↔ r.Has n ∧ hi < n := by
  have ⟨ordered, positive, small⟩ := finite
  rw [has_finite finite]
  constructor
  · rintro ⟨s, piece, has⟩
    obtain ⟨finite', begins, ends, less⟩ := above_piece finite piece
    have := (has_finite finite' n).mp has
    omega
  · rintro ⟨has, less⟩
    have piece : (⟨max r.msg_beg (hi + 1), r.msg_end⟩ : Msgrange) ∈ above hi r := by
      rw [above, if_pos (by omega)]
      rfl
    refine ⟨_, piece, (has_finite (above_piece finite piece).1 n).mpr ?_⟩
    dsimp only
    omega

theorem has_below (finite : ∀ r ∈ front, Finite r) (n : Nat) :
    Has (front.filterMap (below lo)) n ↔ Has front n ∧ n < lo := by
  rw [has_filterMap]
  constructor
  · rintro ⟨r, member, piece⟩
    obtain ⟨has, less⟩ := (below_has (finite r member) n).mp piece
    exact ⟨⟨r, member, has⟩, less⟩
  · rintro ⟨⟨r, member, has⟩, less⟩
    exact ⟨r, member, (below_has (finite r member) n).mpr ⟨has, less⟩⟩

theorem has_upper (finite : ∀ r ∈ front, Finite r) (n : Nat) :
    Has (front.filterMap (upper lo hi)) n ↔ ∃ r ∈ front, ¬ Lost lo hi r ∧ r.Has n ∧ hi < n := by
  rw [has_filterMap]
  constructor
  · rintro ⟨r, member, s, piece, has⟩
    obtain ⟨piece, kept⟩ := upper_above piece
    exact ⟨r, member, kept, (above_has (finite r member) n).mp ⟨s, piece, has⟩⟩
  · rintro ⟨r, member, kept, has⟩
    obtain ⟨s, piece, has⟩ := (above_has (finite r member) n).mpr has
    exact ⟨r, member, s, by rwa [upper, if_neg kept], has⟩

theorem canonical_apart (canonical : Canonical front) (member : r ∈ front) (member' : s ∈ front) :
    r = s ∨ r.msg_end + 1 < s.msg_beg ∨ s.msg_end + 1 < r.msg_beg := by
  obtain ⟨before, after, rfl⟩ := List.append_of_mem member
  obtain ⟨-, canonical, across⟩ := List.pairwise_append.mp canonical
  rcases List.mem_append.mp member' with earlier | later
  · exact .inr (.inr (across s earlier r List.mem_cons_self).2.2)
  rcases List.mem_cons.mp later with rfl | later
  · exact .inl rfl
  · exact .inr (.inl ((List.pairwise_cons.mp canonical).1 s later).2.2)

theorem canonical_unique (canonical : Canonical front) (finite : ∀ r ∈ front, Finite r)
    (member : r ∈ front) (member' : s ∈ front) (has : r.Has n) (has' : s.Has n) : r = s := by
  have here := (has_finite (finite r member) n).mp has
  have here' := (has_finite (finite s member') n).mp has'
  exact (canonical_apart canonical member member').resolve_right (by omega)

theorem remains_canonical (canonical : Canonical front) (finite : ∀ r ∈ front, Finite r) (ordered : lo ≤ hi) :
    Canonical (front.filterMap (below lo) ++ front.filterMap (upper lo hi)) := by
  have ordered_finite : front.Pairwise fun a b => Apart a b ∧ Finite a ∧ Finite b :=
    canonical.imp_of_mem fun memberA memberB apart => ⟨apart, finite _ memberA, finite _ memberB⟩
  refine List.pairwise_append.mpr ⟨ordered_finite.filterMap _ ?_, ordered_finite.filterMap _ ?_, ?_⟩
  · rintro a b ⟨apart, finiteA, finiteB⟩ s pieceA t pieceB
    obtain ⟨finiteS, begins, ends, -⟩ := below_piece finiteA pieceA
    obtain ⟨-, begins', -, -⟩ := below_piece finiteB pieceB
    have := apart.2.2
    have := finiteS.1
    exact ⟨by omega, finite_closed finiteS, by omega⟩
  · rintro a b ⟨apart, finiteA, finiteB⟩ s pieceA t pieceB
    obtain ⟨finiteS, begins, ends, -⟩ := above_piece finiteA (upper_above pieceA).1
    obtain ⟨-, begins', -, -⟩ := above_piece finiteB (upper_above pieceB).1
    have := apart.2.2
    have := finiteS.1
    exact ⟨by omega, finite_closed finiteS, by omega⟩
  · intro s memberS t memberT
    obtain ⟨a, memberA, pieceA⟩ := List.mem_filterMap.mp memberS
    obtain ⟨b, memberB, pieceB⟩ := List.mem_filterMap.mp memberT
    obtain ⟨finiteS, -, -, less⟩ := below_piece (finite a memberA) pieceA
    obtain ⟨-, -, -, more⟩ := above_piece (finite b memberB) (upper_above pieceB).1
    have := finiteS.1
    exact ⟨by omega, finite_closed finiteS, by omega⟩

/-! ## Set difference -/

/-- The outcome is what is in the list outside of the range, in canonical form. -/
def Difference (list : List Msgrange) (lo hi : Nat) (list' : List Msgrange) : Prop :=
  (∀ n, Has list' n ↔ Has list n ∧ ¬ (lo ≤ n ∧ n ≤ hi)) ∧ Canonical list'

/-- What has to hold for the walk to take out the range, and no more. -/
def Cut (lo hi : Nat) (front : List Msgrange) : Option Msgrange → Prop
  | none => ∀ r ∈ front, ¬ Lost lo hi r
  | some o =>
    if Inside hi front then
      hi < o.msg_beg ∧
        ∀ r ∈ front, hi < r.msg_end → if Lost lo hi r then o.msg_beg = hi + 1 else r.msg_end + 1 < o.msg_beg
    else (∀ r ∈ front, r.msg_beg ≤ hi) ∧ reached lo front < o.msg_beg ∧ o.msg_beg ≤ hi + 1 ∧ hi + 1 < 2 ^ 64

/-- A range that would be lost, but `hi + 1` runs over, stays as a whole. -/
theorem sub_wraps (back : List Msgrange) (canonical : Canonical front) (finite : ∀ r ∈ front, Finite r)
    (wraps : hi + 1 = 2 ^ 64) (member : r ∈ front) (lost : Lost lo hi r) (begins : beg < r.msg_beg) :
    Has (sub_loop beg hi (front ++ back)) hi := by
  obtain ⟨later, begun, _⟩ := lost
  have ends : r.msg_end = hi := by
    have := (finite r member).2.2
    omega
  induction front generalizing beg with
  | nil => simp at member
  | cons s front ih =>
    obtain ⟨orderedS, positiveS, smallS⟩ := finite s List.mem_cons_self
    rw [List.cons_append, sub_loop, if_neg (finite_closed (finite s List.mem_cons_self))]
    rcases List.mem_cons.mp member with rfl | member
    · have wrapped : size (hi + 1) = 0 := by simp [size, wraps]
      rw [if_neg (by omega), if_neg (by omega), if_pos (by omega), wrapped, if_neg (by omega)]
      refine ⟨_, List.mem_cons_self, ?_⟩
      exact ⟨Nat.zero_le _, .inr (Nat.le_of_eq ends.symm)⟩
    · have before := ((List.pairwise_cons.mp canonical).1 r member).2.2
      have ih {beg : Nat} := @ih beg (List.pairwise_cons.mp canonical).2
        (fun r member => finite r (List.mem_cons_of_mem _ member)) member
      have step {beg : Nat} (begins : beg < r.msg_beg) (t : Msgrange) :
          Has (t :: sub_loop beg hi (front ++ back)) hi := (has_cons _ _ _).mpr (.inr (ih begins))
      have other : ¬ (s.msg_beg ≤ hi ∧ hi ≤ s.msg_end) := by omega
      rw [if_neg (by omega)]
      simp only [if_neg other]
      split_ifs
      · exact ih (by omega)
      · exact step (by omega) _
      · exact ih begins
      · exact step begins _

/-- Nothing is open: only a lost range can spoil the outcome. -/
theorem sub_closed_iff (canonical : Canonical front) (finite : ∀ r ∈ front, Finite r) (ordered : lo ≤ hi) :
    Difference front lo hi (sub_loop lo hi front) ↔ Cut lo hi front none := by
  have walk (fits : hi + 1 = 2 ^ 64 → ∀ r ∈ front, ¬ Lost lo hi r) :
      sub_loop lo hi front = front.filterMap (below lo) ++ front.filterMap (upper lo hi) := by
    have := sub_front [] canonical finite ordered fits
    simpa [sub_loop] using this
  constructor
  · rintro ⟨has, -⟩ r member lost
    by_cases wraps : hi + 1 = 2 ^ 64
    · have stays := sub_wraps [] canonical finite wraps member lost lost.1
      rw [List.append_nil] at stays
      exact ((has hi).mp stays).2 ⟨ordered, Nat.le_refl _⟩
    · have starts := lost.1
      have middle := lost.2.1
      have ends := lost.2.2
      have own : r.Has (hi + 1) := (has_finite (finite r member) _).mpr (by omega)
      have left := (has (hi + 1)).mpr ⟨⟨r, member, own⟩, by omega⟩
      rw [walk fun wraps' => absurd wraps' wraps, has_append, has_below finite, has_upper finite] at left
      rcases left with ⟨-, less⟩ | ⟨s, member', kept, has', -⟩
      · omega
      · exact kept (canonical_unique canonical finite member member' own has' ▸ lost)
  · intro kept
    rw [walk fun _ => kept]
    refine ⟨fun n => ?_, remains_canonical canonical finite ordered⟩
    rw [has_append, has_below finite, has_upper finite]
    constructor
    · rintro (⟨has, less⟩ | ⟨r, member, -, has, more⟩)
      · exact ⟨has, by omega⟩
      · exact ⟨⟨r, member, has⟩, by omega⟩
    · rintro ⟨⟨r, member, has⟩, outside⟩
      rcases Nat.lt_or_ge n lo with less | more
      · exact .inl ⟨⟨r, member, has⟩, less⟩
      · exact .inr ⟨r, member, kept r member, has, by omega⟩

theorem reached_cases (lo : Nat) (front : List Msgrange) :
    reached lo front = lo ∨ ∃ r ∈ front, r.msg_beg ≤ lo ∧ lo ≤ r.msg_end ∧ reached lo front = r.msg_end := by
  unfold reached
  cases found : front.find? fun r => r.msg_beg ≤ lo ∧ lo ≤ r.msg_end with
  | none => exact .inl rfl
  | some r =>
    have has : r.msg_beg ≤ lo ∧ lo ≤ r.msg_end := by simpa using List.find?_some found
    exact .inr ⟨r, List.mem_of_find?_eq_some found, has.1, has.2, rfl⟩

theorem le_reached (lo : Nat) (front : List Msgrange) : lo ≤ reached lo front := by
  rcases reached_cases lo front with same | ⟨r, -, -, more, same⟩
  · exact Nat.le_of_eq same.symm
  · exact same ▸ more

theorem reached_le (outside : ¬ Inside hi front) (ordered : lo ≤ hi) : reached lo front ≤ hi := by
  rcases reached_cases lo front with same | ⟨r, member, begins, -, same⟩
  · rwa [same]
  · rw [same]
    by_contra more
    exact outside ⟨r, member, by omega, by omega⟩

section
variable {o : Msgrange}

theorem has_last (opened : o.msg_end = MU_MSGNO_LAST) (n : Nat) : Has [o] n ↔ o.msg_beg ≤ n := by
  rw [has_cons, has_open opened]
  simp [Has]

/-- The removed range ends in a finite one, and the open range stays as it is. -/
theorem inside_iff (canonical : Canonical front) (finite : ∀ r ∈ front, Finite r) (ordered : lo ≤ hi)
    (opened : o.msg_end = MU_MSGNO_LAST) (small : o.msg_beg < 2 ^ 64) (inside : Inside hi front) :
    Difference (front ++ [o]) lo hi (front.filterMap (below lo) ++ front.filterMap (upper lo hi) ++ [o]) ↔
      Cut lo hi front (some o) := by
  have hasO := has_last opened
  rw [Cut, if_pos inside, Difference]
  simp only [has_append, has_below finite, has_upper finite, hasO]
  constructor
  · rintro ⟨has, canonical'⟩
    have more : hi < o.msg_beg := by
      by_contra less
      exact ((has hi).mp (.inr (by omega))).2 ⟨ordered, Nat.le_refl _⟩
    refine ⟨more, fun r member beyond => ?_⟩
    split
    · next lost =>
      have starts := lost.1
      have middle := lost.2.1
      have ends := lost.2.2
      have own : r.Has (hi + 1) := (has_finite (finite r member) _).mpr (by omega)
      rcases (has (hi + 1)).mpr ⟨.inl ⟨r, member, own⟩, by omega⟩ with (⟨-, less⟩ | ⟨s, member', kept, has', -⟩) | less
      · omega
      · exact absurd (canonical_unique canonical finite member member' own has' ▸ lost) kept
      · omega
    · next kept =>
      have piece : (⟨max r.msg_beg (hi + 1), r.msg_end⟩ : Msgrange) ∈ front.filterMap (upper lo hi) :=
        List.mem_filterMap.mpr ⟨r, member, by rw [upper, if_neg kept, above, if_pos beyond]⟩
      exact ((List.pairwise_append.mp canonical').2.2 _ (List.mem_append_right _ piece) o (by simp)).2.2
  · rintro ⟨more, pieces⟩
    refine ⟨fun n => ⟨?_, ?_⟩, ?_⟩
    · rintro ((⟨has, less⟩ | ⟨r, member, -, has, beyond⟩) | beyond)
      · exact ⟨.inl has, by omega⟩
      · exact ⟨.inl ⟨r, member, has⟩, by omega⟩
      · exact ⟨.inr beyond, by omega⟩
    · rintro ⟨⟨r, member, has⟩ | beyond, outside⟩
      · rcases Nat.lt_or_ge n lo with less | _
        · exact .inl (.inl ⟨⟨r, member, has⟩, less⟩)
        · have within := (has_finite (finite r member) n).mp has
          have piece := pieces r member (by omega)
          split at piece
          · next lost =>
            have starts := lost.1
            have middle := lost.2.1
            have ends := lost.2.2
            exact .inr (by omega)
          · next kept => exact .inl (.inr ⟨r, member, kept, has, by omega⟩)
      · exact .inr beyond
    · refine List.pairwise_append.mpr ⟨remains_canonical canonical finite ordered, List.pairwise_singleton _ _, ?_⟩
      intro s member o' only
      obtain rfl : o' = o := by simpa using only
      rcases List.mem_append.mp member with lower | above
      · obtain ⟨r, member, piece⟩ := List.mem_filterMap.mp lower
        obtain ⟨finiteS, -, -, less⟩ := below_piece (finite r member) piece
        have := finiteS.1
        exact ⟨by omega, finite_closed finiteS, by omega⟩
      · obtain ⟨r, member, piece⟩ := List.mem_filterMap.mp above
        obtain ⟨piece, kept⟩ := upper_above piece
        obtain ⟨finiteS, -, ends, beyond⟩ := above_piece (finite r member) piece
        have := finiteS.1
        have apart := pieces r member (by omega)
        rw [if_neg kept] at apart
        exact ⟨by omega, finite_closed finiteS, by omega⟩

theorem sub_last (opened : o.msg_end = MU_MSGNO_LAST) : sub_loop beg hi [o] =
    if o.msg_beg = beg then [] else if o.msg_beg > beg then [⟨size (hi + 1), o.msg_end⟩] else [o] := by
  rw [sub_loop, if_pos opened]

/-- The removed range ends outside of the finite ones, and the walk comes to the open
    range. -/
theorem outside_iff (canonical : Canonical front) (finite : ∀ r ∈ front, Finite r) (ordered : lo ≤ hi)
    (bounded : hi < 2 ^ 64) (opened : o.msg_end = MU_MSGNO_LAST) (outside : ¬ Inside hi front) :
    Difference (front ++ [o]) lo hi (front.filterMap (below lo) ++ front.filterMap (upper lo hi) ++
        sub_loop (reached lo front) hi [o]) ↔ Cut lo hi front (some o) := by
  have hasO := has_last opened
  have reached_le := reached_le outside ordered
  have le_reached := le_reached lo front
  rw [Cut, if_neg outside, sub_last opened]
  constructor
  · rintro ⟨has, canonical'⟩
    split at has
    · -- the open range is deleted, and with it all that is behind the removed range
      exfalso
      obtain ⟨bound, below⟩ := has_bounded fun r member => finite_closed (finite r member)
      have all : Has (front ++ [o]) (bound + hi + o.msg_beg + 1) :=
        (has_append _ _ _).mpr (.inr ((hasO _).mpr (by omega)))
      have left := (has _).mpr ⟨all, by omega⟩
      rw [List.append_nil, has_append, has_below finite, has_upper finite] at left
      have : Has front (bound + hi + o.msg_beg + 1) := by
        rcases left with ⟨has, -⟩ | ⟨r, member, -, has, -⟩
        · exact has
        · exact ⟨r, member, has⟩
      have := below _ this
      omega
    · split at has
      · next other more =>
        rw [if_neg other, if_pos more] at canonical'
        have has_cut {n : Nat} (beyond : size (hi + 1) ≤ n) :=
          (has n).mp ((has_append _ _ _).mpr (.inr ⟨_, List.mem_cons_self,
            (has_open (r := ⟨size (hi + 1), o.msg_end⟩) opened n).mpr beyond⟩))
        have fits : hi + 1 < 2 ^ 64 := by
          by_contra wraps
          have wraps : hi + 1 = 2 ^ 64 := by omega
          exact (has_cut (n := hi) (by simp [size, wraps])).2 ⟨ordered, Nat.le_refl _⟩
        have next : size (hi + 1) = hi + 1 := Nat.mod_eq_of_lt fits
        have begun : ∀ r ∈ front, r.msg_beg ≤ hi := by
          intro r member
          by_contra later
          have piece : r ∈ front.filterMap (upper lo hi) :=
            List.mem_filterMap.mpr ⟨r, member, upper_later (finite r member) (by omega)⟩
          have := ((List.pairwise_append.mp canonical').2.2 r (List.mem_append_right _ piece) _ List.mem_cons_self).1
          rw [next] at this
          dsimp only at this
          omega
        refine ⟨begun, more, ?_, fits⟩
        rcases (has_append _ _ _).mp (has_cut (n := hi + 1) (Nat.le_of_eq next)).1 with ⟨r, member, own⟩ | beyond
        · have within := (has_finite (finite r member) _).mp own
          exact absurd ⟨r, member, begun r member, by omega⟩ outside
        · exact (hasO _).mp beyond
      · next other less =>
        exfalso
        have stays := (has hi).mp ((has_append _ _ _).mpr (.inr ((hasO hi).mpr (by omega))))
        exact stays.2 ⟨ordered, Nat.le_refl _⟩
  · rintro ⟨begun, more, meets, fits⟩
    have next : size (hi + 1) = hi + 1 := Nat.mod_eq_of_lt fits
    have covered : ∀ r ∈ front, r.msg_end < hi := fun r member => by
      have := begun r member
      by_contra beyond
      exact outside ⟨r, member, by omega, by omega⟩
    have nothing : front.filterMap (upper lo hi) = [] :=
      List.filterMap_eq_nil_iff.mpr fun r member => upper_earlier (covered r member)
    have hasCut (n : Nat) : Has [⟨hi + 1, o.msg_end⟩] n ↔ hi + 1 ≤ n := by
      rw [has_cons, has_open (r := ⟨hi + 1, o.msg_end⟩) opened]
      simp [Has]
    have remains := remains_canonical canonical finite ordered
    rw [if_neg (by omega), if_pos more, next]
    rw [nothing, List.append_nil] at remains ⊢
    refine ⟨fun n => ?_, List.pairwise_append.mpr ⟨remains, List.pairwise_singleton _ _, ?_⟩⟩
    · rw [has_append, has_append, has_below finite, hasCut, hasO]
      constructor
      · rintro (⟨has, less⟩ | beyond)
        · exact ⟨.inl has, by omega⟩
        · exact ⟨.inr (by omega), by omega⟩
      · rintro ⟨⟨r, member, has⟩ | beyond, outside⟩
        · have within := (has_finite (finite r member) n).mp has
          have := covered r member
          exact .inl ⟨⟨r, member, has⟩, by omega⟩
        · exact .inr (by omega)
    · intro s member o' only
      obtain rfl : o' = ⟨hi + 1, o.msg_end⟩ := by simpa using only
      obtain ⟨r, member, piece⟩ := List.mem_filterMap.mp member
      obtain ⟨finiteS, -, -, less⟩ := below_piece (finite r member) piece
      have := finiteS.1
      exact ⟨by dsimp only; omega, finite_closed finiteS, by dsimp only; omega⟩

theorem sub_open_iff (canonical : Canonical front) (finite : ∀ r ∈ front, Finite r) (ordered : lo ≤ hi)
    (bounded : hi < 2 ^ 64) (opened : o.msg_end = MU_MSGNO_LAST) (small : o.msg_beg < 2 ^ 64) :
    Difference (front ++ [o]) lo hi (sub_loop lo hi (front ++ [o])) ↔ Cut lo hi front (some o) := by
  by_cases fits : hi + 1 = 2 ^ 64 → ∀ r ∈ front, ¬ Lost lo hi r
  · rw [sub_front _ canonical finite ordered fits]
    split
    · next inside => exact inside_iff canonical finite ordered opened small inside
    · next outside => exact outside_iff canonical finite ordered bounded opened outside
  · push Not at fits
    obtain ⟨wraps, r, member, lost⟩ := fits
    have stays := sub_wraps [o] canonical finite wraps member lost lost.1
    refine iff_of_false (fun ⟨has, _⟩ => ((has hi).mp stays).2 ⟨ordered, Nat.le_refl _⟩) fun cut => ?_
    obtain ⟨_, begun, ends⟩ := lost
    rw [Cut, if_pos ⟨r, member, begun, by omega⟩] at cut
    omega
end

private theorem open_stays {o : Msgrange} (canonical : Canonical front) (finite : ∀ r ∈ front, Finite r) (ordered : lo ≤ hi)
    (opened : o.msg_end = MU_MSGNO_LAST) (begins : o.msg_beg < lo) : Has (sub_loop lo hi (front ++ [o])) hi := by
  by_cases fits : hi + 1 = 2 ^ 64 → ∀ r ∈ front, ¬ Lost lo hi r
  · have := le_reached lo front
    have kept : sub_loop (reached lo front) hi [o] = [o] := by
      rw [sub_last opened, if_neg (by omega), if_neg (by omega)]
    rw [sub_front _ canonical finite ordered fits, kept, ite_self, has_append]
    exact .inr ⟨o, List.mem_cons_self, (has_open opened hi).mpr (by omega)⟩
  · push Not at fits
    obtain ⟨wraps, r, member, lost⟩ := fits
    exact sub_wraps [o] canonical finite wraps member lost lost.1

/-! ## The messages before the call -/

/-- The messages `a` to `hi` and no more than one behind them are a run of `F`, which
    begins behind `lo` and is not the first one. The walk takes it out as a whole. -/
def Drops (F : Nat → Prop) (lo hi : Nat) : Prop :=
  ∃ a, lo < a ∧ (∃ f < a, F f) ∧ a ≤ hi ∧ ¬ F (a - 1) ∧ (∀ n, a ≤ n → n ≤ hi → F n) ∧
    (F (hi + 1) ∧ ¬ F (hi + 2) ∨ hi + 1 = 2 ^ 64)

/-- When a range can be taken out of the messages `F` of finite ranges and those from `s` on. -/
def Clear (F : Nat → Prop) (lo hi s : Nat) : Prop :=
  -- the removed range is before all messages
  (∀ n, F n → hi < n) ∧ hi < s ∧ (∀ n, F n → n + 1 < s) ∨
    -- it ends in a finite range
    F hi ∧ hi < s ∧
      (∀ n, F n → hi < n → (Drops F lo hi ∧ n = hi + 1 → s = hi + 1) ∧ (¬ (Drops F lo hi ∧ n = hi + 1) → n + 1 < s)) ∨
    -- it ends in the open range, or just before it
    (∀ n, F n → n < hi) ∧ s ≤ hi + 1 ∧ hi + 1 < 2 ^ 64 ∧
      ∃ f, F f ∧ (∀ n, F n → f ≤ n) ∧ max lo f < s ∧ ∀ n, (∀ m, max lo f ≤ m → m ≤ n → F m) → n < s

theorem run_within (canonical : Canonical front) (finite : ∀ r ∈ front, Finite r) (member : r ∈ front) {a b : Nat}
    (here : r.Has a) (all : ∀ n, a ≤ n → n ≤ b → Has front n) : b ≤ r.msg_end := by
  by_contra beyond
  have within := (has_finite (finite r member) a).mp here
  obtain ⟨s, member', has⟩ := all (r.msg_end + 1) (by omega) (by omega)
  have within' := (has_finite (finite s member') _).mp has
  rcases canonical_apart canonical member member' with rfl | apart | apart
  · omega
  · omega
  · omega

theorem reached_eq (canonical : Canonical front) (finite : ∀ r ∈ front, Finite r) (member : r ∈ front)
    (has : r.Has lo) : reached lo front = r.msg_end := by
  have within := (has_finite (finite r member) lo).mp has
  cases found : front.find? fun r => r.msg_beg ≤ lo ∧ lo ≤ r.msg_end with
  | none => exact absurd (by simpa using within) (List.find?_eq_none.mp found r member)
  | some t =>
    have member' := List.mem_of_find?_eq_some found
    have has' : t.Has lo := (has_finite (finite t member') lo).mpr (by simpa using List.find?_some found)
    rw [reached, found, canonical_unique canonical finite member member' has has']
    rfl

theorem reached_lt_iff (canonical : Canonical front) (finite : ∀ r ∈ front, Finite r) {s : Nat} :
    reached lo front < s ↔ lo < s ∧ ∀ n, (∀ m, lo ≤ m → m ≤ n → Has front m) → n < s := by
  constructor
  · intro less
    have := le_reached lo front
    refine ⟨by omega, fun n all => ?_⟩
    by_cases from_lo : lo ≤ n
    · obtain ⟨r, member, has⟩ := all lo (Nat.le_refl _) from_lo
      rw [reached_eq canonical finite member has] at less
      have := run_within canonical finite member has all
      omega
    · omega
  · rintro ⟨less, run⟩
    rcases reached_cases lo front with same | ⟨r, member, begins, ends, same⟩
    · omega
    · rw [same]
      exact run _ fun m above below => ⟨r, member, (has_finite (finite r member) m).mpr ⟨by omega, below⟩⟩

section
variable {first o : Msgrange} {rest : List Msgrange}

theorem first_le (canonical : Canonical (first :: rest)) (has : Has (first :: rest) n) :
    first.msg_beg ≤ n := by
  obtain ⟨r, member, has⟩ := has
  rcases List.mem_cons.mp member with rfl | member
  · exact has.1
  · exact Nat.le_trans (Nat.le_of_lt ((List.pairwise_cons.mp canonical).1 r member).1) has.1

theorem first_has (rest : List Msgrange) (finite : Finite first) : Has (first :: rest) first.msg_beg :=
  ⟨first, List.mem_cons_self, (has_finite finite _).mpr ⟨Nat.le_refl _, finite.1⟩⟩

theorem drops_iff (canonical : Canonical (first :: rest))
    (finite : ∀ r ∈ first :: rest, Finite r) :
    (∃ r ∈ first :: rest, Lost (max lo first.msg_beg) hi r) ↔ Drops (Has (first :: rest)) lo hi := by
  constructor
  · rintro ⟨r, member, later, begun, ends⟩
    have small := (finite r member).2.2
    have own {n : Nat} (above : r.msg_beg ≤ n) (below : n ≤ r.msg_end) : Has (first :: rest) n :=
      ⟨r, member, (has_finite (finite r member) n).mpr ⟨above, below⟩⟩
    have other {n : Nat} (outside : n + 1 = r.msg_beg ∨ n = r.msg_end + 1) : ¬ Has (first :: rest) n := by
      rintro ⟨s, member', has⟩
      have within := (has_finite (finite s member') n).mp has
      have := (finite r member).1
      rcases canonical_apart canonical member member' with rfl | apart | apart
      · omega
      · omega
      · omega
    refine ⟨r.msg_beg, by omega, ⟨_, by omega, first_has rest (finite first List.mem_cons_self)⟩, begun,
      other (by omega), fun n above below => own above (by omega), ?_⟩
    rcases ends with one | ⟨-, wraps⟩
    · exact .inl ⟨own (by omega) (by omega), other (by omega)⟩
    · exact .inr wraps
  · rintro ⟨a, later, ⟨f, before, has⟩, begun, gap, all, ends⟩
    have := first_le canonical has
    obtain ⟨r, member, has⟩ := all a (Nat.le_refl _) begun
    have within := (has_finite (finite r member) a).mp has
    have begins : r.msg_beg = a := by
      by_contra other
      exact gap ⟨r, member, (has_finite (finite r member) _).mpr (by omega)⟩
    refine ⟨r, member, by omega, by omega, ?_⟩
    have reach := run_within canonical finite member has all
    rcases ends with ⟨next, after⟩ | wraps
    · have reach' := run_within (b := hi + 1) canonical finite member has fun n above below => by
        rcases Nat.lt_or_ge hi n with more | less
        · exact (show n = hi + 1 by omega) ▸ next
        · exact all n above less
      refine .inl (Nat.le_antisymm ?_ reach')
      by_contra more
      exact after ⟨r, member, (has_finite (finite r member) _).mpr (by omega)⟩
    · exact .inr ⟨reach, wraps⟩

theorem drops_lost (canonical : Canonical (first :: rest)) (finite : ∀ r ∈ first :: rest, Finite r)
    (drops : Drops (Has (first :: rest)) lo hi) (member : r ∈ first :: rest) (has : r.Has (hi + 1)) :
    Lost (max lo first.msg_beg) hi r := by
  obtain ⟨r', member', lost⟩ := (drops_iff canonical finite).mpr drops
  have within := (has_finite (finite r member) _).mp has
  have small := (finite r member).2.2
  have has' : r'.Has (hi + 1) := by
    obtain ⟨_, begun, ends⟩ := lost
    exact (has_finite (finite r' member') _).mpr (by omega)
  rwa [canonical_unique canonical finite member member' has has']

theorem cut_iff (canonical : Canonical (first :: rest)) (finite : ∀ r ∈ first :: rest, Finite r)
    (begun : first.msg_beg ≤ hi) :
    Cut (max lo first.msg_beg) hi (first :: rest) (some o) ↔ Clear (Has (first :: rest)) lo hi o.msg_beg := by
  have start := first_has rest (finite first List.mem_cons_self)
  by_cases inside : Inside hi (first :: rest)
  · have here : Has (first :: rest) hi := by
      obtain ⟨r, member, within⟩ := inside
      exact ⟨r, member, (has_finite (finite r member) hi).mpr within⟩
    rw [Cut, if_pos inside]
    constructor
    · rintro ⟨more, pieces⟩
      refine .inr (.inl ⟨here, more, fun n ⟨r, member, has⟩ beyond => ?_⟩)
      have within := (has_finite (finite r member) n).mp has
      have small := (finite r member).2.2
      have piece := pieces r member (by omega)
      split at piece
      · next lost =>
        have ends := lost.2.2
        exact ⟨fun _ => piece, fun other => absurd ⟨(drops_iff canonical finite).mp ⟨r, member, lost⟩, by omega⟩ other⟩
      · next kept => exact ⟨fun ⟨drops, same⟩ => absurd (drops_lost canonical finite drops member (same ▸ has)) kept,
          fun _ => by omega⟩
    · rintro (⟨later, -⟩ | ⟨-, more, pieces⟩ | ⟨before, -⟩)
      · exact absurd (later _ start) (Nat.not_lt_of_le begun)
      · refine ⟨more, fun r member beyond => ?_⟩
        have last : r.Has r.msg_end := (has_finite (finite r member) _).mpr ⟨(finite r member).1, Nat.le_refl _⟩
        have small := (finite r member).2.2
        obtain ⟨dropped, kept⟩ := pieces r.msg_end ⟨r, member, last⟩ beyond
        split
        · next lost =>
          have ends := lost.2.2
          exact dropped ⟨(drops_iff canonical finite).mp ⟨r, member, lost⟩, by omega⟩
        · next other =>
          exact kept fun ⟨drops, same⟩ => other (drops_lost canonical finite drops member (same ▸ last))
      · exact absurd (before hi here) (Nat.lt_irrefl _)
  · rw [Cut, if_neg inside, reached_lt_iff canonical finite]
    constructor
    · rintro ⟨begins, ⟨less, run⟩, meets, fits⟩
      refine .inr (.inr ⟨fun n ⟨r, member, has⟩ => ?_, meets, fits, _, start, fun n => first_le canonical, less, run⟩)
      have within := (has_finite (finite r member) n).mp has
      have := begins r member
      by_contra more
      exact inside ⟨r, member, this, by omega⟩
    · rintro (⟨later, -⟩ | ⟨⟨r, member, has⟩, -⟩ | ⟨before, meets, fits, f, has, least, less, run⟩)
      · exact absurd (later _ start) (Nat.not_lt_of_le begun)
      · exact absurd ⟨r, member, (has_finite (finite r member) hi).mp has⟩ inside
      · obtain rfl : f = first.msg_beg := Nat.le_antisymm (least _ start) (first_le canonical has)
        refine ⟨fun r member => ?_, ⟨less, run⟩, meets, fits⟩
        have := finite r member
        exact Nat.le_of_lt (before _ ⟨r, member, (has_finite this _).mpr ⟨Nat.le_refl _, this.1⟩⟩)
end

theorem difference_congr {list list' : List Msgrange} (lo' hi' : Nat)
    (same : ∀ n, Has list n → ((lo ≤ n ∧ n ≤ hi) ↔ (lo' ≤ n ∧ n ≤ hi'))) :
    Difference list lo hi list' ↔ Difference list lo' hi' list' := by
  unfold Difference
  refine and_congr_left' (forall_congr' fun n => iff_congr .rfl ?_)
  exact and_congr_right fun has => not_congr (same n has)

theorem nearly_finite (nearly : Nearly front back) : ∀ r ∈ front, Finite r := fun r member => by
  obtain ⟨positive, ordered, -, small⟩ := nearly.valid r (List.mem_append_left _ member)
  exact ⟨ordered.resolve_left (nearly.closed r member), positive, small⟩

theorem ends_le_last {last : Msgrange} (canonical : Canonical front) (finite : ∀ r ∈ front, Finite r)
    (ends : front.getLast? = some last) : ∀ r ∈ front, r.msg_end ≤ last.msg_end := by
  obtain ⟨init, rfl⟩ := List.getLast?_eq_some_iff.mp ends
  intro r member
  have := (finite last (by simp)).1
  rcases List.mem_append.mp member with earlier | same
  · have := ((List.pairwise_append.mp canonical).2.2 r earlier last (by simp)).2.2
    omega
  · rw [List.mem_singleton.mp same]

theorem cut_clip {last : Msgrange} (ends : ∀ r ∈ front, r.msg_end ≤ last.msg_end) (bounded : hi < 2 ^ 64) :
    Cut lo (min hi last.msg_end) front none ↔ Cut lo hi front none := by
  refine forall₂_congr fun r member => not_congr ?_
  have := ends r member
  unfold Lost
  omega

/-! ## The whole function -/

theorem sub_finite_closed (canonical : Canonical front) (finite : ∀ r ∈ front, Finite r) (ordered : lo ≤ hi)
    (bounded : hi < 2 ^ 64) :
    Difference front lo hi (sub_finite front lo hi) ↔ ¬ Drops (Has front) lo hi := by
  cases front with
  | nil => simp [sub_finite, Drops, Difference, Has, Canonical]
  | cons first rest =>
    have last : (first :: rest).getLast? = some (rest.getLastD first) := by
      rw [List.getLast?_cons, List.getLastD_eq_getLast?]
    have closed := finite_closed (finite _ (List.mem_of_getLast? last))
    have ends := ends_le_last canonical finite last
    generalize tail : rest.getLastD first = last' at last closed ends
    have within {n : Nat} (has : Has (first :: rest) n) : n ≤ last'.msg_end := by
      obtain ⟨r, member, has⟩ := has
      exact Nat.le_trans ((has_finite (finite r member) n).mp has).2 (ends r member)
    have same (outside : ∀ n, Has (first :: rest) n → ¬ (lo ≤ n ∧ n ≤ hi)) :
        Difference (first :: rest) lo hi (first :: rest) :=
      ⟨fun n => ⟨fun has => ⟨has, outside n has⟩, And.left⟩, canonical⟩
    have kept : ¬ Drops (Has (first :: rest)) lo hi ↔ Cut (max lo first.msg_beg) hi (first :: rest) none := by
      rw [← drops_iff canonical finite]
      simp [Cut]
    rw [kept]
    simp only [sub_finite, tail, if_pos closed]
    split
    · refine iff_of_true (same fun n has => ?_) fun r _ lost => ?_
      · have := first_le canonical has
        omega
      · obtain ⟨later, begun, _⟩ := lost
        omega
    have clip : (if lo < first.msg_beg then first.msg_beg else lo) = max lo first.msg_beg := by
      split
      · omega
      · omega
    rw [clip]
    split
    · refine iff_of_true (same fun n has => ?_) fun r member lost => ?_
      · have := within has
        have := first_le canonical has
        omega
      · have := ends r member
        have := (finite r member).1
        have := lost.1
        omega
    · have clip' : (if hi > last'.msg_end then last'.msg_end else hi) = min hi last'.msg_end := by
        split
        · omega
        · omega
      rw [clip', difference_congr (max lo first.msg_beg) (min hi last'.msg_end)
        fun n has => by have := within has; have := first_le canonical has; omega,
        sub_closed_iff canonical finite (by omega), cut_clip ends bounded]

theorem sub_finite_open {o : Msgrange} (canonical : Canonical front) (finite : ∀ r ∈ front, Finite r)
    (ordered : lo ≤ hi) (bounded : hi < 2 ^ 64) (opened : o.msg_end = MU_MSGNO_LAST) (small : o.msg_beg < 2 ^ 64) :
    Difference (front ++ [o]) lo hi (sub_finite (front ++ [o]) lo hi) ↔ Clear (Has front) lo hi o.msg_beg := by
  have hasO := has_last opened
  cases front with
  | nil =>
    simp only [List.nil_append, sub_finite, List.getLastD_nil, opened, ne_eq, not_true_eq_false, if_false]
    split
    · next before =>
      refine iff_of_true ⟨fun n => ⟨fun has => ⟨has, ?_⟩, And.left⟩, List.pairwise_singleton _ _⟩
        (.inl ⟨fun n has => absurd has (not_has_nil n), before, fun n has => absurd has (not_has_nil n)⟩)
      have := (hasO n).mp has
      omega
    · next reaches =>
      have clip : (if lo < o.msg_beg then o.msg_beg else lo) = max lo o.msg_beg := by
        split
        · omega
        · omega
      rw [clip, difference_congr (max lo o.msg_beg) hi fun n has => by have := (hasO n).mp has; omega]
      have walk : Difference ([] ++ [o]) (max lo o.msg_beg) hi (sub_loop (max lo o.msg_beg) hi ([] ++ [o])) ↔
          Cut (max lo o.msg_beg) hi [] (some o) :=
        sub_open_iff List.Pairwise.nil (by simp) (by omega) bounded opened small
      rw [List.nil_append] at walk
      rw [walk]
      refine iff_of_false ?_ ?_
      · rw [Cut, if_neg (by simp [Inside])]
        rintro ⟨-, less, -⟩
        have := le_reached (max lo o.msg_beg) []
        omega
      · rintro (⟨-, less, -⟩ | ⟨has, -⟩ | ⟨-, -, -, f, has, -⟩)
        · exact reaches less
        · exact not_has_nil hi has
        · exact not_has_nil f has
  | cons first rest =>
    have last : (rest ++ [o]).getLastD first = o := by simp
    simp only [List.cons_append, sub_finite, last, opened, ne_eq, not_true_eq_false, if_false]
    rw [← List.cons_append]
    have start := first_has rest (finite first List.mem_cons_self)
    split
    · next before =>
      constructor
      · rintro ⟨-, canonical'⟩
        have apart (n : Nat) (has : Has (first :: rest) n) : n + 1 < o.msg_beg := by
          obtain ⟨r, member, has⟩ := has
          have := ((List.pairwise_append.mp canonical').2.2 r member o (by simp)).2.2
          have := ((has_finite (finite r member) n).mp has).2
          omega
        have := apart _ start
        exact .inl ⟨fun n has => Nat.lt_of_lt_of_le before (first_le canonical has), by omega, apart⟩
      · rintro (⟨-, more, apart⟩ | ⟨has, -⟩ | ⟨less, -⟩)
        · refine ⟨fun n => ⟨fun has => ⟨has, ?_⟩, And.left⟩, List.pairwise_append.mpr ⟨canonical,
            List.pairwise_singleton _ _, fun r member o' only => ?_⟩⟩
          · rcases (has_append _ _ _).mp has with has | has
            · have := first_le canonical has
              omega
            · have := (hasO n).mp has
              omega
          · obtain rfl := List.mem_singleton.mp only
            have := finite r member
            have := apart r.msg_end ⟨r, member, (has_finite this _).mpr ⟨this.1, Nat.le_refl _⟩⟩
            exact ⟨by have := (finite r member).1; omega, finite_closed (finite r member), this⟩
        · exact absurd (first_le canonical has) (Nat.not_le_of_gt before)
        · exact absurd (less _ start) (by omega)
    · next reaches =>
      have clip : (if lo < first.msg_beg then first.msg_beg else lo) = max lo first.msg_beg := by
        split
        · omega
        · omega
      rw [clip, ← cut_iff canonical finite (by omega)]
      by_cases begins : o.msg_beg < first.msg_beg
      · refine iff_of_false (fun ⟨has, _⟩ => ?_) fun cut => ?_
        · have stays : Has (sub_loop (max lo first.msg_beg) hi (first :: rest ++ [o])) hi :=
            open_stays canonical finite (by omega) opened (by omega)
          exact ((has hi).mp stays).2 ⟨ordered, Nat.le_refl _⟩
        · have := le_reached (max lo first.msg_beg) (first :: rest)
          rw [Cut] at cut
          split at cut
          · omega
          · omega
      · rw [difference_congr (max lo first.msg_beg) hi, sub_open_iff canonical finite (by omega) bounded opened small]
        intro n has
        rcases (has_append _ _ _).mp has with has | has
        · have := first_le canonical has
          omega
        · have := (hasO n).mp has
          omega

/-! ## What calls make -/

/-- The ranges that belong to the open one when the set has been joined. -/
def Joins (mset : Msgset) (r : Msgrange) : Prop :=
  if mset.aggregated then r.msg_end = MU_MSGNO_LAST else Attached mset.list r

/-- The sets that there are: any ranges that have not been joined yet, and what joining them and taking out ranges
    before the largest number make of them. -/
inductive Reached : Msgset → Prop
  | fresh (list : List Msgrange) (mode : Nat) (valid : ∀ r ∈ list, r.Valid) : Reached ⟨list, false, mode⟩
  | aggregate {mset : Msgset} (reached : Reached mset) : Reached (mu_msgset_aggregate mset)
  | sub {mset : Msgset} (reached : Reached mset) (translate : Nat → Nat → Except Code (Nat × Nat)) (beg fin : Nat)
    (small : max beg fin + 1 < 2 ^ 64) : Reached (mu_msgset_sub_range translate mset beg fin mset.mode).2

theorem finite_valid (finite : Finite r) : r.Valid :=
  ⟨finite.2.1, .inr finite.1, Nat.lt_of_le_of_lt finite.1 finite.2.2, finite.2.2⟩

theorem sub_loop_nearly (nearly : Nearly front back) (ordered : lo ≤ hi) (small : hi + 1 < 2 ^ 64) :
    ∃ front' back', sub_loop lo hi (front ++ back) = front' ++ back' ∧ Nearly front' back' := by
  have finite := nearly_finite nearly
  have pieces : ∀ s ∈ front.filterMap (below lo) ++ front.filterMap (upper lo hi), Finite s := by
    intro s member
    rcases List.mem_append.mp member with member | member
    · obtain ⟨r, member, piece⟩ := List.mem_filterMap.mp member
      exact (below_piece (finite r member) piece).1
    · obtain ⟨r, member, piece⟩ := List.mem_filterMap.mp member
      exact (above_piece (finite r member) (upper_above piece).1).1
  have rest : ∀ back', (back' = [] ∨ ∃ o, back' = [o] ∧ o.msg_end = MU_MSGNO_LAST ∧ o.Valid) →
      Nearly (front.filterMap (below lo) ++ front.filterMap (upper lo hi)) back' := by
    rintro back' (rfl | ⟨o, rfl, opened, valid⟩)
    · exact ⟨remains_canonical nearly.canonical finite ordered, fun s member => finite_closed (pieces s member),
        fun s member => finite_valid (pieces s (by simpa using member)), .inl rfl⟩
    · exact ⟨remains_canonical nearly.canonical finite ordered, fun s member => finite_closed (pieces s member),
        List.forall_mem_append.mpr ⟨fun s member => finite_valid (pieces s member), by simpa using valid⟩,
        .inr ⟨o, rfl, opened⟩⟩
  refine ⟨_, _, sub_front back nearly.canonical finite ordered fun wraps => absurd wraps (by omega), rest _ ?_⟩
  rcases nearly.back with rfl | ⟨o, rfl, opened⟩
  · exact .inl (by rw [sub_loop, ite_self])
  · have kept : [o] = [] ∨ ∃ o', [o] = [o'] ∧ o'.msg_end = MU_MSGNO_LAST ∧ o'.Valid :=
      .inr ⟨o, rfl, opened, nearly.valid o (by simp)⟩
    have next : size (hi + 1) = hi + 1 := Nat.mod_eq_of_lt small
    rw [sub_last opened, next]
    split
    · exact kept
    split
    · exact .inl rfl
    split
    · exact .inr ⟨_, rfl, opened, Nat.succ_pos hi, .inl opened, small, by simp [opened, MU_MSGNO_LAST]⟩
    · exact kept

theorem sub_finite_nearly (nearly : Nearly front back) (ordered : lo ≤ hi) (small : hi + 1 < 2 ^ 64) :
    ∃ front' back', sub_finite (front ++ back) lo hi = front' ++ back' ∧ Nearly front' back' := by
  cases list : front ++ back with
  | nil => exact ⟨[], [], rfl, List.Pairwise.nil, by simp, by simp, .inl rfl⟩
  | cons first rest =>
    simp only [sub_finite, ← list]
    generalize from' : (if lo < first.msg_beg then first.msg_beg else lo) = lo'
    generalize to' : (if hi > (rest.getLastD first).msg_end then (rest.getLastD first).msg_end else hi) = hi'
    split
    · exact ⟨front, back, rfl, nearly⟩
    split
    · split
      · exact ⟨front, back, rfl, nearly⟩
      · exact sub_loop_nearly nearly (by split at from' <;> split at to' <;> omega) (by split at to' <;> omega)
    · exact sub_loop_nearly nearly (by split at from' <;> omega) small

theorem sub_back_suffix (beg : Nat) (list : List Msgrange) : sub_back beg list <:+ list := by
  induction list with
  | nil => exact List.suffix_rfl
  | cons range before ih =>
    rw [sub_back]
    split_ifs
    · exact ih.trans (List.suffix_cons _ _)
    · exact List.suffix_cons _ _
    · exact List.suffix_rfl

theorem nearly_take (nearly : Nearly front back) (k : Nat) :
    ∃ front' back', (front ++ back).take k = front' ++ back' ∧ Nearly front' back' := by
  have sub : (front ++ back).take k = front.take k ++ back.take (k - front.length) := List.take_append
  refine ⟨_, _, sub, nearly.canonical.sublist (List.take_sublist _ _),
    fun r member => nearly.closed r (List.mem_of_mem_take member),
    fun r member => nearly.valid r (List.mem_of_mem_take (sub ▸ member)), ?_⟩
  rcases nearly.back with rfl | ⟨o, rfl, opened⟩
  · exact .inl List.take_nil
  · cases k - front.length with
    | zero => exact .inl rfl
    | succ k => exact .inr ⟨o, by simp, opened⟩

/-- The ranges of a set, joined: which of its messages are in finite ranges and where the open one begins. -/
theorem aggregate_nearly {mset : Msgset} (valid : ∀ r ∈ mset.list, r.Valid)
    (marked : mset.aggregated = true → ∃ front back, mset.list = front ++ back ∧ Nearly front back) :
    ∃ front back, (mu_msgset_aggregate mset).list = front ++ back ∧ Nearly front back ∧
      (∀ n, Has (front ++ back) n ↔ Has mset.list n) ∧
      (∀ n, Has front n ↔ ∃ r ∈ mset.list, ¬ Joins mset r ∧ r.Has n) ∧
      ∀ n, Starts mset.list (Joins mset) n ↔ ∃ o ∈ back, o.msg_beg = n := by
  by_cases done : mset.aggregated = true
  · obtain ⟨front, back, split, nearly⟩ := marked done
    have opens : Joins mset = fun r => r.msg_end = MU_MSGNO_LAST := funext fun r => if_pos done
    have open_iff (r : Msgrange) : r ∈ front ++ back ∧ r.msg_end = MU_MSGNO_LAST ↔ r ∈ back := by
      rw [List.mem_append]
      constructor
      · rintro ⟨member | member, opened⟩
        · exact absurd opened (nearly.closed r member)
        · exact member
      · intro member
        rcases nearly.back with rfl | ⟨o, rfl, opened⟩
        · cases member
        · exact ⟨.inr member, List.mem_singleton.mp member ▸ opened⟩
    refine ⟨front, back, by rw [mu_msgset_aggregate, if_pos done, split], nearly, fun n => by rw [split], fun n => ?_,
      fun n => ?_⟩
    · rw [opens, split]
      constructor
      · rintro ⟨r, member, has⟩
        exact ⟨r, List.mem_append_left _ member, nearly.closed r member, has⟩
      · rintro ⟨r, member, closed, has⟩
        exact ⟨r, (List.mem_append.mp member).resolve_right fun other => closed ((open_iff r).mpr other).2, has⟩
    · rw [opens, split, Starts]
      constructor
      · rintro ⟨⟨r, member, opened, begins⟩, -⟩
        exact ⟨r, (open_iff r).mp ⟨member, opened⟩, begins⟩
      · rintro ⟨o, member, rfl⟩
        refine ⟨⟨o, ((open_iff o).mpr member).1, ((open_iff o).mpr member).2, rfl⟩, fun r member' opened => ?_⟩
        have member' := (open_iff r).mp ⟨member', opened⟩
        rcases nearly.back with rfl | ⟨o', rfl, -⟩
        · cases member
        · rw [List.mem_singleton.mp member, List.mem_singleton.mp member']
  · obtain ⟨front, back, split, outcome⟩ := aggregate_outcome mset (by simpa using done) valid
    have joins : Joins mset = Attached mset.list := funext fun r => if_neg done
    rw [joins]
    exact ⟨front, back, split, outcome.nearly, outcome.has, outcome.front, outcome.back⟩
end

theorem sub_range_finite (translate : Nat → Nat → Except Code (Nat × Nat)) (mset : Msgset) {beg fin : Nat}
    (finite : fin ≠ MU_MSGNO_LAST) (nonempty : mset.list ≠ []) :
    mu_msgset_sub_range translate mset beg fin mset.mode = (.ok, { mu_msgset_aggregate mset with
      list := sub_finite (mu_msgset_aggregate mset).list (min beg fin) (max beg fin) }) := by
  have pair : (if fin ≠ 0 ∧ beg > fin then (fin, beg) else (beg, fin)) = (min beg fin, max beg fin) := by
    simp only [MU_MSGNO_LAST] at finite
    split
    · rw [Nat.min_eq_right (by omega), Nat.max_eq_left (by omega)]
    · rw [Nat.min_eq_left (by omega), Nat.max_eq_right (by omega)]
  have last : max beg fin ≠ MU_MSGNO_LAST := by
    simp only [MU_MSGNO_LAST] at finite ⊢
    omega
  simp only [mu_msgset_sub_range, if_neg nonempty, pair, ne_eq, not_true_eq_false, if_false, if_neg last]

/-- A set holds valid ranges, and once they have been joined it is nearly in canonical form, whatever was taken out. -/
theorem Reached.nearly {mset : Msgset} (reached : Reached mset) : (∀ r ∈ mset.list, r.Valid) ∧
    (mset.aggregated = true → ∃ front back, mset.list = front ++ back ∧ Nearly front back) := by
  induction reached with
  | fresh list mode valid => exact ⟨valid, fun marked => by cases marked⟩
  | aggregate reached ih =>
    obtain ⟨front, back, split, nearly, -⟩ := aggregate_nearly ih.1 ih.2
    exact ⟨split ▸ nearly.valid, fun _ => ⟨front, back, split, nearly⟩⟩
  | @sub mset reached translate beg fin small ih =>
    by_cases empty : mset.list = []
    · rw [mu_msgset_sub_range, if_pos empty]
      exact ih
    obtain ⟨front, back, split, nearly, -⟩ := aggregate_nearly ih.1 ih.2
    obtain ⟨front', back', split', nearly'⟩ : ∃ front' back',
        (mu_msgset_sub_range translate mset beg fin mset.mode).2.list = front' ++ back' ∧ Nearly front' back' := by
      by_cases last : fin = MU_MSGNO_LAST
      · subst last
        have call : (mu_msgset_sub_range translate mset beg MU_MSGNO_LAST mset.mode).2.list =
            sub_msgno_last (mu_msgset_aggregate mset).list beg := by
          simp [mu_msgset_sub_range, empty, MU_MSGNO_LAST]
        rw [call, sub_msgno_last, split]
        split_ifs
        · exact ⟨[], [], rfl, List.Pairwise.nil, by simp, by simp, .inl rfl⟩
        · have before := List.reverse_prefix.mpr (sub_back_suffix beg (front ++ back).reverse)
          rw [List.reverse_reverse] at before
          rw [List.prefix_iff_eq_take.mp before]
          exact nearly_take nearly _
      · rw [sub_range_finite translate mset last empty, split]
        exact sub_finite_nearly nearly (by omega) small
    exact ⟨split' ▸ nearly'.valid, fun _ => ⟨front', back', split', nearly'⟩⟩

/-- When a range can be taken out of a set: `F` are the messages of the finite ranges that are not joined to the open
    one. -/
def Subtractable (mset : Msgset) (lo hi : Nat) : Prop :=
  let F n := ∃ r ∈ mset.list, ¬ Joins mset r ∧ r.Has n
  (∀ s, ¬ Starts mset.list (Joins mset) s) ∧ ¬ Drops F lo hi ∨
    ∃ s, Starts mset.list (Joins mset) s ∧ Clear F lo hi s

/-- The messages of a set in the mode of the call, without a range with an end, and
    in canonical form, for just these sets. -/
theorem sub_range_difference (translate : Nat → Nat → Except Code (Nat × Nat)) {mset : Msgset} (reached : Reached mset)
    (beg fin : Nat) (positive : 1 ≤ beg) (finite : fin ≠ MU_MSGNO_LAST) (small : beg < 2 ^ 64) (small' : fin < 2 ^ 64) :
    (∀ mset', mu_msgset_sub_range translate mset beg fin mset.mode = (.ok, mset') →
      (∀ n, Has mset'.list n ↔ Has mset.list n ∧ ¬ (min beg fin ≤ n ∧ n ≤ max beg fin)) ∧ Canonical mset'.list) ↔
      Subtractable mset (min beg fin) (max beg fin) := by
  by_cases empty : mset.list = []
  · refine iff_of_true (fun mset' call => ?_) (.inl ?_)
    · rw [mu_msgset_sub_range, if_pos empty] at call
      cases call
    · rw [empty]
      simp [Starts, Drops]
  · obtain ⟨front, back, split, nearly, has, finite', starts⟩ := aggregate_nearly reached.nearly.1 reached.nearly.2
    have outcome : (∀ mset', mu_msgset_sub_range translate mset beg fin mset.mode = (.ok, mset') →
        (∀ n, Has mset'.list n ↔ Has mset.list n ∧ ¬ (min beg fin ≤ n ∧ n ≤ max beg fin)) ∧ Canonical mset'.list) ↔
        Difference (front ++ back) (min beg fin) (max beg fin)
          (sub_finite (front ++ back) (min beg fin) (max beg fin)) := by
      rw [sub_range_finite translate mset finite empty, split, Difference]
      simp only [has]
      constructor
      · intro outcome
        exact outcome _ rfl
      · rintro outcome mset' call
        obtain rfl := (Prod.mk.inj call).2
        exact outcome
    have same : Has front = fun n => ∃ r ∈ mset.list, ¬ Joins mset r ∧ r.Has n := funext fun n => propext (finite' n)
    have finite := nearly_finite nearly
    rw [outcome, Subtractable, ← same]
    simp only [starts]
    rcases nearly.back with rfl | ⟨o, rfl, opened⟩
    · rw [List.append_nil, sub_finite_closed nearly.canonical finite (by omega) (by omega)]
      simp
    · rw [sub_finite_open nearly.canonical finite (by omega) (by omega) opened (nearly.valid o (by simp)).2.2.1]
      simp

/-- `1,5:10` without `3:6`. -/
theorem sub_range_difference_case :
    (∀ n, Has [⟨1, 1⟩, ⟨7, 10⟩] n ↔ Has [⟨1, 1⟩, ⟨5, 10⟩] n ∧ ¬ (3 ≤ n ∧ n ≤ 6)) ∧ Canonical [⟨1, 1⟩, ⟨7, 10⟩] := by
  have before : ∀ r ∈ [Msgrange.mk 1 1, ⟨5, 10⟩], ¬ compare_msgrange ⟨5, 10⟩ r < 0 := by decide
  -- nothing comes after `5:10`, which could be joined to nothing
  have apart : ∀ r ∈ [Msgrange.mk 1 1, ⟨5, 10⟩], ¬ Joins ⟨[⟨1, 1⟩, ⟨5, 10⟩], false, 0⟩ r := fun r member attached => by
    obtain ⟨t, member, later, -⟩ := attached ⟨5, 10⟩ (by decide) (by decide) (before r member)
    exact before t member later
  refine (sub_range_difference (fun _ _ => .error .failure) (.fresh [⟨1, 1⟩, ⟨5, 10⟩] 0 (by decide)) 3 6
    (by decide) (by decide) (by decide) (by decide)).mpr ?_ ⟨[⟨1, 1⟩, ⟨7, 10⟩], true, 0⟩ (by decide)
  refine .inl ⟨fun s starts => ?_, fun drops => ?_⟩
  · obtain ⟨⟨r, member, joins, -⟩, -⟩ := starts
    exact apart r member joins
  · obtain ⟨a, -, -, -, -, -, ⟨-, none⟩ | wraps⟩ := drops
    · exact none ⟨⟨5, 10⟩, by decide, apart _ (by decide), by decide⟩
    · exact absurd wraps (by decide)

/-- Of `1,5:7` without `3:6` the message 7 should be left; it is lost. -/
theorem sub_range_not_difference :
    (∀ r ∈ [Msgrange.mk 1 1, ⟨5, 7⟩], r.Valid) ∧
      mu_msgset_sub_range (fun _ _ => .error .failure) ⟨[⟨1, 1⟩, ⟨5, 7⟩], false, 0⟩ 3 6 0 =
        (.ok, ⟨[⟨1, 1⟩], true, 0⟩) ∧
      ¬ (Has [⟨1, 1⟩] 7 ↔ Has [⟨1, 1⟩, ⟨5, 7⟩] 7 ∧ ¬ (3 ≤ 7 ∧ 7 ≤ 6)) := by
  decide

end Mailutils.Subtract

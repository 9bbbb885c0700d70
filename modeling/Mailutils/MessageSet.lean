import Mailutils.ListSort
import Mathlib.Tactic.SplitIfs
import Mathlib.Order.MinMax
import Mathlib.Algebra.Group.Nat.Defs

/-!
Message sets: lists of message ranges, the last message of an open one being left to
the mailbox. `mu_msgset_aggregate` sorts the ranges, joins from the back what meets
the open ranges, and then from the front the rest. The walk from the back stops at
the first range with a gap behind it; an earlier one may be longer and reach over
that gap, and then it stays, overlapping the open range (`aggregate_canonical`).
-/
namespace Mailutils.MessageSet
open Mailutils.ListSort

/-- `msg_end` of a range that goes on to the last message. -/
def MU_MSGNO_LAST : Nat := 0

/-- A number as it is in a `size_t`. -/
def size (n : Nat) : Nat := n % 2 ^ 64

structure Msgrange where
  msg_beg : Nat
  msg_end : Nat
  deriving DecidableEq, Repr

structure Msgset where
  list : List Msgrange
  aggregated : Bool := false
  mode : Nat := 0
  deriving DecidableEq, Repr

/-- The result codes of the functions on message sets. -/
inductive Code
  | ok | EINVAL | MU_ERR_NOT_OPEN | MU_ERR_NOENT | MU_ERR_PARSE | failure
  deriving DecidableEq, Repr

def MU_MSGSET_NUM : Nat := 0
def MU_MSGSET_UID : Nat := 1

/-- What is asked of a mailbox. -/
structure Mailbox where
  messages_count : Except Code Nat
  uid_to_msgno : Nat → Except Code Nat
  msgno_to_uid : Nat → Except Code Nat
  uidnext : Except Code Nat

/-- The ranges a set may hold. -/
def Msgrange.Valid (r : Msgrange) : Prop :=
  1 ≤ r.msg_beg ∧ (r.msg_end = MU_MSGNO_LAST ∨ r.msg_beg ≤ r.msg_end) ∧ r.msg_beg < 2 ^ 64 ∧ r.msg_end < 2 ^ 64

instance (r : Msgrange) : Decidable r.Valid := inferInstanceAs (Decidable (_ ∧ _))

def Msgrange.Has (r : Msgrange) (n : Nat) : Prop :=
  r.msg_beg ≤ n ∧ (r.msg_end = MU_MSGNO_LAST ∨ n ≤ r.msg_end)

instance (r : Msgrange) (n : Nat) : Decidable (r.Has n) := inferInstanceAs (Decidable (_ ∧ _))

theorem has_open {r : Msgrange} (opened : r.msg_end = MU_MSGNO_LAST) (n : Nat) : r.Has n ↔ r.msg_beg ≤ n := by
  simp [Msgrange.Has, opened]

theorem has_closed {r : Msgrange} (closed : r.msg_end ≠ MU_MSGNO_LAST) (n : Nat) :
    r.Has n ↔ r.msg_beg ≤ n ∧ n ≤ r.msg_end := by
  simp [Msgrange.Has, closed]

/-- The messages in a list of ranges. -/
def Has (list : List Msgrange) (n : Nat) : Prop := ∃ r ∈ list, r.Has n

instance (list : List Msgrange) (n : Nat) : Decidable (Has list n) :=
  inferInstanceAs (Decidable (∃ r ∈ list, r.Has n))

/-- One range is before another, with at least one message between them. -/
def Apart (a b : Msgrange) : Prop :=
  a.msg_beg < b.msg_beg ∧ a.msg_end ≠ MU_MSGNO_LAST ∧ a.msg_end + 1 < b.msg_beg

instance (a b : Msgrange) : Decidable (Apart a b) := inferInstanceAs (Decidable (_ ∧ _))

/-- In increasing order, none touching another, and none but the last open. -/
def Canonical (list : List Msgrange) : Prop := list.Pairwise Apart

instance (list : List Msgrange) : Decidable (Canonical list) := inferInstanceAs (Decidable (list.Pairwise Apart))

theorem has_cons (r : Msgrange) (list : List Msgrange) (n : Nat) : Has (r :: list) n ↔ r.Has n ∨ Has list n := by
  simp [Has]

theorem has_append (front back : List Msgrange) (n : Nat) : Has (front ++ back) n ↔ Has front n ∨ Has back n := by
  simp [Has, or_and_right, exists_or]

theorem not_has_nil (n : Nat) : ¬ Has [] n := by simp [Has]

variable {list list' : List Msgrange}

theorem has_perm (perm : list.Perm list') (n : Nat) : Has list n ↔ Has list' n := by
  simp [Has, perm.mem_iff]

/-- Open ranges come last; the others, and the open ones among themselves, go by
    their first message. -/
def compare_msgrange (sa sb : Msgrange) : Int :=
  if sa.msg_end ≠ sb.msg_end ∧ sa.msg_end = MU_MSGNO_LAST then 1
  else if sa.msg_end ≠ sb.msg_end ∧ sb.msg_end = MU_MSGNO_LAST then -1
  else if sa.msg_beg < sb.msg_beg then -1
  else if sb.msg_beg < sa.msg_beg then 1
  else if sa.msg_end = sb.msg_end then 0
  else if sa.msg_end < sb.msg_end then -1
  else 1

theorem compare_lt (a b : Msgrange) : compare_msgrange a b < 0 ↔
    (a.msg_end ≠ MU_MSGNO_LAST ∧ b.msg_end = MU_MSGNO_LAST) ∨
    ((a.msg_end = MU_MSGNO_LAST ↔ b.msg_end = MU_MSGNO_LAST) ∧
      (a.msg_beg < b.msg_beg ∨ a.msg_beg = b.msg_beg ∧ a.msg_end < b.msg_end)) := by
  simp only [compare_msgrange, MU_MSGNO_LAST]
  split_ifs <;> omega

theorem compare_orders : Orders compare_msgrange where
  asymm a b := by
    simp only [compare_lt, MU_MSGNO_LAST]
    omega
  trans a b c := by
    simp only [compare_lt, MU_MSGNO_LAST]
    omega

theorem compare_antisymm (a b : Msgrange) (ab : ¬ compare_msgrange a b < 0) (ba : ¬ compare_msgrange b a < 0) :
    a = b := by
  simp only [compare_lt, MU_MSGNO_LAST] at ab ba
  obtain ⟨beg, fin⟩ := a
  obtain ⟨beg', fin'⟩ := b
  simp only [Msgrange.mk.injEq] at *
  omega

/-- The walk from the back over the ranges before the open range `last`, nearest
    first: what `last` becomes, and the ranges where the walk stops. -/
def join_last (last : Msgrange) : List Msgrange → Msgrange × List Msgrange
  | [] => (last, [])
  | mr :: before =>
    if mr.msg_end = MU_MSGNO_LAST then join_last { last with msg_beg := mr.msg_beg } before
    else if mr.msg_beg ≥ last.msg_beg then join_last last before
    else if size (mr.msg_end + 1) ≥ last.msg_beg then join_last { last with msg_beg := mr.msg_beg } before
    else (last, mr :: before)

/-- The walk from the front: `prev` is the range the next ones may be joined to. -/
def join_next (prev : Msgrange) : List Msgrange → List Msgrange
  | [] => [prev]
  | mr :: rest =>
    if mr.msg_end = MU_MSGNO_LAST then prev :: mr :: rest
    else if prev.msg_beg ≤ mr.msg_beg ∧ mr.msg_beg ≤ prev.msg_end then
      join_next { prev with msg_end := if mr.msg_end > prev.msg_end then mr.msg_end else prev.msg_end } rest
    else if size (prev.msg_end + 1) = mr.msg_beg then join_next { prev with msg_end := mr.msg_end } rest
    else prev :: join_next mr rest

/-- The walk from the back, over the ranges in that order. -/
def aggregate_back : List Msgrange → List Msgrange
  | [] => []
  | mr :: before =>
    if mr.msg_end = MU_MSGNO_LAST then (join_last mr before).1 :: (join_last mr before).2 else mr :: before

/-- The walk from the front, beginning with no range to join to. -/
def aggregate_front : List Msgrange → List Msgrange
  | [] => []
  | mr :: rest => if mr.msg_end = MU_MSGNO_LAST then mr :: rest else join_next mr rest

def mu_msgset_aggregate (mset : Msgset) : Msgset :=
  if mset.aggregated then mset
  else if mset.list.length < 2 then mset
  else
    { mset with
      list := aggregate_front (aggregate_back (mu_list_sort compare_msgrange mset.list).reverse).reverse
      aggregated := true }

/-- One range may stand before another in a sorted list. -/
def Before (a b : Msgrange) : Prop := ¬ compare_msgrange b a < 0

theorem before_beg {a b : Msgrange} (before : Before a b) (same : a.msg_end = MU_MSGNO_LAST ↔ b.msg_end = MU_MSGNO_LAST) :
    a.msg_beg ≤ b.msg_beg := by
  simp only [Before, compare_lt, MU_MSGNO_LAST] at before same
  omega

theorem before_open {a b : Msgrange} (before : Before a b) (opened : a.msg_end = MU_MSGNO_LAST) :
    b.msg_end = MU_MSGNO_LAST := by
  simp only [Before, compare_lt, MU_MSGNO_LAST] at before opened ⊢
  omega

/-- A finite range later in the order that reaches the messages from `b` on. -/
def Reaches (c : Msgrange) (b : Nat) : Prop := b ≤ c.msg_beg ∨ b ≤ size (c.msg_end + 1)

/-- What the walk from the back leaves: the open range, the ranges taken into it and
    the others, with where its first message comes from. -/
structure Joined (last : Msgrange) (before : List Msgrange) (last' : Msgrange) (taken rest : List Msgrange) : Prop where
  split : before = taken ++ rest
  opened : last'.msg_end = MU_MSGNO_LAST
  begins : last'.msg_beg = last.msg_beg ∨ ∃ r ∈ taken, last'.msg_beg = r.msg_beg
  least : ∀ r ∈ last :: taken, last'.msg_beg ≤ r.msg_beg
  closed : ∀ r ∈ rest, r.msg_end ≠ MU_MSGNO_LAST
  stops : ∀ c ∈ rest.head?, ¬ Reaches c last'.msg_beg
  reached : ∀ front c back, taken = front ++ c :: back → c.msg_end ≠ MU_MSGNO_LAST →
    ∃ r ∈ last :: front, Reaches c r.msg_beg
  has : ∀ n, Has (last' :: rest) n ↔ Has (last :: before) n

theorem Joined.step {last mr last₂ last' : Msgrange} {before taken rest : List Msgrange}
    (joined : Joined last₂ before last' taken rest)
    (origin : last₂.msg_beg = last.msg_beg ∨ last₂.msg_beg = mr.msg_beg)
    (le_last : last₂.msg_beg ≤ last.msg_beg) (le_mr : last₂.msg_beg ≤ mr.msg_beg)
    (reaches : mr.msg_end ≠ MU_MSGNO_LAST → Reaches mr last.msg_beg)
    (has : ∀ n, last₂.Has n ↔ last.Has n ∨ mr.Has n) : Joined last (mr :: before) last' (mr :: taken) rest where
  split := by rw [joined.split, List.cons_append]
  opened := joined.opened
  begins := by
    rcases joined.begins with same | ⟨r, member, same⟩
    · rcases origin with same' | same'
      · exact .inl (same.trans same')
      · exact .inr ⟨mr, List.mem_cons_self, same.trans same'⟩
    · exact .inr ⟨r, List.mem_cons_of_mem _ member, same⟩
  least := by
    have := joined.least last₂ List.mem_cons_self
    intro r member
    simp only [List.mem_cons] at member
    rcases member with rfl | rfl | member
    · exact Nat.le_trans this le_last
    · exact Nat.le_trans this le_mr
    · exact joined.least r (List.mem_cons_of_mem _ member)
  closed := joined.closed
  stops := joined.stops
  reached := by
    intro front c back split finite
    rcases front with - | ⟨first, front⟩
    · obtain ⟨rfl, -⟩ := List.cons.inj split
      exact ⟨last, List.mem_cons_self, reaches finite⟩
    · obtain ⟨rfl, split'⟩ := List.cons.inj split
      obtain ⟨r, member, reach⟩ := joined.reached front c back split' finite
      rcases List.mem_cons.mp member with rfl | member
      · rcases origin with same | same
        · exact ⟨last, List.mem_cons_self, same ▸ reach⟩
        · exact ⟨mr, by simp, same ▸ reach⟩
      · exact ⟨r, by simp [member], reach⟩
  has := by
    intro n
    rw [joined.has, has_cons, has_cons, has_cons, has, or_assoc]

private theorem join_last_joined {last : Msgrange} {before : List Msgrange} (opened : last.msg_end = MU_MSGNO_LAST)
    (sorted : before.Pairwise fun a b => Before b a) (valid : ∀ r ∈ before, r.Valid)
    (back : ∀ r ∈ before, r.msg_end = MU_MSGNO_LAST → r.msg_beg ≤ last.msg_beg) :
    ∃ taken, Joined last before (join_last last before).1 taken (join_last last before).2 := by
  induction before generalizing last with
  | nil =>
    refine ⟨[], ?_⟩
    simp only [join_last]
    exact ⟨rfl, opened, by simp, by simp, by simp, by simp, by simp, by simp⟩
  | cons mr before ih =>
    obtain ⟨first, sorted⟩ := List.pairwise_cons.mp sorted
    obtain ⟨validMr, valid⟩ := List.forall_mem_cons.mp valid
    obtain ⟨backMr, back⟩ := List.forall_mem_cons.mp back
    -- once a finite range is met, those before it are finite too
    have finite : mr.msg_end ≠ MU_MSGNO_LAST → ∀ r ∈ before, r.msg_end ≠ MU_MSGNO_LAST :=
      fun closed r member opened => closed (before_open (first r member) opened)
    obtain ⟨positive, ordered, -, bounded⟩ := validMr
    unfold join_last
    split
    · next mrOpen =>
      obtain ⟨taken, joined⟩ := @ih { last with msg_beg := mr.msg_beg } opened sorted valid
        fun r member rOpen => before_beg (b := mr) (first r member) (by simp [rOpen, mrOpen])
      have before_last := backMr mrOpen
      refine ⟨mr :: taken, joined.step (.inr rfl) before_last (Nat.le_refl _) (absurd mrOpen) fun n => ?_⟩
      rw [has_open (r := { last with msg_beg := mr.msg_beg }) opened, has_open opened, has_open mrOpen]
      dsimp only
      omega
    · next mrClosed =>
      have closed := finite mrClosed
      have ordered := ordered.resolve_left mrClosed
      split
      · next inside =>
        obtain ⟨taken, joined⟩ := @ih last opened sorted valid back
        refine ⟨mr :: taken, joined.step (.inl rfl) (Nat.le_refl _) inside (fun _ => .inl inside) fun n => ?_⟩
        rw [has_open opened, has_closed mrClosed]
        omega
      · next outside =>
        split
        · next meets =>
          obtain ⟨taken, joined⟩ := @ih { last with msg_beg := mr.msg_beg } opened sorted valid
            fun r member rOpen => absurd rOpen (closed r member)
          refine ⟨mr :: taken, joined.step (.inr rfl) (Nat.le_of_not_le outside) (Nat.le_refl _)
            (fun _ => .inr meets) fun n => ?_⟩
          rw [has_open (r := { last with msg_beg := mr.msg_beg }) opened, has_open opened, has_closed mrClosed]
          simp only [size] at meets
          dsimp only
          omega
        · next stops =>
          refine ⟨[], rfl, opened, by simp, by simp, ?_, ?_, by simp, by simp⟩
          · exact List.forall_mem_cons.mpr ⟨mrClosed, closed⟩
          · intro c head
            obtain rfl : mr = c := by simpa using head
            rintro (begins | meets)
            · exact outside begins
            · exact stops meets

/-- What the walk from the front makes of finite ranges in the order of their first
    messages. -/
structure Merged (first : Nat) (list list' : List Msgrange) : Prop where
  has : ∀ n, Has list' n ↔ Has list n
  canonical : Canonical list'
  closed : ∀ r ∈ list', r.msg_end ≠ MU_MSGNO_LAST
  valid : ∀ r ∈ list', r.Valid
  begins : ∀ r ∈ list', first ≤ r.msg_beg
  starts : ∀ r ∈ list', ∃ s ∈ list, r.msg_beg = s.msg_beg
  ends : ∀ r ∈ list', ∃ s ∈ list, r.msg_end = s.msg_end

private theorem join_next_merged {prev : Msgrange} {rest : List Msgrange}
    (sorted : (prev :: rest).Pairwise fun a b => a.msg_beg ≤ b.msg_beg)
    (closed : ∀ r ∈ prev :: rest, r.msg_end ≠ MU_MSGNO_LAST) (valid : ∀ r ∈ prev :: rest, r.Valid) :
    Merged prev.msg_beg (prev :: rest) (join_next prev rest) := by
  induction rest generalizing prev with
  | nil =>
    simp only [join_next]
    exact ⟨fun _ => .rfl, List.pairwise_singleton _ _, closed, valid, by simp, by simp, by simp⟩
  | cons mr rest ih =>
    obtain ⟨first, sorted⟩ := List.pairwise_cons.mp sorted
    obtain ⟨first', sorted'⟩ := List.pairwise_cons.mp sorted
    obtain ⟨closedPrev, closed⟩ := List.forall_mem_cons.mp closed
    obtain ⟨closedMr, closedRest⟩ := List.forall_mem_cons.mp closed
    obtain ⟨validPrev, valid⟩ := List.forall_mem_cons.mp valid
    obtain ⟨validMr, validRest⟩ := List.forall_mem_cons.mp valid
    have below := first mr List.mem_cons_self
    obtain ⟨positive, ordered, bounded, bounded'⟩ := validPrev
    have ordered := ordered.resolve_left closedPrev
    have orderedMr := validMr.2.1.resolve_left closedMr
    -- the two joins differ in the last message only
    have joined (last : Nat) (origin : last = prev.msg_end ∨ last = mr.msg_end) (le_prev : prev.msg_end ≤ last)
        (le_mr : mr.msg_end ≤ last) (meets : mr.msg_beg ≤ prev.msg_end + 1) :
        Merged prev.msg_beg (prev :: mr :: rest) (join_next { prev with msg_end := last } rest) := by
      have closedLast : last ≠ MU_MSGNO_LAST := by
        rcases origin with rfl | rfl
        · exact closedPrev
        · exact closedMr
      have small : last < 2 ^ 64 := by
        rcases origin with rfl | rfl
        · exact bounded'
        · exact validMr.2.2.2
      have merged := @ih { prev with msg_end := last }
        (List.pairwise_cons.mpr ⟨fun r member => first r (List.mem_cons_of_mem _ member), sorted'⟩)
        (List.forall_mem_cons.mpr ⟨closedLast, closedRest⟩)
        (List.forall_mem_cons.mpr ⟨⟨positive, .inr (Nat.le_trans ordered le_prev), bounded, small⟩, validRest⟩)
      refine ⟨fun n => ?_, merged.canonical, merged.closed, merged.valid, merged.begins, fun r member => ?_,
        fun r member => ?_⟩
      · rw [merged.has, has_cons, has_cons, has_cons, ← or_assoc]
        refine or_congr ?_ .rfl
        rw [has_closed (r := { prev with msg_end := last }) closedLast, has_closed closedPrev, has_closed closedMr]
        dsimp only
        omega
      · obtain ⟨s, origin', same⟩ := merged.starts r member
        rcases List.mem_cons.mp origin' with rfl | origin'
        · exact ⟨prev, by simp, same⟩
        · exact ⟨s, by simp [origin'], same⟩
      · obtain ⟨s, origin', same⟩ := merged.ends r member
        rcases List.mem_cons.mp origin' with rfl | origin'
        · rcases origin with rfl | rfl
          · exact ⟨prev, by simp, same⟩
          · exact ⟨mr, by simp, same⟩
        · exact ⟨s, by simp [origin'], same⟩
    unfold join_next
    rw [if_neg closedMr]
    split
    · next inside =>
      split
      · next longer => exact joined mr.msg_end (.inr rfl) (Nat.le_of_lt longer) (Nat.le_refl _) (by omega)
      · next shorter => exact joined prev.msg_end (.inl rfl) (Nat.le_refl _) (by omega) (by omega)
    · next outside =>
      split
      · next meets =>
        simp only [size] at meets
        exact joined mr.msg_end (.inr rfl) (by omega) (Nat.le_refl _) (by omega)
      · next gap =>
        have beyond : prev.msg_end + 1 < mr.msg_beg := by
          have := validMr.2.2.1
          simp only [size] at gap
          omega
        have merged := ih sorted closed valid
        refine ⟨fun n => ?_, List.pairwise_cons.mpr ⟨fun r member => ?_, merged.canonical⟩,
          List.forall_mem_cons.mpr ⟨closedPrev, merged.closed⟩,
          List.forall_mem_cons.mpr ⟨⟨positive, .inr ordered, bounded, bounded'⟩, merged.valid⟩,
          List.forall_mem_cons.mpr ⟨Nat.le_refl _, fun r member => ?_⟩, ?_, ?_⟩
        · rw [has_cons, merged.has, has_cons prev]
        · have := merged.begins r member
          exact ⟨by omega, closedPrev, by omega⟩
        · exact Nat.le_trans below (merged.begins r member)
        · refine List.forall_mem_cons.mpr ⟨⟨prev, by simp, rfl⟩, fun r member => ?_⟩
          obtain ⟨s, origin, same⟩ := merged.starts r member
          exact ⟨s, List.mem_cons_of_mem _ origin, same⟩
        · refine List.forall_mem_cons.mpr ⟨⟨prev, by simp, rfl⟩, fun r member => ?_⟩
          obtain ⟨s, origin, same⟩ := merged.ends r member
          exact ⟨s, List.mem_cons_of_mem _ origin, same⟩

theorem join_next_last {prev last : Msgrange} {rest : List Msgrange} (opened : last.msg_end = MU_MSGNO_LAST)
    (closed : ∀ r ∈ rest, r.msg_end ≠ MU_MSGNO_LAST) :
    join_next prev (rest ++ [last]) = join_next prev rest ++ [last] := by
  induction rest generalizing prev with
  | nil => simp [join_next, opened]
  | cons mr rest ih =>
    obtain ⟨closedMr, closed⟩ := List.forall_mem_cons.mp closed
    simp only [List.cons_append, join_next, if_neg closedMr, ih closed]
    split_ifs
    · rfl
    · rfl
    · rfl
    · rfl

/-- The walk from the back does not stop too early: behind a range from whose end on
    no message is missing, a later one begins before the gap. -/
def Joinable (list : List Msgrange) : Prop :=
  ∀ c ∈ list, c.msg_end ≠ MU_MSGNO_LAST → (∀ n > c.msg_end, Has list n) →
    ∃ r ∈ list, compare_msgrange c r < 0 ∧ Reaches c r.msg_beg

theorem has_bounded {list : List Msgrange} (closed : ∀ r ∈ list, r.msg_end ≠ MU_MSGNO_LAST) :
    ∃ bound, ∀ n, Has list n → n < bound := by
  induction list with
  | nil => exact ⟨0, fun n has => absurd has (not_has_nil n)⟩
  | cons r list ih =>
    obtain ⟨closedR, closed⟩ := List.forall_mem_cons.mp closed
    obtain ⟨bound, below⟩ := ih closed
    refine ⟨bound + r.msg_end + 1, fun n has => ?_⟩
    rcases (has_cons r list n).mp has with has | has
    · have := ((has_closed closedR n).mp has).2
      omega
    · have := below n has
      omega

theorem joinable_closed {list : List Msgrange} (closed : ∀ r ∈ list, r.msg_end ≠ MU_MSGNO_LAST) : Joinable list := by
  intro c member closedC on
  obtain ⟨bound, below⟩ := has_bounded closed
  have := below (bound + c.msg_end + 1) (on _ (by omega))
  omega

section
variable {last last' : Msgrange} {before taken rest : List Msgrange}

theorem Joined.witness (joined : Joined last before last' taken rest) (opened : last.msg_end = MU_MSGNO_LAST)
    (sorted : (last :: before).Pairwise fun a b => Before b a) (front back : List Msgrange) (c : Msgrange)
    (split : taken = front ++ c :: back) (closed : c.msg_end ≠ MU_MSGNO_LAST) :
    ∃ r ∈ last :: before, compare_msgrange c r < 0 ∧ Reaches c r.msg_beg := by
  induction length : front.length using Nat.strong_induction_on generalizing front back with
  | _ k ih =>
    obtain ⟨r, member, reaches⟩ := joined.reached front c back split closed
    have whole : last :: before = (last :: front) ++ (c :: (back ++ rest)) := by
      rw [joined.split, split]
      simp
    have later : Before c r := by
      rw [whole] at sorted
      exact (List.pairwise_append.mp sorted).2.2 r member c List.mem_cons_self
    by_cases less : compare_msgrange c r < 0
    · exact ⟨r, whole ▸ List.mem_append_left _ member, less, reaches⟩
    · -- `r` is the same range once more; it has been taken in before
      obtain rfl := compare_antisymm c r less later
      rcases List.mem_cons.mp member with rfl | member
      · exact absurd opened closed
      · obtain ⟨front₁, front₂, split'⟩ := List.append_of_mem member
        refine ih front₁.length ?_ front₁ (front₂ ++ c :: back) ?_ rfl
        · rw [← length, split']
          simp
        · rw [split, split']
          simp

theorem Joined.begins_lt (joined : Joined last before last' taken rest)
    (sorted : rest.Pairwise fun a b => Before b a) : ∀ r ∈ rest, r.msg_beg < last'.msg_beg := by
  intro r member
  obtain ⟨c, tail, rfl⟩ := List.exists_cons_of_ne_nil (List.ne_nil_of_mem member)
  have stops : ¬ last'.msg_beg ≤ c.msg_beg := fun begins => joined.stops c rfl (.inl begins)
  rcases List.mem_cons.mp member with rfl | member'
  · omega
  · have := before_beg ((List.pairwise_cons.mp sorted).1 r member')
      (by simp [joined.closed r member, joined.closed c List.mem_cons_self])
    omega

theorem Joined.joinable_iff (joined : Joined last before last' taken rest) (opened : last.msg_end = MU_MSGNO_LAST)
    (sorted : (last :: before).Pairwise fun a b => Before b a) (valid : ∀ r ∈ rest, r.Valid) :
    Joinable (last :: before) ↔ ∀ r ∈ rest, r.msg_end + 1 < last'.msg_beg := by
  constructor
  · intro joinable
    by_contra some_meets
    push Not at some_meets
    obtain ⟨a, member, meets⟩ := some_meets
    obtain ⟨c, tail, split⟩ : ∃ c tail, rest = c :: tail := List.exists_cons_of_ne_nil (List.ne_nil_of_mem member)
    subst split
    have stops := joined.stops c rfl
    have finite := joined.closed c List.mem_cons_self
    have ordered := (valid c List.mem_cons_self).2.1.resolve_left finite
    have among : ∀ r ∈ c :: tail, Before r c := by
      have sorted : (c :: tail).Pairwise fun a b => Before b a := by
        rw [joined.split] at sorted
        exact (List.pairwise_append.mp (List.pairwise_cons.mp sorted).2).2.1
      refine List.forall_mem_cons.mpr ⟨?_, (List.pairwise_cons.mp sorted).1⟩
      exact fun less => compare_orders.asymm c c less less
    have on : ∀ n > c.msg_end, Has (last :: before) n := by
      intro n beyond
      refine (joined.has n).mp ?_
      by_cases inside : last'.msg_beg ≤ n
      · exact ⟨last', List.mem_cons_self, (has_open joined.opened n).mpr inside⟩
      · refine ⟨a, List.mem_cons_of_mem _ member, (has_closed (joined.closed a member) n).mpr ?_⟩
        have := before_beg (among a member) (by simp [joined.closed a member, finite])
        omega
    obtain ⟨r, origin, later, reaches⟩ := joinable c (by simp [joined.split]) finite on
    rw [joined.split, ← List.cons_append] at origin
    rcases List.mem_append.mp origin with took | left
    · have least := joined.least r took
      rcases reaches with begins | begins
      · exact stops (.inl (Nat.le_trans least begins))
      · exact stops (.inr (Nat.le_trans least begins))
    · exact among r left later
  · intro apart c member closed on
    rw [joined.split] at member
    rcases List.mem_cons.mp member with rfl | member
    · exact absurd opened closed
    rcases List.mem_append.mp member with taken' | left
    · obtain ⟨front, back, split⟩ := List.append_of_mem taken'
      exact joined.witness opened sorted front back c split closed
    · -- nothing covers the message before the open range
      exfalso
      have gap := apart c left
      have has := (joined.has (last'.msg_beg - 1)).mpr (on _ (by omega))
      rcases (has_cons _ _ _).mp has with has | ⟨r, member, has⟩
      · have := (has_open joined.opened _).mp has
        omega
      · have := ((has_closed (joined.closed r member) _).mp has).2
        have := apart r member
        omega
end

/-- The walk from the back takes the range into the open one: each finite range from it
    on in the order is met by a later one. -/
def Attached (list : List Msgrange) (r : Msgrange) : Prop :=
  ∀ c ∈ list, c.msg_end ≠ MU_MSGNO_LAST → Before r c → ∃ t ∈ list, compare_msgrange c t < 0 ∧ Reaches c t.msg_beg

theorem attached_perm (perm : list.Perm list') (r : Msgrange) :
    Attached list r ↔ Attached list' r := by
  simp only [Attached, perm.mem_iff]

theorem not_attached {last : Msgrange} {before : List Msgrange}
    (sorted : (last :: before).Pairwise fun a b => Before b a) (closed : last.msg_end ≠ MU_MSGNO_LAST) :
    ∀ r ∈ last :: before, ¬ Attached (last :: before) r := by
  have greatest : ∀ r ∈ last :: before, Before r last :=
    List.forall_mem_cons.mpr ⟨fun less => compare_orders.asymm _ _ less less, (List.pairwise_cons.mp sorted).1⟩
  intro r member attached
  obtain ⟨t, member, later, -⟩ := attached last List.mem_cons_self closed (greatest r member)
  exact greatest t member later

theorem Joined.attached {last last' : Msgrange} {before taken rest : List Msgrange}
    (joined : Joined last before last' taken rest) (opened : last.msg_end = MU_MSGNO_LAST)
    (sorted : (last :: before).Pairwise fun a b => Before b a) :
    (∀ r ∈ last :: taken, Attached (last :: before) r) ∧ ∀ r ∈ rest, ¬ Attached (last :: before) r := by
  have whole : last :: before = (last :: taken) ++ rest := by rw [joined.split, List.cons_append]
  obtain ⟨-, sortedRest, across⟩ := List.pairwise_append.mp (whole ▸ sorted)
  refine ⟨fun r member c member' closed later => ?_, fun r member attached => ?_⟩
  · have taken' : c ∈ last :: taken := by
      rcases List.mem_append.mp (whole ▸ member') with here | left
      · exact here
      · -- a range that is left is not behind one that was taken, unless it is the same
        exact compare_antisymm r c (across r member c left) later ▸ member
    obtain ⟨front, back, split⟩ := List.append_of_mem ((List.mem_cons.mp taken').resolve_left fun same => closed (same ▸ opened))
    exact joined.witness opened sorted front back c split closed
  · obtain ⟨c, tail, rfl⟩ := List.exists_cons_of_ne_nil (List.ne_nil_of_mem member)
    have greatest : ∀ r ∈ c :: tail, Before r c :=
      List.forall_mem_cons.mpr ⟨fun less => compare_orders.asymm _ _ less less, (List.pairwise_cons.mp sortedRest).1⟩
    obtain ⟨t, origin, later, reaches⟩ := attached c (whole ▸ List.mem_append_right _ List.mem_cons_self)
      (joined.closed c List.mem_cons_self) (greatest r member)
    rcases List.mem_append.mp (whole ▸ origin) with took | left
    · exact joined.stops c rfl (reaches.imp (Nat.le_trans (joined.least t took)) (Nat.le_trans (joined.least t took)))
    · exact greatest t left later

/-- Finite ranges in canonical form, and behind them at most an open one. -/
structure Nearly (front back : List Msgrange) : Prop where
  canonical : Canonical front
  closed : ∀ r ∈ front, r.msg_end ≠ MU_MSGNO_LAST
  valid : ∀ r ∈ front ++ back, r.Valid
  back : back = [] ∨ ∃ o, back = [o] ∧ o.msg_end = MU_MSGNO_LAST

/-- The first message of the ranges with a property. -/
def Starts (list : List Msgrange) (P : Msgrange → Prop) (n : Nat) : Prop :=
  (∃ r ∈ list, P r ∧ r.msg_beg = n) ∧ ∀ r ∈ list, P r → n ≤ r.msg_beg

theorem canonical_snoc {front : List Msgrange} {o : Msgrange} (canonical : Canonical front)
    (closed : ∀ r ∈ front, r.msg_end ≠ MU_MSGNO_LAST) (begins : ∀ r ∈ front, r.msg_beg < o.msg_beg) :
    Canonical (front ++ [o]) ↔ ∀ r ∈ front, r.msg_end + 1 < o.msg_beg := by
  unfold Canonical at *
  rw [List.pairwise_append]
  constructor
  · rintro ⟨-, -, apart⟩ r member
    exact (apart r member o (by simp)).2.2
  · intro apart
    refine ⟨canonical, List.pairwise_singleton _ _, fun r member o' only => ?_⟩
    obtain rfl : o' = o := by simpa using only
    exact ⟨begins r member, closed r member, apart r member⟩

/-- The outcome of the two walks over sorted ranges. -/
structure Outcome (list front back : List Msgrange) : Prop where
  nearly : Nearly front back
  has : ∀ n, Has (front ++ back) n ↔ Has list n
  canonical : Canonical (front ++ back) ↔ Joinable list
  front : ∀ n, Has front n ↔ ∃ r ∈ list, ¬ Attached list r ∧ r.Has n
  back : ∀ n, Starts list (Attached list) n ↔ ∃ o ∈ back, o.msg_beg = n

theorem Merged.ends_lt {first bound : Nat} (merged : Merged first list list')
    (closed : ∀ r ∈ list, r.msg_end ≠ MU_MSGNO_LAST) (valid : ∀ r ∈ list, r.Valid) :
    (∀ r ∈ list', r.msg_end + 1 < bound) ↔ ∀ r ∈ list, r.msg_end + 1 < bound := by
  constructor
  · intro below r member
    have own : r.Has r.msg_end :=
      (has_closed (closed r member) _).mpr ⟨(valid r member).2.1.resolve_left (closed r member), Nat.le_refl _⟩
    obtain ⟨x, member', has⟩ := (merged.has r.msg_end).mpr ⟨r, member, own⟩
    have := ((has_closed (merged.closed x member') _).mp has).2
    have := below x member'
    omega
  · intro below r member
    obtain ⟨s, member', same⟩ := merged.ends r member
    exact same ▸ below s member'

theorem joinable_perm (perm : list.Perm list') : Joinable list ↔ Joinable list' := by
  simp only [Joinable, perm.mem_iff, has_perm perm]

theorem front_merged {list : List Msgrange} (sorted : list.Pairwise Before) (ne : list ≠ [])
    (closed : ∀ r ∈ list, r.msg_end ≠ MU_MSGNO_LAST) (valid : ∀ r ∈ list, r.Valid) :
    ∃ first rest, list = first :: rest ∧ Merged first.msg_beg list (join_next first rest) := by
  obtain ⟨first, rest, rfl⟩ := List.exists_cons_of_ne_nil ne
  refine ⟨first, rest, rfl, join_next_merged ?_ closed valid⟩
  refine sorted.imp_of_mem fun {a b} memberA memberB before => before_beg before ?_
  simp [closed a memberA, closed b memberB]

theorem closed_outcome {last : Msgrange} {before : List Msgrange}
    (sorted : (last :: before).Pairwise fun a b => Before b a) (valid : ∀ r ∈ last :: before, r.Valid)
    (closedLast : last.msg_end ≠ MU_MSGNO_LAST) :
    ∃ front, aggregate_front (last :: before).reverse = front ++ [] ∧ Outcome (last :: before) front [] := by
  have closed : ∀ r ∈ last :: before, r.msg_end ≠ MU_MSGNO_LAST := by
    refine List.forall_mem_cons.mpr ⟨closedLast, fun r member rOpen => ?_⟩
    exact closedLast (before_open ((List.pairwise_cons.mp sorted).1 r member) rOpen)
  have perm := List.reverse_perm (last :: before)
  obtain ⟨first, rest, split, merged⟩ := front_merged (List.pairwise_reverse.mpr sorted) (by simp)
    (fun r member => closed r (perm.mem_iff.mp member)) (fun r member => valid r (perm.mem_iff.mp member))
  have walk : aggregate_front (last :: before).reverse = join_next first rest := by
    have : first.msg_end ≠ MU_MSGNO_LAST := closed first (perm.mem_iff.mp (split ▸ List.mem_cons_self))
    rw [split, aggregate_front, if_neg this]
  refine ⟨join_next first rest, by rw [walk, List.append_nil], ?_⟩
  constructor
  · exact ⟨merged.canonical, merged.closed, by simpa using merged.valid, .inl rfl⟩
  · intro n
    rw [List.append_nil, merged.has, has_perm perm]
  · rw [List.append_nil]
    exact ⟨fun _ => joinable_closed closed, fun _ => merged.canonical⟩
  · intro n
    rw [merged.has, has_perm perm]
    exact exists_congr fun r => and_congr_right fun member =>
      (and_iff_right (not_attached sorted closedLast r member)).symm
  · intro n
    refine iff_of_false ?_ (by simp)
    rintro ⟨⟨r, member, attached, -⟩, -⟩
    exact not_attached sorted closedLast r member attached

theorem open_outcome {last : Msgrange} {before : List Msgrange}
    (sorted : (last :: before).Pairwise fun a b => Before b a) (valid : ∀ r ∈ last :: before, r.Valid)
    (opened : last.msg_end = MU_MSGNO_LAST) :
    ∃ front, aggregate_front ((join_last last before).1 :: (join_last last before).2).reverse =
        front ++ [(join_last last before).1] ∧ Outcome (last :: before) front [(join_last last before).1] := by
  obtain ⟨first, sorted'⟩ := List.pairwise_cons.mp sorted
  obtain ⟨taken, joined⟩ := join_last_joined opened sorted'
    (fun r member => valid r (List.mem_cons_of_mem _ member))
    fun r member rOpen => before_beg (first r member) (by simp [rOpen, opened])
  generalize (join_last last before).1 = last' at joined ⊢
  generalize (join_last last before).2 = rest at joined ⊢
  have validRest : ∀ r ∈ rest, r.Valid := fun r member => valid r (by simp [joined.split, member])
  have validLast : last'.Valid := by
    have (r : Msgrange) (member : r ∈ last :: before) (same : last'.msg_beg = r.msg_beg) : last'.Valid :=
      ⟨same ▸ (valid r member).1, .inl joined.opened, same ▸ (valid r member).2.2.1, by simp [joined.opened, MU_MSGNO_LAST]⟩
    rcases joined.begins with same | ⟨r, member, same⟩
    · exact this last List.mem_cons_self same
    · exact this r (by simp [joined.split, member]) same
  have joinable := joined.joinable_iff opened sorted validRest
  have perm := List.reverse_perm rest
  obtain ⟨attached, others⟩ := joined.attached opened sorted
  have left (n : Nat) : Has rest n ↔ ∃ r ∈ last :: before, ¬ Attached (last :: before) r ∧ r.Has n := by
    constructor
    · rintro ⟨r, member, has⟩
      exact ⟨r, by simp [joined.split, member], others r member, has⟩
    · rintro ⟨r, member, other, has⟩
      rw [joined.split, ← List.cons_append] at member
      exact ⟨r, (List.mem_append.mp member).resolve_left fun took => other (attached r took), has⟩
  have starts (n : Nat) : Starts (last :: before) (Attached (last :: before)) n ↔ ∃ o ∈ [last'], o.msg_beg = n := by
    have first : Starts (last :: before) (Attached (last :: before)) last'.msg_beg := by
      refine ⟨?_, fun r member there => ?_⟩
      · rcases joined.begins with same | ⟨r, member, same⟩
        · exact ⟨last, List.mem_cons_self, attached last List.mem_cons_self, same.symm⟩
        · exact ⟨r, by simp [joined.split, member], attached r (List.mem_cons_of_mem _ member), same.symm⟩
      · rw [joined.split, ← List.cons_append] at member
        exact joined.least r ((List.mem_append.mp member).resolve_right fun other => others r other there)
    constructor
    · rintro ⟨⟨r, member, there, rfl⟩, least⟩
      obtain ⟨⟨s, member', there', same⟩, least'⟩ := first
      exact ⟨last', by simp, Nat.le_antisymm (least' r member there) (same ▸ least s member' there')⟩
    · rintro ⟨o, member, rfl⟩
      rwa [List.mem_singleton.mp member]
  rw [List.reverse_cons]
  by_cases none_left : rest = []
  · subst none_left
    refine ⟨[], by simp [aggregate_front, joined.opened], ?_⟩
    constructor
    · exact ⟨List.Pairwise.nil, by simp, by simpa using validLast, .inr ⟨last', rfl, joined.opened⟩⟩
    · exact joined.has
    · simp [Canonical, joinable]
    · exact left
    · exact starts
  · have sortedRest : rest.Pairwise fun a b => Before b a := by
      rw [joined.split] at sorted'
      exact (List.pairwise_append.mp sorted').2.1
    obtain ⟨head, tail, split, merged⟩ := front_merged (List.pairwise_reverse.mpr sortedRest) (by simpa using none_left)
      (fun r member => joined.closed r (perm.mem_iff.mp member)) (fun r member => validRest r (perm.mem_iff.mp member))
    have closed : ∀ r ∈ head :: tail, r.msg_end ≠ MU_MSGNO_LAST :=
      fun r member => joined.closed r (perm.mem_iff.mp (split ▸ member))
    obtain ⟨closedHead, closedTail⟩ := List.forall_mem_cons.mp closed
    refine ⟨join_next head tail, ?_, ?_⟩
    · rw [split, List.cons_append, aggregate_front, if_neg closedHead, join_next_last joined.opened closedTail]
    have begins : ∀ r ∈ join_next head tail, r.msg_beg < last'.msg_beg := by
      intro r member
      obtain ⟨s, member', same⟩ := merged.starts r member
      exact same ▸ joined.begins_lt sortedRest s (perm.mem_iff.mp member')
    constructor
    · exact ⟨merged.canonical, merged.closed, List.forall_mem_append.mpr ⟨merged.valid, by simpa using validLast⟩,
        .inr ⟨last', rfl, joined.opened⟩⟩
    · intro n
      rw [has_append, merged.has, has_perm perm, ← joined.has, has_cons, or_comm]
      simp [Has]
    · rw [canonical_snoc merged.canonical merged.closed begins, joinable, merged.ends_lt
        (fun r member => joined.closed r (perm.mem_iff.mp member)) fun r member => validRest r (perm.mem_iff.mp member)]
      simp
    · intro n
      rw [merged.has, has_perm perm, left]
    · exact starts

theorem walks_outcome {last : Msgrange} {before : List Msgrange}
    (sorted : (last :: before).Pairwise fun a b => Before b a) (valid : ∀ r ∈ last :: before, r.Valid) :
    ∃ front back, aggregate_front (aggregate_back (last :: before)).reverse = front ++ back ∧
      Outcome (last :: before) front back := by
  simp only [aggregate_back]
  split
  · next opened =>
    obtain ⟨front, walks, outcome⟩ := open_outcome sorted valid opened
    exact ⟨front, _, walks, outcome⟩
  · next closed =>
    obtain ⟨front, walks, outcome⟩ := closed_outcome sorted valid closed
    exact ⟨front, [], walks, outcome⟩

/-- What `mu_msgset_aggregate` makes of ranges it has not yet joined. -/
theorem aggregate_outcome (mset : Msgset) (fresh : mset.aggregated = false) (valid : ∀ r ∈ mset.list, r.Valid) :
    ∃ front back, (mu_msgset_aggregate mset).list = front ++ back ∧ Outcome mset.list front back := by
  unfold mu_msgset_aggregate
  rw [if_neg (by simp [fresh])]
  split
  · next short =>
    rcases list : mset.list with - | ⟨r, - | ⟨s, rest⟩⟩
    · exact ⟨[], [], rfl, ⟨List.Pairwise.nil, by simp, by simp, .inl rfl⟩, fun _ => .rfl,
        by simp [Canonical, Joinable], by simp [Has], by simp [Starts]⟩
    · obtain ⟨front, back, walks, outcome⟩ := walks_outcome (List.pairwise_singleton _ r) (list ▸ valid)
      refine ⟨front, back, .trans ?_ walks, outcome⟩
      simp [aggregate_back, aggregate_front, join_last, join_next]
    · simp only [list, List.length_cons] at short
      omega
  · next long =>
    have perm : (mu_list_sort compare_msgrange mset.list).reverse.Perm mset.list :=
      (List.reverse_perm _).trans (mu_list_sort_perm _ _)
    have sorted : (mu_list_sort compare_msgrange mset.list).reverse.Pairwise fun a b => Before b a :=
      List.pairwise_reverse.mpr (mu_list_sort_sorted compare_orders mset.list)
    dsimp only
    generalize (mu_list_sort compare_msgrange mset.list).reverse = order at perm sorted ⊢
    rcases order with - | ⟨last, before⟩
    · have := perm.length_eq
      simp only [List.length_nil] at this
      omega
    · obtain ⟨front, back, walks, outcome⟩ := walks_outcome sorted fun r member => valid r (perm.mem_iff.mp member)
      refine ⟨front, back, walks, outcome.nearly, fun n => ?_, ?_, fun n => ?_, fun n => ?_⟩
      · rw [outcome.has, has_perm perm]
      · rw [outcome.canonical, joinable_perm perm]
      · rw [outcome.front]
        simp only [perm.mem_iff, attached_perm perm]
      · rw [← outcome.back]
        simp only [Starts, perm.mem_iff, attached_perm perm]

/-- A set says that it is joined only when it is; and if it does not say so, the walk
    from the back does not stop too early. -/
def Aggregable (mset : Msgset) : Prop :=
  if mset.aggregated then Canonical mset.list else Joinable mset.list

/-- The messages are the same and the ranges in canonical form after
    `mu_msgset_aggregate`, for just these sets. -/
theorem aggregate_canonical (mset : Msgset) (valid : ∀ r ∈ mset.list, r.Valid) :
    ((∀ n, Has (mu_msgset_aggregate mset).list n ↔ Has mset.list n) ∧ Canonical (mu_msgset_aggregate mset).list) ↔
      Aggregable mset := by
  unfold Aggregable
  split
  · next done => simp [mu_msgset_aggregate, done]
  · next fresh =>
    obtain ⟨front, back, walks, outcome⟩ := aggregate_outcome mset (by simpa using fresh) valid
    rw [walks, outcome.canonical]
    exact ⟨And.right, fun joinable => ⟨outcome.has, joinable⟩⟩

/-- `1,12:*` stays as it is. -/
theorem aggregate_canonical_open :
    (∀ n, Has (mu_msgset_aggregate ⟨[⟨12, 0⟩, ⟨1, 1⟩], false, 0⟩).list n ↔ Has [⟨12, 0⟩, ⟨1, 1⟩] n) ∧
      Canonical (mu_msgset_aggregate ⟨[⟨12, 0⟩, ⟨1, 1⟩], false, 0⟩).list := by
  refine (aggregate_canonical ⟨[⟨12, 0⟩, ⟨1, 1⟩], false, 0⟩ (by decide)).mpr ?_
  rintro c member closed on
  obtain rfl : c = ⟨1, 1⟩ := by
    rcases List.mem_pair.mp member with rfl | rfl
    · exact absurd rfl closed
    · rfl
  exact absurd (on 2 (by decide)) (by decide)

/-- Of `1:20,5:6,10:*` the walk from the back stops at `5:6`, and `1:20` is left
    overlapping `10:*`. -/
theorem aggregate_not_canonical :
    (∀ r ∈ [Msgrange.mk 1 20, ⟨5, 6⟩, ⟨10, 0⟩], r.Valid) ∧
      (mu_msgset_aggregate ⟨[⟨1, 20⟩, ⟨5, 6⟩, ⟨10, 0⟩], false, 0⟩).list = [⟨1, 20⟩, ⟨10, 0⟩] ∧
      ¬ Canonical (mu_msgset_aggregate ⟨[⟨1, 20⟩, ⟨5, 6⟩, ⟨10, 0⟩], false, 0⟩).list := by
  decide

end Mailutils.MessageSet

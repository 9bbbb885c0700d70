import Mailutils.MsgsetCount
import Mathlib.Data.List.Nodup
import Mathlib.Data.Nat.Find

/-!
UIDs and message numbers (`libmailutils/msgset/trans.c`). The ends of a range of UIDs need not be UIDs of messages:
the first is searched for upwards from the one end and the last downwards from the other. The first search leaves
`beg` one behind the UID it has found, and the second stops before it comes to `beg`, so that both miss messages at
the edges (`translate_iff`).
-/
namespace Mailutils.MessageSet

/-- The loop over `beg`: where it stops, with the last answer. `none` when it is not done with so many rounds; it
    never is when `beg` runs over the largest number. -/
def search_up (translate : Nat → Except Code Nat) (x : Nat) : Nat → Nat → Option (Nat × Except Code Nat)
  | 0, _ => none
  | fuel + 1, beg =>
    if beg ≤ x then
      match translate beg with
      | .error .MU_ERR_NOENT => search_up translate x fuel (size (beg + 1))
      | answer => some (size (beg + 1), answer)
    else some (beg, .error .MU_ERR_NOENT)

/-- The loop over `end`, down to `beg`. -/
def search_down (translate : Nat → Except Code Nat) (beg : Nat) : Nat → Except Code Nat
  | 0 => .error .MU_ERR_NOENT
  | fin + 1 =>
    if beg < fin + 1 then
      match translate (fin + 1) with
      | .error .MU_ERR_NOENT => search_down translate beg fin
      | answer => answer
    else .error .MU_ERR_NOENT

/-- The part of `_mu_msgset_translate_pair` after the first end is found, as `n`. -/
def translate_end (translate : Nat → Except Code Nat) (uids : Bool) (beg fin n : Nat) : Except Code (Nat × Nat) :=
  if beg = fin then .ok (n, n)
  else if fin ≠ MU_MSGNO_LAST then
    match translate fin with
    | .ok m => .ok (n, m)
    | .error .MU_ERR_NOENT => if uids then (search_down translate beg fin).map (n, ·) else .error .MU_ERR_NOENT
    | .error rc => .error rc
  else .ok (n, fin)

/-- `_mu_msgset_translate_pair` for either command; `uids` says that UIDs are translated to numbers. -/
def translate_pair (mbox : Mailbox) (translate : Nat → Except Code Nat) (uids : Bool) (fuel beg fin : Nat) :
    Option (Except Code (Nat × Nat)) :=
  match translate beg with
  | .ok n => some (translate_end translate uids beg fin n)
  | .error .MU_ERR_NOENT =>
    if uids then
      if fin = MU_MSGNO_LAST then
        -- `rc` is 0 when `uidnext` has succeeded, so that the loop is not entered and `n` is as it was
        some (mbox.uidnext.bind fun _ => translate_end translate uids beg fin 1)
      else (search_up translate fin fuel beg).map fun (beg, answer) => answer.bind (translate_end translate uids beg fin)
    else some (.error .MU_ERR_NOENT)
  | .error rc => some (.error rc)

def _mu_msgset_translate_pair (mbox : Option Mailbox) (mode fuel beg fin : Nat) :
    Option (Except Code (Nat × Nat)) :=
  match mbox with
  | none => some (.ok (beg, fin))
  | some mbox =>
    if mode = MU_MSGSET_NUM then translate_pair mbox mbox.uid_to_msgno true fuel beg fin
    else if mode = MU_MSGSET_UID then translate_pair mbox mbox.msgno_to_uid false fuel beg fin
    else some (.error .EINVAL)

/-- A mailbox whose messages have the given UIDs, in the order of their numbers. -/
def numbered (uids : List Nat) : Mailbox where
  messages_count := .ok uids.length
  uid_to_msgno uid := if uid ∈ uids then .ok (uids.idxOf uid + 1) else .error .MU_ERR_NOENT
  msgno_to_uid n := if n = 0 then .error .EINVAL else (uids[n - 1]?).elim (.error .MU_ERR_NOENT) .ok
  uidnext := .ok (uids.getLastD 0 + 1)

section
variable {uids : List Nat}

theorem lookup_found {u : Nat} (member : u ∈ uids) : (numbered uids).uid_to_msgno u = .ok (uids.idxOf u + 1) :=
  if_pos member

theorem lookup_none {u : Nat} (absent : u ∉ uids) : (numbered uids).uid_to_msgno u = .error .MU_ERR_NOENT :=
  if_neg absent

theorem search_up_skip {x : Nat} (fuel k : Nat) : ∀ beg, beg < 2 ^ 64 → beg + k ≤ x + 1 → beg + k ≤ 2 ^ 64 →
    (∀ u ∈ uids, beg ≤ u → beg + k ≤ u) →
      search_up (numbered uids).uid_to_msgno x (fuel + k) beg =
        search_up (numbered uids).uid_to_msgno x fuel (size (beg + k)) := by
  induction k with
  | zero =>
    intro beg small _ _ _
    rw [Nat.add_zero, Nat.add_zero, size, Nat.mod_eq_of_lt small]
  | succ k ih =>
    intro beg small bound bound' none
    have absent : beg ∉ uids := fun mem => by
      have := none beg mem (Nat.le_refl _)
      omega
    rw [← Nat.add_assoc, search_up, if_pos (by omega), lookup_none absent]
    simp only
    by_cases last : beg + 1 < 2 ^ 64
    · have kept : size (beg + 1) = beg + 1 := Nat.mod_eq_of_lt last
      rw [kept, ih (beg + 1) last (by omega) (by omega) (fun u mem le => by
        have := none u mem (by omega)
        omega), Nat.add_assoc, Nat.add_comm 1]
    · obtain rfl : k = 0 := by omega
      rw [Nat.add_zero]

theorem search_up_more {translate : Nat → Except Code Nat} {x : Nat} {answer : Nat × Except Code Nat}
    (fuel more : Nat) :
    ∀ beg, search_up translate x fuel beg = some answer → search_up translate x (fuel + more) beg = some answer := by
  induction fuel with
  | zero =>
    intro beg done
    cases done
  | succ fuel ih =>
    intro beg done
    rw [search_up] at done
    rw [Nat.add_right_comm, search_up]
    split at done
    · next inside =>
      rw [if_pos inside]
      split at done
      · exact ih _ done
      · exact done
    · next outside => rw [if_neg outside, ← done]

/-- In a mailbox without messages the search does not end when every number is allowed. -/
theorem search_up_endless {x : Nat} (top : x + 1 = 2 ^ 64) (fuel : Nat) :
    ∀ beg, beg < 2 ^ 64 → search_up (numbered []).uid_to_msgno x fuel beg = none := by
  induction fuel with
  | zero => exact fun _ _ => rfl
  | succ fuel ih =>
    intro beg small
    rw [search_up, if_pos (by omega), lookup_none List.not_mem_nil]
    exact ih _ (Nat.mod_lt _ (by decide))

private theorem search_down_found {beg b fin : Nat} (member : b ∈ uids) (behind : beg < b) (bound : b ≤ fin)
    (last : ∀ u ∈ uids, u ≤ fin → u ≤ b) :
    search_down (numbered uids).uid_to_msgno beg fin = .ok (uids.idxOf b + 1) := by
  induction fin with
  | zero => omega
  | succ fin ih =>
    rw [search_down, if_pos (by omega)]
    by_cases here : fin + 1 = b
    · rw [here, lookup_found member]
    · have absent : fin + 1 ∉ uids := fun mem => here (by
        have := last _ mem (Nat.le_refl _)
        omega)
      rw [lookup_none absent]
      exact ih (by omega) fun u mem le => last u mem (by omega)

private theorem search_down_none {beg fin : Nat} (none : ∀ u ∈ uids, u ≤ fin → u ≤ beg) :
    search_down (numbered uids).uid_to_msgno beg fin = .error .MU_ERR_NOENT := by
  induction fin with
  | zero => rfl
  | succ fin ih =>
    rw [search_down]
    split
    · next more =>
      have absent : fin + 1 ∉ uids := fun mem => by
        have := none _ mem (Nat.le_refl _)
        omega
      rw [lookup_none absent]
      exact ih fun u mem le => none u mem (by omega)
    · rfl

/-- The answer for a range of UIDs is right: the numbers of the messages whose UIDs are in the range, or that there
    are none. -/
def Exact (uids : List Nat) (beg fin : Nat) (answer : Except Code (Nat × Nat)) : Prop :=
  (answer = .error .MU_ERR_NOENT ∧ ∀ u ∈ uids, ¬ (beg ≤ u ∧ u ≤ fin)) ∨
    ∃ first last, answer = .ok (first, last) ∧ (∃ u ∈ uids, beg ≤ u ∧ u ≤ fin) ∧
      ∀ i u, uids[i]? = some u → (first ≤ i + 1 ∧ i + 1 ≤ last ↔ beg ≤ u ∧ u ≤ fin)

variable (increasing : uids.Pairwise (· < ·))
include increasing

theorem idx_le_iff {u v : Nat} (member : u ∈ uids) (member' : v ∈ uids) : uids.idxOf u ≤ uids.idxOf v ↔ u ≤ v := by
  have inside := List.idxOf_lt_length_iff.mpr member
  have inside' := List.idxOf_lt_length_iff.mpr member'
  have sorted := List.pairwise_iff_getElem.mp increasing
  constructor
  · intro le
    rcases Nat.lt_or_eq_of_le le with less | same
    · have := sorted _ _ inside inside' less
      rw [List.getElem_idxOf, List.getElem_idxOf] at this
      omega
    · exact Nat.le_of_eq ((List.idxOf_inj member).mp same)
  · intro le
    by_contra more
    have := sorted _ _ inside' inside (by omega)
    rw [List.getElem_idxOf, List.getElem_idxOf] at this
    omega

theorem exact_ok {a b beg fin : Nat} (memberA : a ∈ uids) (memberB : b ∈ uids) :
    Exact uids beg fin (.ok (uids.idxOf a + 1, uids.idxOf b + 1)) ↔
      (∃ u ∈ uids, beg ≤ u ∧ u ≤ fin) ∧ ∀ u ∈ uids, a ≤ u ∧ u ≤ b ↔ beg ≤ u ∧ u ≤ fin := by
  have nodup : uids.Nodup := increasing.imp Nat.ne_of_lt
  constructor
  · rintro (⟨wrong, -⟩ | ⟨first, last, answer, some, all⟩)
    · cases wrong
    · obtain ⟨rfl, rfl⟩ := Prod.mk.inj (Except.ok.inj answer)
      refine ⟨some, fun u member => ?_⟩
      rw [← all (uids.idxOf u) u (List.getElem?_idxOf member), Nat.add_le_add_iff_right, Nat.add_le_add_iff_right,
        idx_le_iff increasing memberA member, idx_le_iff increasing member memberB]
  · rintro ⟨some, all⟩
    refine .inr ⟨_, _, rfl, some, fun i u here => ?_⟩
    obtain ⟨inside, rfl⟩ := List.getElem?_eq_some_iff.mp here
    have member := List.getElem_mem inside
    rw [← all _ member, ← idx_le_iff increasing memberA member, ← idx_le_iff increasing member memberB,
      List.Nodup.idxOf_getElem nodup, Nat.add_le_add_iff_right, Nat.add_le_add_iff_right]

omit increasing in
theorem pair_found {beg : Nat} (fin fuel : Nat) (member : beg ∈ uids) :
    _mu_msgset_translate_pair (some (numbered uids)) MU_MSGSET_NUM fuel beg fin =
      some (translate_end (numbered uids).uid_to_msgno true beg fin (uids.idxOf beg + 1)) := by
  simp only [_mu_msgset_translate_pair, if_true, translate_pair, lookup_found member]

omit increasing in
theorem pair_search {beg fin : Nat} (fuel : Nat) (absent : beg ∉ uids) (finite : fin ≠ 0) :
    _mu_msgset_translate_pair (some (numbered uids)) MU_MSGSET_NUM fuel beg fin =
      (search_up (numbered uids).uid_to_msgno fin fuel beg).map fun stop =>
        stop.2.bind (translate_end (numbered uids).uid_to_msgno true stop.1 fin) := by
  have last : ¬ fin = MU_MSGNO_LAST := finite
  simp only [_mu_msgset_translate_pair, if_true, translate_pair, lookup_none absent, if_neg last]

omit increasing in
/-- There is an answer when the search ends, and then it is the only one. -/
theorem answers {beg fin fuel : Nat} {answer : Except Code (Nat × Nat)} (finite : fin ≠ 0)
    (done : _mu_msgset_translate_pair (some (numbered uids)) MU_MSGSET_NUM fuel beg fin = some answer) :
    (∃ fuel answer, _mu_msgset_translate_pair (some (numbered uids)) MU_MSGSET_NUM fuel beg fin = some answer ∧
      Exact uids beg fin answer) ↔ Exact uids beg fin answer := by
  refine ⟨?_, fun exact => ⟨fuel, answer, done, exact⟩⟩
  rintro ⟨fuel', answer', done', exact⟩
  suffices same : answer' = answer by rwa [← same]
  by_cases member : beg ∈ uids
  · rw [pair_found _ _ member] at done done'
    exact Option.some.inj (done'.symm.trans done)
  · rw [pair_search _ member finite] at done done'
    obtain ⟨stop, search, rfl⟩ := Option.map_eq_some_iff.mp done
    obtain ⟨stop', search', rfl⟩ := Option.map_eq_some_iff.mp done'
    have up := search_up_more fuel fuel' _ search
    have up' := search_up_more fuel' fuel _ search'
    rw [Nat.add_comm, up] at up'
    rw [Option.some.inj up']

omit increasing in
theorem end_cases (uids : List Nat) (beg a : Nat) {fin : Nat} (finite : fin ≠ 0) :
    (beg = fin ∧ translate_end (numbered uids).uid_to_msgno true beg fin (uids.idxOf a + 1) =
        .ok (uids.idxOf a + 1, uids.idxOf a + 1)) ∨
    (beg ≠ fin ∧ fin ∈ uids ∧ translate_end (numbered uids).uid_to_msgno true beg fin (uids.idxOf a + 1) =
        .ok (uids.idxOf a + 1, uids.idxOf fin + 1)) ∨
    (beg ≠ fin ∧ fin ∉ uids ∧ (∃ b ∈ uids, beg < b ∧ b ≤ fin ∧ (∀ u ∈ uids, u ≤ fin → u ≤ b) ∧
      translate_end (numbered uids).uid_to_msgno true beg fin (uids.idxOf a + 1) =
        .ok (uids.idxOf a + 1, uids.idxOf b + 1))) ∨
    (beg ≠ fin ∧ fin ∉ uids ∧ (∀ u ∈ uids, u ≤ fin → u ≤ beg) ∧
      translate_end (numbered uids).uid_to_msgno true beg fin (uids.idxOf a + 1) = .error .MU_ERR_NOENT) := by
  have last : fin ≠ MU_MSGNO_LAST := finite
  by_cases same : beg = fin
  · exact .inl ⟨same, by rw [translate_end, if_pos same]⟩
  · by_cases member : fin ∈ uids
    · exact .inr (.inl ⟨same, member, by rw [translate_end, if_neg same, if_pos last, lookup_found member]⟩)
    · have down : translate_end (numbered uids).uid_to_msgno true beg fin (uids.idxOf a + 1) =
          (search_down (numbered uids).uid_to_msgno beg fin).map (uids.idxOf a + 1, ·) := by
        rw [translate_end, if_neg same, if_pos last, lookup_none member]
        rfl
      rw [down]
      by_cases some : ∃ u ∈ uids, beg < u ∧ u ≤ fin
      · obtain ⟨u, memberU, behind, bound⟩ := some
        have spec : Nat.findGreatest (· ∈ uids) fin ∈ uids := Nat.findGreatest_spec bound memberU
        have max (v : Nat) (member : v ∈ uids) (le : v ≤ fin) : v ≤ Nat.findGreatest (· ∈ uids) fin :=
          Nat.le_findGreatest le member
        have below : Nat.findGreatest (· ∈ uids) fin ≤ fin := Nat.findGreatest_le fin
        have further : beg < Nat.findGreatest (· ∈ uids) fin := Nat.lt_of_lt_of_le behind (max u memberU bound)
        refine .inr (.inr (.inl ⟨same, member, _, spec, further, below, max, ?_⟩))
        rw [search_down_found spec further below max]
        rfl
      · have none : ∀ u ∈ uids, u ≤ fin → u ≤ beg := fun u memberU bound => by
          by_contra behind
          exact some ⟨u, memberU, by omega, bound⟩
        refine .inr (.inr (.inr ⟨same, member, none, ?_⟩))
        rw [search_down_none none]
        rfl

end

/-- Where the UIDs of a range may begin and end for both searches to find them: `first` and `last` are the first and
    the last of them. -/
def Edge (beg fin first last : Nat) : Prop :=
  last = fin ∧ (first = beg ∨ first + 1 ≠ fin) ∨
    last < fin ∧ (first = beg ∧ first < last ∨ first ≠ beg ∧ (first + 1 = fin ∨ first + 1 < last))

/-- When the translation of a range of UIDs is right. Where no message is in the range, `beg` must not run over the
    largest number, or come by that to messages which the second search does not find. -/
def Translatable (uids : List Nat) (beg fin : Nat) : Prop :=
  (∀ u ∈ uids, ¬ (beg ≤ u ∧ u ≤ fin)) ∧
      (fin + 1 < 2 ^ 64 ∨ ∃ a ∈ uids, a + 1 ≠ fin ∧ ∀ u ∈ uids, a ≤ u ∧ u ≤ a + 1) ∨
    ∃ first ∈ uids, ∃ last ∈ uids, beg ≤ first ∧ first ≤ last ∧ last ≤ fin ∧
      (∀ u ∈ uids, beg ≤ u → u ≤ fin → first ≤ u ∧ u ≤ last) ∧ Edge beg fin first last

section
variable {uids : List Nat} {beg fin : Nat}

theorem exact_none (none : ∀ u ∈ uids, ¬ (beg ≤ u ∧ u ≤ fin)) {answer : Except Code (Nat × Nat)} :
    Exact uids beg fin answer ↔ answer = .error .MU_ERR_NOENT := by
  constructor
  · rintro (⟨answer, -⟩ | ⟨first, last, -, ⟨u, member, both⟩, -⟩)
    · exact answer
    · exact absurd both (none u member)
  · intro answer
    exact .inl ⟨answer, none⟩

theorem translate_none (small : ∀ u ∈ uids, u < 2 ^ 64) (finite : fin ≠ 0)
    (order : beg ≤ fin) (bound : fin < 2 ^ 64) (none : ∀ u ∈ uids, ¬ (beg ≤ u ∧ u ≤ fin)) :
    (∃ fuel answer, _mu_msgset_translate_pair (some (numbered uids)) MU_MSGSET_NUM fuel beg fin = some answer ∧
      Exact uids beg fin answer) ↔
      fin + 1 < 2 ^ 64 ∨ ∃ a ∈ uids, a + 1 ≠ fin ∧ ∀ u ∈ uids, a ≤ u ∧ u ≤ a + 1 := by
  have absent : beg ∉ uids := fun mem => none beg mem ⟨Nat.le_refl _, order⟩
  have skip (u : Nat) (member : u ∈ uids) (le : beg ≤ u) : fin + 1 ≤ u := by
    by_contra less
    exact none u member ⟨le, by omega⟩
  have reach : beg + (fin + 1 - beg) = fin + 1 := by omega
  by_cases room : fin + 1 < 2 ^ 64
  · refine iff_of_true ⟨1 + (fin + 1 - beg), .error .MU_ERR_NOENT, ?_, .inl ⟨rfl, none⟩⟩ (.inl room)
    rw [pair_search _ absent finite, search_up_skip 1 (fin + 1 - beg) beg (by omega) (by omega) (by omega)
      (fun u member le => by rw [reach]; exact skip u member le), reach, size, Nat.mod_eq_of_lt room, search_up,
      if_neg (by omega)]
    rfl
  · -- `beg` runs over and comes to the first message of the mailbox
    have top : fin + 1 = 2 ^ 64 := by omega
    have wraps (fuel : Nat) : search_up (numbered uids).uid_to_msgno fin (fuel + (fin + 1 - beg)) beg =
        search_up (numbered uids).uid_to_msgno fin fuel 0 := by
      rw [search_up_skip fuel (fin + 1 - beg) beg (by omega) (by omega) (by omega)
        (fun u member le => by rw [reach]; exact skip u member le), reach, top]
      rfl
    by_cases empty : uids = []
    · subst empty
      refine iff_of_false ?_ ?_
      · rintro ⟨fuel, answer, done, -⟩
        rw [pair_search _ absent finite, search_up_endless top fuel beg (by omega)] at done
        cases done
      · rintro (more | ⟨a, member, -⟩)
        · exact room more
        · cases member
    · obtain ⟨u, memberU⟩ := List.exists_mem_of_ne_nil uids empty
      have ex : ∃ v, v ∈ uids := ⟨u, memberU⟩
      have memberA : Nat.find ex ∈ uids := Nat.find_spec ex
      have least (v : Nat) (member : v ∈ uids) : Nat.find ex ≤ v := Nat.find_min' ex member
      generalize Nat.find ex = a at memberA least
      have below : a < beg := by
        have := small a memberA
        by_contra le
        exact none a memberA ⟨by omega, by omega⟩
      have call : _mu_msgset_translate_pair (some (numbered uids)) MU_MSGSET_NUM (1 + a + (fin + 1 - beg)) beg fin =
          some (translate_end (numbered uids).uid_to_msgno true (a + 1) fin (uids.idxOf a + 1)) := by
        rw [pair_search _ absent finite, wraps, search_up_skip 1 a 0 (by omega) (by omega) (by omega)
          (fun v member _ => by rw [Nat.zero_add]; exact least v member), Nat.zero_add, size,
          Nat.mod_eq_of_lt (by omega), search_up, if_pos (by omega), lookup_found memberA, size,
          Nat.mod_eq_of_lt (by omega)]
        rfl
      have unique {a' : Nat} (member : a' ∈ uids) (all : ∀ v ∈ uids, a' ≤ v ∧ v ≤ a' + 1) : a' = a :=
        Nat.le_antisymm (all a memberA).1 (least a' member)
      rw [answers finite call, exact_none none, or_iff_right room]
      rcases end_cases uids (a + 1) a finite with ⟨same, answer⟩ | ⟨-, member, -⟩ |
        ⟨-, -, b, memberB, further, -, -, answer⟩ | ⟨other, -, rest, answer⟩
      · rw [answer]
        refine iff_of_false (by simp) ?_
        rintro ⟨a', member, differs, all⟩
        exact differs (unique member all ▸ same)
      · exact absurd ⟨order, Nat.le_refl _⟩ (none fin member)
      · rw [answer]
        refine iff_of_false (by simp) ?_
        rintro ⟨a', member, -, all⟩
        obtain rfl := unique member all
        have := (all b memberB).2
        omega
      · rw [answer]
        refine iff_of_true rfl ⟨a, memberA, other, fun v member => ⟨least v member, rest v member ?_⟩⟩
        have := small v member
        omega

theorem translate_some (increasing : uids.Pairwise (· < ·)) (finite : fin ≠ 0) (order : beg ≤ fin)
    (bound : fin < 2 ^ 64) {a b : Nat} (memberA : a ∈ uids) (memberB : b ∈ uids) (lower : beg ≤ a) (inOrder : a ≤ b)
    (upper : b ≤ fin) (between : ∀ u ∈ uids, beg ≤ u → u ≤ fin → a ≤ u ∧ u ≤ b) :
    (∃ fuel answer, _mu_msgset_translate_pair (some (numbered uids)) MU_MSGSET_NUM fuel beg fin = some answer ∧
      Exact uids beg fin answer) ↔ Edge beg fin a b := by
  have some : ∃ u ∈ uids, beg ≤ u ∧ u ≤ fin := ⟨a, memberA, lower, inOrder.trans upper⟩
  have inside (u : Nat) (member : u ∈ uids) : beg ≤ u ∧ u ≤ fin ↔ a ≤ u ∧ u ≤ b :=
    ⟨fun both => between u member both.1 both.2, fun both => ⟨by omega, by omega⟩⟩
  -- from where the second search goes on
  obtain ⟨fuel, go, step, call⟩ : ∃ fuel go, (go = beg ∧ a = beg ∨ a ≠ beg ∧ go = size (a + 1)) ∧
      _mu_msgset_translate_pair (Option.some (numbered uids)) MU_MSGSET_NUM fuel beg fin =
        Option.some (translate_end (numbered uids).uid_to_msgno true go fin (uids.idxOf a + 1)) := by
    by_cases first : a = beg
    · subst first
      exact ⟨0, a, .inl ⟨rfl, rfl⟩, pair_found fin 0 memberA⟩
    · have absent : beg ∉ uids := fun mem => first (by
        have := between beg mem (Nat.le_refl _) order
        omega)
      have reach : beg + (a - beg) = a := by omega
      have skip : ∀ u ∈ uids, beg ≤ u → beg + (a - beg) ≤ u := by
        intro u mem le
        by_cases below : u ≤ fin
        · have := between u mem le below
          omega
        · omega
      refine ⟨1 + (a - beg), size (a + 1), .inr ⟨first, rfl⟩, ?_⟩
      rw [pair_search _ absent finite, search_up_skip 1 (a - beg) beg (by omega) (by omega) (by omega) skip, reach,
        size, Nat.mod_eq_of_lt (by omega), search_up, if_pos (inOrder.trans upper), lookup_found memberA]
      rfl
  rw [answers finite call]
  have wrap : size (a + 1) = a + 1 ∨ a + 1 = 2 ^ 64 ∧ size (a + 1) = 0 := by
    by_cases last : a + 1 < 2 ^ 64
    · exact .inl (Nat.mod_eq_of_lt last)
    · have here : a + 1 = 2 ^ 64 := by omega
      exact .inr ⟨here, by rw [here]; rfl⟩
  have edges : a + 1 = 2 ^ 64 → a = fin ∧ b = fin := by omega
  unfold Edge
  rcases end_cases uids go a finite with ⟨same, answer⟩ | ⟨other, member, answer⟩ |
    ⟨other, absent, b', memberB', further, below, max, answer⟩ | ⟨other, absent, none, answer⟩
  · have single : Exact uids beg fin (.ok (uids.idxOf a + 1, uids.idxOf a + 1)) ↔ b = a := by
      rw [exact_ok increasing memberA memberA]
      constructor
      · rintro ⟨-, all⟩
        have := (all b memberB).mpr ⟨by omega, upper⟩
        omega
      · rintro rfl
        exact ⟨some, fun u member => (inside u member).symm⟩
    rw [answer, single]
    omega
  · obtain rfl : b = fin := by
      have := (between fin member order (Nat.le_refl _)).2
      omega
    rw [answer, exact_ok increasing memberA member]
    refine iff_of_true ⟨some, fun u member => (inside u member).symm⟩ ?_
    omega
  · have notLast : b ≠ fin := fun same => absent (same ▸ memberB)
    obtain rfl : b' = b := by
      have := (between b' memberB' (by omega) below).2
      have := max b memberB upper
      omega
    rw [answer, exact_ok increasing memberA memberB']
    refine iff_of_true ⟨some, fun u member => (inside u member).symm⟩ ?_
    omega
  · have notLast : b ≠ fin := fun same => absent (same ▸ memberB)
    have := none b memberB upper
    rw [answer]
    refine iff_of_false ?_ (by omega)
    rintro (⟨-, empty⟩ | ⟨first, last, wrong, -⟩)
    · obtain ⟨u, member, both⟩ := some
      exact empty u member both
    · cases wrong

/-- The translation of a range of UIDs to numbers of messages is right exactly when the messages at the edges of the
    range are where the searches find them. -/
theorem translate_iff (increasing : uids.Pairwise (· < ·)) (small : ∀ u ∈ uids, u < 2 ^ 64) (finite : fin ≠ 0)
    (order : beg ≤ fin) (bound : fin < 2 ^ 64) :
    (∃ fuel answer, _mu_msgset_translate_pair (some (numbered uids)) MU_MSGSET_NUM fuel beg fin = some answer ∧
      Exact uids beg fin answer) ↔ Translatable uids beg fin := by
  unfold Translatable
  by_cases some : ∃ u ∈ uids, beg ≤ u ∧ u ≤ fin
  · obtain ⟨u, member, lower, upper⟩ := some
    have ex : ∃ v, v ∈ uids ∧ beg ≤ v := ⟨u, member, lower⟩
    obtain ⟨memberA, lowerA⟩ := Nat.find_spec ex
    have least (v : Nat) (member : v ∈ uids) (le : beg ≤ v) : Nat.find ex ≤ v := Nat.find_min' ex ⟨member, le⟩
    have memberB : Nat.findGreatest (· ∈ uids) fin ∈ uids := Nat.findGreatest_spec upper member
    have most (v : Nat) (member : v ∈ uids) (le : v ≤ fin) : v ≤ Nat.findGreatest (· ∈ uids) fin :=
      Nat.le_findGreatest le member
    have upperB : Nat.findGreatest (· ∈ uids) fin ≤ fin := Nat.findGreatest_le fin
    generalize Nat.find ex = a at memberA lowerA least
    generalize Nat.findGreatest (· ∈ uids) fin = b at memberB most upperB
    have inOrder : a ≤ b := (least u member lower).trans (most u member upper)
    rw [translate_some increasing finite order bound memberA memberB lowerA inOrder upperB
      fun v member le le' => ⟨least v member le, most v member le'⟩]
    constructor
    · intro edge
      exact .inr ⟨a, memberA, b, memberB, lowerA, inOrder, upperB,
        fun v member le le' => ⟨least v member le, most v member le'⟩, edge⟩
    · rintro (⟨none, -⟩ | ⟨a', memberA', b', memberB', lowerA', inOrder', upperB', between, edge⟩)
      · exact absurd ⟨lower, upper⟩ (none u member)
      · have := least a' memberA' lowerA'
        have := between a memberA lowerA (by omega)
        have := most b' memberB' upperB'
        have := between b memberB (by omega) upperB
        obtain rfl : a' = a := by omega
        obtain rfl : b' = b := by omega
        exact edge
  · have none : ∀ u ∈ uids, ¬ (beg ≤ u ∧ u ≤ fin) := fun u member both => some ⟨u, member, both⟩
    rw [translate_none small finite order bound none]
    constructor
    · intro edge
      exact .inl ⟨none, edge⟩
    · rintro (⟨-, edge⟩ | ⟨a, member, b, -, lower, inOrder, upper, -⟩)
      · exact edge
      · exact absurd ⟨lower, by omega⟩ (none a member)

/-- Of the messages with the UIDs 3, 5 and 8, those in `4:9` are the last two. -/
theorem translate_inner :
    ∃ fuel answer, _mu_msgset_translate_pair (some (numbered [3, 5, 8])) MU_MSGSET_NUM fuel 4 9 = some answer ∧
      Exact [3, 5, 8] 4 9 answer := by
  refine (translate_iff (by decide) (by decide) (by decide) (by decide) (by decide)).mpr ?_
  exact .inr ⟨5, by decide, 8, by decide, by decide, by decide, by decide, by decide, .inr (by decide)⟩

/-- Of the messages with the UIDs 3 and 8, the first is in `3:5`, but none is found; and of those with 4 and 5 both
    are in `3:5`, but the first only is found. -/
theorem translate_edges_missed :
    _mu_msgset_translate_pair (some (numbered [3, 8])) MU_MSGSET_NUM 9 3 5 = some (.error .MU_ERR_NOENT) ∧
      _mu_msgset_translate_pair (some (numbered [4, 5])) MU_MSGSET_NUM 9 3 5 = some (.ok (1, 1)) ∧
      ¬ Exact [3, 8] 3 5 (.error .MU_ERR_NOENT) ∧ ¬ Exact [4, 5] 3 5 (.ok (1, 1)) := by
  refine ⟨by decide, by decide, ?_, ?_⟩
  · rintro (⟨_, none_inside⟩ | ⟨first, last, answer, _⟩)
    · exact none_inside 3 (by decide) (by decide)
    · cases answer
  · rintro (⟨answer, _⟩ | ⟨first, last, answer, _, inside⟩)
    · cases answer
    · cases answer
      exact absurd ((inside 1 5 rfl).mpr (by decide)) (by decide)

end

theorem search_up_ok {uids : List Nat} {x stop n : Nat} (fuel : Nat) : ∀ beg,
    search_up (numbered uids).uid_to_msgno x fuel beg = some (stop, .ok n) →
      ∃ a ∈ uids, a ≤ x ∧ n = uids.idxOf a + 1 := by
  induction fuel with
  | zero => exact fun _ found => nomatch found
  | succ fuel ih =>
    intro beg found
    rw [search_up] at found
    split at found
    · next le =>
      by_cases member : beg ∈ uids
      · rw [lookup_found member] at found
        cases found
        exact ⟨beg, member, le, rfl⟩
      · rw [lookup_none member] at found
        exact ih _ found
    · cases found

/-- Whatever the edges do, an answer is made of two numbers of messages in their order. -/
theorem translate_sane {uids : List Nat} (increasing : uids.Pairwise (· < ·)) (few : uids.length + 1 < 2 ^ 64)
    (fuel : Nat) : Sane fun beg fin =>
      (_mu_msgset_translate_pair (some (numbered uids)) MU_MSGSET_NUM fuel beg fin).getD (.error .MU_ERR_NOENT) := by
  intro beg fin n m order finite ok
  dsimp only at ok
  obtain ⟨a, member, le, go, ended⟩ : ∃ a ∈ uids, a ≤ fin ∧ ∃ go,
      translate_end (numbered uids).uid_to_msgno true go fin (uids.idxOf a + 1) = .ok (n, m) := by
    by_cases member : beg ∈ uids
    · rw [pair_found _ _ member] at ok
      exact ⟨beg, member, order, beg, ok⟩
    · rw [pair_search _ member finite] at ok
      rcases search : search_up (numbered uids).uid_to_msgno fin fuel beg with _ | ⟨go, _ | k⟩
      · rw [search] at ok
        cases ok
      · rw [search] at ok
        cases ok
      · rw [search] at ok
        obtain ⟨a, member, le, rfl⟩ := search_up_ok fuel beg search
        exact ⟨a, member, le, go, ok⟩
  have ordered {b : Nat} (memberB : b ∈ uids) (later : a ≤ b)
      (answer : translate_end (numbered uids).uid_to_msgno true go fin (uids.idxOf a + 1) =
        .ok (uids.idxOf a + 1, uids.idxOf b + 1)) : 1 ≤ n ∧ n ≤ m ∧ m + 1 < 2 ^ 64 := by
    rw [ended] at answer
    cases answer
    have := (idx_le_iff increasing member memberB).mpr later
    have := List.idxOf_lt_length_iff.mpr memberB
    omega
  rcases end_cases uids go a finite with ⟨_, answer⟩ | ⟨_, memberB, answer⟩ |
    ⟨_, _, b, memberB, _, _, last, answer⟩ | ⟨_, _, _, answer⟩
  · exact ordered member le_rfl answer
  · exact ordered memberB le answer
  · exact ordered memberB (last a member le) answer
  · rw [ended] at answer
    cases answer

end Mailutils.MessageSet

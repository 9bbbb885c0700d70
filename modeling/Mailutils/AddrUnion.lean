import Mailutils.AddrFields
import Mailutils.AssocArray

/-!
The union of two lists of addresses (`libmailutils/address/address.c`). `mu_address_union` looks each e-mail
of the second list up in the first and appends a copy of the node if it is not there. The search stops at
the first node without an e-mail, and a node is not appended but copied over the last one if that has none.
The result is the union if and only if each e-mail that is there is found, and the last node has an e-mail
whenever one is appended (`union_iff`).
-/
namespace Mailutils.AddrUnion
open Mailutils.AssocArray (Name fold)

/-- `struct mu_address`, without the cached text of the list, which is dropped, and the pointer to the next
    node; a list of addresses is a list of nodes. -/
structure Node where
  comments : Option Name := none
  personal : Option Name := none
  email : Option Name := none
  local_part : Option Name := none
  domain : Option Name := none
  route : Option Name := none
  deriving DecidableEq

def joined (local_part domain : Name) : Name :=
  ⟨local_part.1 ++ AT :: domain.1, by
    rw [List.mem_append, List.mem_cons, not_or, not_or]
    exact ⟨local_part.2, by decide, domain.2⟩⟩

def mu_validate_email (user_domain : Option Name) (subaddr : Node) : Node :=
  match subaddr.email, subaddr.local_part, subaddr.domain.or user_domain with
  | none, some local_part, some domain => { subaddr with email := some (joined local_part domain) }
  | _, _, _ => subaddr

/-- The fields that are derived from each other, with their memory: none of them is released here. -/
def Node.slots (n : Node) : AddrFields.Node :=
  ⟨AddrFields.strdup (n.email.map (·.1)), AddrFields.strdup (n.local_part.map (·.1)),
    AddrFields.strdup (n.domain.map (·.1))⟩

theorem validate_slots (user_domain : Option Name) (n : Node) :
    AddrFields.mu_validate_email (user_domain.map (·.1)) n.slots = some (mu_validate_email user_domain n).slots := by
  obtain ⟨_, _, email, local_part, domain, _⟩ := n
  cases email <;> cases local_part <;> cases domain <;> cases user_domain <;> rfl

/-- `mu_address_contains_email`, with the nodes of the list after it; nothing where a NULL string is
    compared. -/
def mu_address_contains_email (user_domain : Option Name) : List Node → Option Name → Option (Bool × List Node)
  | [], _ => some (false, [])
  | addr :: next, email =>
    let addr := mu_validate_email user_domain addr
    match addr.email, email with
    | none, _ => some (false, addr :: next)
    | some _, none => none
    | some mine, some email =>
      if mu_c_strcasecmp mine.1 email.1 = 0 then some (true, addr :: next)
      else (mu_address_contains_email user_domain next (some email)).map fun (found, next) => (found, addr :: next)

def mu_list_copy (dst src : Node) : Node where
  comments := src.comments.or dst.comments
  personal := src.personal.or dst.personal
  email := src.email.or dst.email
  local_part := src.local_part.or dst.local_part
  domain := src.domain.or dst.domain
  route := src.route.or dst.route

def mu_address_dup (src : Node) : Node := mu_list_copy {} src

/-- The loop of `mu_address_union` over the second list. -/
def union_loop (user_domain : Option Name) : List Node → List Node → Option (List Node)
  | a, [] => some a
  | a, addr :: b =>
    match mu_address_contains_email user_domain a addr.email with
    | none => none
    | some (true, a) => union_loop user_domain a b
    | some (false, a) =>
      match a.getLast? with
      | none => none
      | some last =>
        if last.email ≠ none then union_loop user_domain (a ++ [mu_address_dup addr]) b
        else union_loop user_domain (a.dropLast ++ [mu_list_copy last addr]) b

/-- `mu_address_union`; nothing if it does not succeed. -/
def mu_address_union (user_domain : Option Name) (a b : List Node) : Option (List Node) :=
  match a, b with
  | _, [] => none
  | [], addr :: b => union_loop user_domain [mu_address_dup addr] b
  | a, b => union_loop user_domain a b

/-- Both have an e-mail, and it is the same but for the case of its letters. -/
def sameEmail (m n : Node) : Bool :=
  match m.email, n.email with
  | some mine, some other => fold true mine = fold true other
  | _, _ => false

def among (a : List Node) (n : Node) : Bool := a.any (sameEmail · n)

/-- The nodes of the first list, and those of the second whose e-mail is not among the preceding ones. -/
def unionOf : List Node → List Node → List Node
  | a, [] => a
  | a, n :: b => unionOf (if among a n then a else a ++ [n]) b

/-- An e-mail that is among the preceding ones is so before the first node without an e-mail; and where a
    node is to be added, the last one has an e-mail. -/
def Searchable : List Node → List Node → Prop
  | _, [] => True
  | a, n :: b =>
    if among a n then among (a.takeWhile (·.email ≠ none)) n = true ∧ Searchable a b
    else (∀ last ∈ a.getLast?, last.email ≠ none) ∧ Searchable (a ++ [n]) b

/-- A node without an e-mail has no local part either. -/
def Plain (n : Node) : Prop := n.email = none → n.local_part = none

theorem validate_plain (user_domain : Option Name) {n : Node} (plain : Plain n) :
    mu_validate_email user_domain n = n := by
  rw [mu_validate_email]
  split
  next _ _ local_part domain none named _ =>
    rw [plain none] at named
    cases named
  · rfl

theorem dup_eq (n : Node) : mu_address_dup n = n := by
  obtain ⟨comments, personal, email, local_part, domain, route⟩ := n
  simp only [mu_address_dup, mu_list_copy, Option.or_none]

theorem copy_email (dst src : Node) : (mu_list_copy dst src).email = src.email.or dst.email := rfl

private theorem copy_plain {dst src : Node} (plain : Plain dst) (plain' : Plain src) : Plain (mu_list_copy dst src) := by
  intro none
  rw [copy_email, Option.or_eq_none_iff] at none
  show src.local_part.or dst.local_part = _
  rw [plain' none.1, plain none.2]
  rfl

section
variable (user_domain : Option Name) {m n : Node} {a : List Node}

theorem contains_stop (plain : Plain m) (none : m.email = none) (email : Option Name) :
    mu_address_contains_email user_domain (m :: a) email = some (false, m :: a) := by
  rw [mu_address_contains_email.eq_def]
  dsimp only
  rw [validate_plain user_domain plain, none]

theorem contains_some (plain : ∀ m ∈ a, Plain m) {email : Name} (there : n.email = some email) :
    mu_address_contains_email user_domain a n.email = some (among (a.takeWhile (·.email ≠ none)) n, a) := by
  induction a with
  | nil => rfl
  | cons m a ih =>
    have ih := ih fun m member => plain m (List.mem_cons_of_mem _ member)
    cases mine : m.email with
    | none =>
      rw [contains_stop user_domain (plain m List.mem_cons_self) mine,
        List.takeWhile_cons_of_neg (by rw [mine]; decide)]
      rfl
    | some name =>
      have same : sameEmail m n = decide (mu_c_strcasecmp name.1 email.1 = 0) := by
        rw [sameEmail, mine, there]
        exact decide_eq_decide.mpr (AssocArray.name_cmp_eq_zero true name email).symm
      rw [List.takeWhile_cons_of_pos (by rw [mine]; rfl), among, List.any_cons, ← among, same]
      rw [there] at ih ⊢
      rw [mu_address_contains_email.eq_def]
      dsimp only
      rw [validate_plain user_domain (plain m List.mem_cons_self), mine]
      dsimp only
      split
      next equal => rw [decide_eq_true equal, Bool.true_or]
      next other =>
        rw [ih, decide_eq_false other, Bool.false_or]
        rfl

theorem contains_none (plain : ∀ m ∈ a, Plain m) {found : Bool} {after : List Node}
    (searched : mu_address_contains_email user_domain a none = some (found, after)) : found = false ∧ after = a := by
  cases a with
  | nil =>
    cases searched
    exact ⟨rfl, rfl⟩
  | cons m a =>
    cases mine : m.email with
    | none =>
      rw [contains_stop user_domain (plain m List.mem_cons_self) mine] at searched
      cases searched
      exact ⟨rfl, rfl⟩
    | some name =>
      rw [mu_address_contains_email.eq_def] at searched
      dsimp only at searched
      rw [validate_plain user_domain (plain m List.mem_cons_self), mine] at searched
      cases searched

theorem among_none (none : n.email = none) : among a n = false := by
  rw [among, List.any_eq_false]
  intro m _
  rw [sameEmail, none]
  cases m.email with
  | none => exact Bool.false_ne_true
  | some name => exact Bool.false_ne_true

theorem contains_eq (plain : ∀ m ∈ a, Plain m) {found : Bool} {after : List Node}
    (searched : mu_address_contains_email user_domain a n.email = some (found, after)) :
    found = among (a.takeWhile (·.email ≠ none)) n ∧ after = a := by
  cases there : n.email with
  | none =>
    rw [there] at searched
    obtain ⟨rfl, rfl⟩ := contains_none user_domain plain searched
    exact ⟨(among_none there).symm, rfl⟩
  | some email =>
    rw [contains_some user_domain plain there] at searched
    cases searched
    exact ⟨rfl, rfl⟩

end

section
variable (user_domain : Option Name)

variable {user_domain : Option Name} {b : List Node}

theorem union_loop_step {n last : Node} {front result : List Node} (plain : ∀ m ∈ n :: b, Plain m)
    (plain_a : ∀ m ∈ front ++ [last], Plain m)
    (success : union_loop user_domain (front ++ [last]) (n :: b) = some result) :
    among ((front ++ [last]).takeWhile (·.email ≠ none)) n = true ∧
      union_loop user_domain (front ++ [last]) b = some result ∨
    among ((front ++ [last]).takeWhile (·.email ≠ none)) n = false ∧
      (last.email ≠ none ∧ (∀ m ∈ front ++ [last] ++ [n], Plain m) ∧
          union_loop user_domain (front ++ [last] ++ [n]) b = some result ∨
        last.email = none ∧ (∀ m ∈ front ++ [mu_list_copy last n], Plain m) ∧
          union_loop user_domain (front ++ [mu_list_copy last n]) b = some result) := by
  have here := plain n List.mem_cons_self
  rw [union_loop] at success
  split at success
  · cases success
  next after searched =>
    obtain ⟨found, rfl⟩ := contains_eq user_domain plain_a searched
    exact .inl ⟨found.symm, success⟩
  next after searched =>
    obtain ⟨missed, rfl⟩ := contains_eq user_domain plain_a searched
    rw [List.getLast?_concat] at success
    dsimp only at success
    refine .inr ⟨missed.symm, ?_⟩
    split at success
    next there =>
      rw [dup_eq] at success
      exact .inl ⟨there, List.forall_mem_append.mpr ⟨plain_a, List.forall_mem_singleton.mpr here⟩, success⟩
    next none =>
      rw [List.dropLast_concat] at success
      rw [List.forall_mem_append, List.forall_mem_singleton] at plain_a
      exact .inr ⟨not_not.mp none,
        List.forall_mem_append.mpr ⟨plain_a.1, List.forall_mem_singleton.mpr (copy_plain plain_a.2 here)⟩, success⟩

variable (plain : ∀ n ∈ b, Plain n)
include plain

/-- Only the last node can be copied over. -/
theorem union_loop_front {result : List Node} : ∀ {front : List Node} {last : Node},
    (∀ m ∈ front ++ [last], Plain m) → union_loop user_domain (front ++ [last]) b = some result →
      front <+: result := by
  induction b with
  | nil =>
    rintro front last _ ⟨⟩
    exact List.prefix_append front [last]
  | cons n b ih =>
    intro front last plain_a success
    have later := (List.forall_mem_cons.mp plain).2
    rcases union_loop_step plain plain_a success with ⟨-, success⟩ | ⟨-, ⟨-, plain_a, success⟩ | ⟨-, plain_a, success⟩⟩
    · exact ih later plain_a success
    · exact (List.prefix_append front [last]).trans (ih later plain_a success)
    · exact ih later plain_a success

/-- A last node with an e-mail is not. -/
theorem union_loop_whole {result front : List Node} {last : Node} (plain_a : ∀ m ∈ front ++ [last], Plain m)
    (there : last.email ≠ none) (success : union_loop user_domain (front ++ [last]) b = some result) :
    front ++ [last] <+: result := by
  induction b with
  | nil =>
    cases success
    exact List.prefix_rfl
  | cons n b ih =>
    have later := (List.forall_mem_cons.mp plain).2
    rcases union_loop_step plain plain_a success with ⟨-, success⟩ | ⟨-, ⟨-, plain_a, success⟩ | ⟨none, -⟩⟩
    · exact ih later success
    · exact union_loop_front later plain_a success
    · exact absurd none there

/-- A node is appended only after one that has an e-mail. -/
theorem union_loop_grows {result : List Node} : ∀ {front : List Node} {last : Node},
    (∀ m ∈ front ++ [last], Plain m) → union_loop user_domain (front ++ [last]) b = some result →
      result.length = front.length + 1 ∨ ∃ other, other.email ≠ none ∧ front ++ [other] <+: result := by
  induction b with
  | nil =>
    rintro front last _ ⟨⟩
    exact .inl List.length_append
  | cons n b ih =>
    intro front last plain_a success
    have later := (List.forall_mem_cons.mp plain).2
    rcases union_loop_step plain plain_a success with ⟨-, success⟩ | ⟨-, ⟨there, plain_a, success⟩ | ⟨-, plain_a, success⟩⟩
    · exact ih later plain_a success
    · exact .inr ⟨last, there, union_loop_front later plain_a success⟩
    · exact ih later plain_a success

end

theorem among_append (a c : List Node) (n : Node) : among (a ++ c) n = (among a n || among c n) := List.any_append

theorem among_sublist {a c : List Node} (fewer : a.Sublist c) {n : Node} (there : among a n = true) :
    among c n = true := by
  rw [among, List.any_eq_true] at there ⊢
  obtain ⟨m, member, same⟩ := there
  exact ⟨m, fewer.subset member, same⟩

theorem unionOf_extends (b : List Node) : ∀ a : List Node,
    ∃ added, unionOf a b = a ++ added ∧ ∀ n ∈ added, among a n = false := by
  induction b with
  | nil => exact fun a => ⟨[], (List.append_nil a).symm, List.forall_mem_nil _⟩
  | cons n b ih =>
    intro a
    rw [unionOf]
    split
    · exact ih a
    next missing =>
      rw [Bool.not_eq_true] at missing
      obtain ⟨added, whole, others⟩ := ih (a ++ [n])
      refine ⟨n :: added, by rw [whole, List.append_assoc]; rfl, List.forall_mem_cons.mpr ⟨missing, fun m member => ?_⟩⟩
      have other := others m member
      rw [among_append, Bool.or_eq_false_iff] at other
      exact other.1

/-- Two texts of one list that differ in the last node of its begin. -/
theorem same_last {front more added : List Node} {last other : Node}
    (same : front ++ [other] ++ more = front ++ [last] ++ added) : other = last := by
  rw [List.append_assoc, List.append_assoc] at same
  exact (List.cons.inj (List.append_cancel_left same)).1

theorem union_loop_iff (user_domain : Option Name) {result : List Node} (b : List Node) :
    ∀ {front : List Node} {last : Node}, (∀ m ∈ front ++ [last], Plain m) → (∀ n ∈ b, Plain n) →
      union_loop user_domain (front ++ [last]) b = some result →
        (result = unionOf (front ++ [last]) b ↔ Searchable (front ++ [last]) b) := by
  induction b with
  | nil =>
    rintro front last _ _ ⟨⟩
    exact iff_of_true rfl trivial
  | cons n b ih =>
    intro front last plain_a plain_b success
    have later := (List.forall_mem_cons.mp plain_b).2
    have round := union_loop_step plain_b plain_a success
    rw [unionOf, Searchable, List.getLast?_concat]
    by_cases there : among (front ++ [last]) n = true
    · -- The e-mail is there: it has to be found.
      rw [if_pos there, if_pos there]
      have email : n.email ≠ none := by
        intro none
        rw [among_none none] at there
        cases there
      obtain ⟨added, whole, others⟩ := unionOf_extends b (front ++ [last])
      rcases round with ⟨found, success⟩ | ⟨missed, ⟨-, longer, success⟩ | ⟨none, copied, success⟩⟩
      · rw [and_iff_right found]
        exact ih plain_a later success
      · refine iff_of_false (fun same => ?_) (fun both => by rw [missed] at both; cases both.1)
        obtain ⟨more, extended⟩ := union_loop_whole later longer email success
        rw [same, whole, List.append_assoc] at extended
        have member : n ∈ added := by
          rw [← List.append_cancel_left extended]
          exact List.mem_cons_self
        rw [others n member] at there
        cases there
      · refine iff_of_false (fun same => ?_) (fun both => by rw [missed] at both; cases both.1)
        have now : (mu_list_copy last n).email ≠ .none := by
          rw [copy_email, none, Option.or_none]
          exact email
        obtain ⟨more, extended⟩ := union_loop_whole later copied now success
        rw [same, whole] at extended
        rw [same_last extended] at now
        exact now none
    · -- It is not: the node has to be appended.
      rw [if_neg there, if_neg there]
      rcases round with ⟨found, -⟩ | ⟨-, ⟨email, longer, success⟩ | ⟨none, copied, success⟩⟩
      · exact absurd (among_sublist (List.takeWhile_sublist _) found) there
      · rw [and_iff_right fun m member => by cases member; exact email]
        exact ih longer later success
      · refine iff_of_false (fun same => ?_) (fun both => both.1 last rfl none)
        obtain ⟨added, whole, -⟩ := unionOf_extends b (front ++ [last] ++ [n])
        rw [whole, List.append_assoc (front ++ [last])] at same
        rcases union_loop_grows later copied success with short | ⟨other, email, more, extended⟩
        · rw [same] at short
          simp only [List.length_append, List.length_cons] at short
          omega
        · rw [same] at extended
          rw [same_last extended] at email
          exact email none

theorem unionOf_complete (b : List Node) : ∀ a : List Node, ∀ n ∈ b, n.email ≠ none → among (unionOf a b) n = true := by
  induction b with
  | nil => exact fun a => List.forall_mem_nil _
  | cons n b ih =>
    intro a m member email
    rw [unionOf]
    rcases List.mem_cons.mp member with rfl | member
    · have now : among (if among a m then a else a ++ [m]) m = true := by
        split
        next there => exact there
        · rw [among_append, Bool.or_eq_true]
          obtain ⟨name, there⟩ := Option.ne_none_iff_exists'.mp email
          refine .inr (List.any_eq_true.mpr ⟨m, List.mem_singleton_self m, ?_⟩)
          rw [sameEmail, there]
          exact decide_eq_true rfl
      obtain ⟨added, whole, -⟩ := unionOf_extends b (if among a m then a else a ++ [m])
      rw [whole, among_append, now, Bool.true_or]
    · exact ih _ m member email

/-- After a successful union the first list is its former nodes and the nodes of the second whose e-mail is
    not among the preceding ones, if and only if each e-mail that is there is found and the last node has one
    wherever a node is added. -/
theorem union_iff (user_domain : Option Name) {a b result : List Node} (plain_a : ∀ m ∈ a, Plain m)
    (plain_b : ∀ n ∈ b, Plain n) (success : mu_address_union user_domain a b = some result) :
    (result = unionOf a b ∧ ∀ n ∈ b, n.email ≠ none → among result n = true) ↔ Searchable a b := by
  have complete : (result = unionOf a b ∧ ∀ n ∈ b, n.email ≠ none → among result n = true) ↔ result = unionOf a b :=
    and_iff_left_of_imp fun same => same ▸ unionOf_complete b a
  rw [complete]
  cases b with
  | nil => cases a <;> cases success
  | cons n b =>
    cases a with
    | nil =>
      rw [mu_address_union, dup_eq] at success
      rw [List.forall_mem_cons] at plain_b
      have loop := @union_loop_iff user_domain result b [] n (List.forall_mem_singleton.mpr plain_b.1) plain_b.2 success
      exact loop.trans (and_iff_right nofun).symm
    | cons m a =>
      change union_loop user_domain (m :: a) (n :: b) = some result at success
      rw [← List.dropLast_append_getLast (List.cons_ne_nil m a)] at success plain_a ⊢
      exact union_loop_iff user_domain (n :: b) plain_a plain_b success

/-- Two mailboxes, and a group, which has no e-mail -/
def box : Node := { email := some ⟨ascii "b@c", by decide⟩ }

def box' : Node := { email := some ⟨ascii "B2@c", by decide⟩ }

def group : Node := { personal := some ⟨ascii "g", by decide⟩ }

theorem union_iff_boxes :
    [group, box, box'] = unionOf [group, box] [box'] ∧
      ∀ n ∈ [box'], n.email ≠ none → among [group, box, box'] n = true := by
  refine (union_iff none (a := [group, box]) (b := [box']) ?_ ?_ (by decide)).mpr ?_
  · unfold Plain
    decide
  · unfold Plain
    decide
  · rw [Searchable, if_neg (by decide)]
    refine ⟨fun last member => ?_, trivial⟩
    cases member
    exact nofun

/-- A mailbox after a group is not found, and a group at the end is overwritten. -/
theorem union_differs :
    (mu_address_union none [group, box] [box] = some [group, box, box] ∧ unionOf [group, box] [box] = [group, box]) ∧
      mu_address_union none [group] [box] = some [{ box with personal := group.personal }] ∧
        unionOf [group] [box] = [group, box] := by
  decide

end Mailutils.AddrUnion

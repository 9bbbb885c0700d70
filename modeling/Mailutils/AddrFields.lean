import Mailutils.Parse822

/-!
The e-mail, the local part and the domain of an address (`libmailutils/address/address.c`), each of which
is derived from the others when it is asked for. `mu_address_set_email` copies the local part from the
wrong place, and for an e-mail without an at sign it releases the other fields without clearing them. The
fields agree along a run of calls if and only if no e-mail that is set has a local part, and none without
an at sign is set while a local part or a domain is (`fields_agree_iff`).
-/
namespace Mailutils.AddrFields

/-- A pointer to a string: NULL, allocated, or released and not cleared. -/
inductive Slot
  | null
  | live (text : List UInt8)
  | freed
  deriving DecidableEq, Repr

/-- Three of the fields of `struct mu_address` -/
structure Node where
  email : Slot
  local_part : Slot
  domain : Slot
  deriving DecidableEq, Repr

def unset : Node := ⟨.null, .null, .null⟩

/-- `free`: what the pointer is after it. Releasing the same storage twice is undefined. -/
def Slot.free : Slot → Option Slot
  | .null => some .null
  | .live _ => some .freed
  | .freed => none

/-- The copy that a setter makes of its argument -/
def strdup : Option (List UInt8) → Slot
  | none => .null
  | some buf => .live buf

/-- The string at a pointer; reading released storage is undefined. -/
def Slot.read : Slot → Option (Option (List UInt8))
  | .null => some none
  | .live text => some (some text)
  | .freed => none

def mu_address_set_local_part (node : Node) (buf : Option (List UInt8)) : Option Node := do
  let _ ← node.local_part.free
  let _ ← node.email.free
  return { node with local_part := strdup buf, email := .null }

def mu_address_set_domain (node : Node) (buf : Option (List UInt8)) : Option Node := do
  let _ ← node.domain.free
  let _ ← node.email.free
  return { node with domain := strdup buf, email := .null }

/-- The characters of the local part are copied from the at sign on. -/
def mu_address_set_email (node : Node) (buf : Option (List UInt8)) : Option Node := do
  let _ ← node.email.free
  let local_part ← node.local_part.free
  let domain ← node.domain.free
  match buf with
  | none => return unset
  | some s =>
    match s.dropWhile (· ≠ AT) with
    | [] => return { email := .live s, local_part := local_part, domain := domain }
    | c :: rest =>
      let len := (s.takeWhile (· ≠ AT)).length
      return { email := .live s, local_part := .live ((c :: rest).take len), domain := .live rest }

/-- `mu_validate_email`, with the domain of the user. -/
def mu_validate_email (user_domain : Option (List UInt8)) (node : Node) : Option Node :=
  match node.email with
  | .null => do
    match ← node.local_part.read with
    | none => return node
    | some local_part =>
      let domain ← node.domain.read
      match domain.or user_domain with
      | some domain => return { node with email := .live (local_part ++ AT :: domain) }
      | none => return node
  | _ => some node

inductive Field
  | email
  | local_part
  | domain
  deriving DecidableEq

def Node.get (node : Node) : Field → Slot
  | .email => node.email
  | .local_part => node.local_part
  | .domain => node.domain

inductive Call
  | set_email (buf : Option (List UInt8))
  | set_local_part (buf : Option (List UInt8))
  | set_domain (buf : Option (List UInt8))
  | sget (field : Field)

/-- The node after a call, and what a getter returns. -/
def step (user_domain : Option (List UInt8)) (node : Node) : Call → Option (Node × Slot)
  | .set_email buf => (mu_address_set_email node buf).map (·, .null)
  | .set_local_part buf => (mu_address_set_local_part node buf).map (·, .null)
  | .set_domain buf => (mu_address_set_domain node buf).map (·, .null)
  | .sget .email => (mu_validate_email user_domain node).map fun node => (node, node.email)
  | .sget field => some (node, node.get field)

def run (user_domain : Option (List UInt8)) : Node → List Call → Option Node
  | node, [] => some node
  | node, call :: calls => (step user_domain node call).bind fun (node, _) => run user_domain node calls

/-- What holds of the node after a call: the fields agree, the e-mail that was set was split at its at
    sign, and no getter returns a field that was released. -/
structure Kept (user_domain : Option (List UInt8)) (call : Call) (node : Node) : Prop where
  agree : ∀ {email local_part domain : List UInt8}, node.email = .live email → node.local_part = .live local_part →
    node.domain = .live domain → email = local_part ++ AT :: domain
  split : ∀ {l d : List UInt8}, call = .set_email (some (l ++ AT :: d)) → AT ∉ l →
    node.local_part = .live l ∧ node.domain = .live d
  getters : ∀ field, ∃ after slot, step user_domain node (.sget field) = some (after, slot) ∧ slot ≠ .freed

/-- Every call of the sequence returns, and the node is kept after it. -/
def KeptFrom (user_domain : Option (List UInt8)) (node : Node) (calls : List Call) : Prop :=
  ∀ (before : List Call) (call : Call) (after : List Call), calls = before ++ call :: after →
    ∃ node', run user_domain node (before ++ [call]) = some node' ∧ Kept user_domain call node'

/-- A call that keeps the fields, given whether a local part and a domain are set: an e-mail has nothing
    before its at sign, or has no at sign and is set when the other fields are not. -/
def Allowed (had : Bool × Bool) : Call → Prop
  | .set_email (some s) => s.head? = some AT ∨ AT ∉ s ∧ had = (false, false)
  | _ => True

/-- Whether a local part and a domain are set after a call that is allowed. -/
def has (had : Bool × Bool) : Call → Bool × Bool
  | .set_email none => (false, false)
  | .set_email (some s) => (AT ∈ s, AT ∈ s)
  | .set_local_part buf => (buf.isSome, had.2)
  | .set_domain buf => (had.1, buf.isSome)
  | .sget _ => had

def Safe : Bool × Bool → List Call → Prop
  | _, [] => True
  | had, call :: calls => Allowed had call ∧ Safe (has had call) calls

/-- The pointer is to a string, or NULL. -/
def Slot.Set : Bool → Slot → Prop
  | true, slot => ∃ text, slot = .live text
  | false, slot => slot = .null

/-- No field was released, and the local part and the domain are set or not. -/
structure Sane (had : Bool × Bool) (node : Node) : Prop where
  email : node.email ≠ .freed
  local_part : node.local_part.Set had.1
  domain : node.domain.Set had.2
  agree : ∀ {email local_part domain : List UInt8}, node.email = .live email → node.local_part = .live local_part →
    node.domain = .live domain → email = local_part ++ AT :: domain

variable {slot : Slot}

theorem Slot.Set.ne {present : Bool} (set : slot.Set present) : slot ≠ .freed := by
  rintro rfl
  cases present with
  | true =>
    obtain ⟨text, same⟩ := set
    cases same
  | false => cases set

theorem Slot.Set.free {present : Bool} (set : slot.Set present) :
    slot.free = some (if present then .freed else .null) := by
  cases present with
  | true =>
    obtain ⟨text, rfl⟩ := set
    rfl
  | false =>
    cases set
    rfl

theorem Slot.Set.read {present : Bool} {slot : Slot} (set : slot.Set present) :
    ∃ text, slot.read = some text ∧ slot = strdup text := by
  cases present with
  | true =>
    obtain ⟨text, rfl⟩ := set
    exact ⟨some text, rfl, rfl⟩
  | false =>
    cases set
    exact ⟨none, rfl, rfl⟩

theorem free_ne (there : slot ≠ .freed) : ∃ after, slot.free = some after := by
  cases slot with
  | null => exact ⟨_, rfl⟩
  | live text => exact ⟨_, rfl⟩
  | freed => exact absurd rfl there

theorem strdup_set (buf : Option (List UInt8)) : (strdup buf).Set buf.isSome := by
  cases buf with
  | none => rfl
  | some text => exact ⟨text, rfl⟩

/-- An e-mail is put together from the other fields, or left as it is. -/
theorem validate_sane (user_domain : Option (List UInt8)) {had : Bool × Bool} {node : Node} (sane : Sane had node) :
    ∃ after, mu_validate_email user_domain node = some after ∧ Sane had after := by
  obtain ⟨local_part, read, text⟩ := sane.local_part.read
  obtain ⟨domain, read', text'⟩ := sane.domain.read
  rw [mu_validate_email]
  split
  next unset =>
    cases local_part with
    | none =>
      rw [read]
      exact ⟨node, rfl, sane⟩
    | some local_part =>
      rw [read, read']
      cases found : domain.or user_domain with
      | none =>
        refine ⟨node, ?_, sane⟩
        show (match domain.or user_domain with | some domain => _ | none => _) = _
        rw [found]
        rfl
      | some name =>
        refine ⟨{ node with email := .live (local_part ++ AT :: name) }, ?_, nofun, sane.local_part, sane.domain, ?_⟩
        · show (match domain.or user_domain with | some domain => _ | none => _) = _
          rw [found]
          rfl
        · intro email part dom same same_part same_domain
          cases same
          rw [text] at same_part
          rw [text'] at same_domain
          cases same_part
          cases domain with
          | none => cases same_domain
          | some domain =>
            cases same_domain
            cases found
            rfl
  · exact ⟨node, rfl, sane⟩

theorem getters_sane (user_domain : Option (List UInt8)) {had : Bool × Bool} {node : Node} (sane : Sane had node)
    (field : Field) :
    ∃ after slot, step user_domain node (.sget field) = some (after, slot) ∧ slot ≠ .freed ∧ Sane had after := by
  cases field with
  | email =>
    obtain ⟨after, valid, still⟩ := validate_sane user_domain sane
    exact ⟨after, after.email, by rw [step, valid]; rfl, still.email, still⟩
  | local_part => exact ⟨node, node.local_part, rfl, sane.local_part.ne, sane⟩
  | domain => exact ⟨node, node.domain, rfl, sane.domain.ne, sane⟩

variable {user_domain : Option (List UInt8)} {call : Call}

/-- No getter returns a field that was released only if none is. -/
theorem Kept.fields {node : Node}
    (kept : Kept user_domain call node) : node.local_part ≠ .freed ∧ node.domain ≠ .freed := by
  obtain ⟨after, slot, returned, there⟩ := kept.getters .local_part
  obtain ⟨after', slot', returned', there'⟩ := kept.getters .domain
  cases returned
  cases returned'
  exact ⟨there, there'⟩

theorem set_field_sane {had : Bool × Bool} {node : Node} (sane : Sane had node) (buf : Option (List UInt8)) :
    (∃ after, mu_address_set_local_part node buf = some after ∧ Sane (buf.isSome, had.2) after) ∧
      ∃ after, mu_address_set_domain node buf = some after ∧ Sane (had.1, buf.isSome) after := by
  obtain ⟨gone, freed⟩ := free_ne sane.email
  refine ⟨⟨{ node with local_part := strdup buf, email := .null }, ?_, nofun, strdup_set buf, sane.domain, nofun⟩,
    { node with domain := strdup buf, email := .null }, ?_, nofun, sane.local_part, strdup_set buf, nofun⟩
  · rw [mu_address_set_local_part, sane.local_part.free, freed]
    rfl
  · rw [mu_address_set_domain, sane.domain.free, freed]
    rfl

section
variable {had : Bool × Bool} {node : Node} (sane : Sane had node)
include sane

private theorem set_email_none : mu_address_set_email node none = some unset := by
  obtain ⟨gone, freed⟩ := free_ne sane.email
  rw [mu_address_set_email, freed, sane.local_part.free, sane.domain.free]
  rfl

theorem set_email_whole {s : List UInt8} (whole : AT ∉ s) :
    mu_address_set_email node (some s) =
      some ⟨.live s, if had.1 then .freed else .null, if had.2 then .freed else .null⟩ := by
  obtain ⟨gone, freed⟩ := free_ne sane.email
  have sign : s.dropWhile (· ≠ AT) = [] := by
    rw [List.dropWhile_eq_nil_iff]
    intro c member
    rw [decide_eq_true_eq]
    rintro rfl
    exact whole member
  rw [mu_address_set_email, freed, sane.local_part.free, sane.domain.free]
  show (match s.dropWhile (· ≠ AT) with | [] => _ | c :: rest => _) = _
  rw [sign]
  rfl

theorem set_email_split {l : List UInt8} (first : AT ∉ l) (d : List UInt8) :
    mu_address_set_email node (some (l ++ AT :: d)) =
      some ⟨.live (l ++ AT :: d), .live ((AT :: d).take l.length), .live d⟩ := by
  obtain ⟨gone, freed⟩ := free_ne sane.email
  have others : ∀ c ∈ l, decide (c ≠ AT) = true := by
    intro c member
    rw [decide_eq_true_eq]
    rintro rfl
    exact first member
  have sign : (l ++ AT :: d).dropWhile (· ≠ AT) = AT :: d := by
    rw [List.dropWhile_append_of_pos others, List.dropWhile_cons_of_neg (by decide)]
  have before : (l ++ AT :: d).takeWhile (· ≠ AT) = l := by
    rw [List.takeWhile_append_of_pos others, List.takeWhile_cons_of_neg (by decide), List.append_nil]
  rw [mu_address_set_email, freed, sane.local_part.free, sane.domain.free]
  show (match (l ++ AT :: d).dropWhile (· ≠ AT) with | [] => _ | c :: rest => _) = _
  rw [sign, before]
  rfl

end

theorem kept_of_sane (user_domain : Option (List UInt8)) {had : Bool × Bool} {node : Node} (sane : Sane had node)
    (split : ∀ {l d : List UInt8}, call = .set_email (some (l ++ AT :: d)) → AT ∉ l →
      node.local_part = .live l ∧ node.domain = .live d) : Kept user_domain call node where
  agree := sane.agree
  split := split
  getters field := by
    obtain ⟨after, slot, returned, there, -⟩ := getters_sane user_domain sane field
    exact ⟨after, slot, returned, there⟩

theorem unset_sane : Sane (false, false) unset := ⟨nofun, rfl, rfl, nofun⟩

theorem allowed_step (user_domain : Option (List UInt8)) {had : Bool × Bool} {node : Node} (sane : Sane had node)
    (allowed : Allowed had call) :
    ∃ after slot, step user_domain node call = some (after, slot) ∧ Sane (has had call) after ∧
      Kept user_domain call after := by
  cases call with
  | set_email buf =>
    rw [step]
    cases buf with
    | none =>
      rw [set_email_none sane]
      exact ⟨unset, .null, rfl, unset_sane, kept_of_sane user_domain unset_sane nofun⟩
    | some s =>
      rcases allowed with first | ⟨whole, rfl⟩
      · obtain ⟨d, rfl⟩ := List.head?_eq_some_iff.mp first
        have after : Sane (true, true) ⟨.live (AT :: d), .live [], .live d⟩ := by
          refine ⟨nofun, ⟨[], rfl⟩, ⟨d, rfl⟩, ?_⟩
          rintro email local_part domain ⟨⟩ ⟨⟩ ⟨⟩
          rfl
        have sign : has had (.set_email (some (AT :: d))) = (true, true) := by
          rw [has, decide_eq_true List.mem_cons_self]
        have set := set_email_split sane (List.not_mem_nil (a := AT)) d
        rw [List.nil_append] at set
        rw [set, sign]
        refine ⟨_, .null, rfl, after, kept_of_sane user_domain after fun {l d'} same other => ?_⟩
        cases l with
        | nil =>
          cases same
          exact ⟨rfl, rfl⟩
        | cons c l =>
          cases same
          exact absurd List.mem_cons_self other
      · have after : Sane (false, false) ⟨.live s, .null, .null⟩ := ⟨nofun, rfl, rfl, nofun⟩
        have sign : has (false, false) (.set_email (some s)) = (false, false) := by rw [has, decide_eq_false whole]
        rw [set_email_whole sane whole, sign]
        refine ⟨_, .null, rfl, after, kept_of_sane user_domain after fun {l d} same other => ?_⟩
        cases same
        exact absurd (List.mem_append_right l List.mem_cons_self) whole
  | set_local_part buf =>
    obtain ⟨after, set, still⟩ := (set_field_sane sane buf).1
    exact ⟨after, .null, by rw [step, set]; rfl, still, kept_of_sane user_domain still nofun⟩
  | set_domain buf =>
    obtain ⟨after, set, still⟩ := (set_field_sane sane buf).2
    exact ⟨after, .null, by rw [step, set]; rfl, still, kept_of_sane user_domain still nofun⟩
  | sget field =>
    obtain ⟨after, slot, returned, -, still⟩ := getters_sane user_domain sane field
    exact ⟨after, slot, returned, still, kept_of_sane user_domain still nofun⟩

theorem kept_allowed {had : Bool × Bool} {node after : Node}
    (sane : Sane had node) (returned : step user_domain node call = some (after, slot))
    (kept : Kept user_domain call after) : Allowed had call := by
  cases call with
  | set_email buf =>
    cases buf with
    | none => trivial
    | some s =>
      rw [step] at returned
      by_cases sign : AT ∈ s
      · obtain ⟨l, d, rfl, first⟩ := List.eq_append_cons_of_mem sign
        rw [set_email_split sane first] at returned
        cases returned
        have same := (kept.split rfl first).1
        cases l with
        | nil => exact .inl rfl
        | cons c l =>
          -- What was copied begins with the at sign.
          injection same with same
          rw [List.length_cons, List.take_succ_cons] at same
          rw [← (List.cons.inj same).1] at first
          exact absurd List.mem_cons_self first
      · rw [set_email_whole sane sign] at returned
        cases returned
        obtain ⟨local_part, domain⟩ := kept.fields
        obtain ⟨had_local, had_domain⟩ := had
        cases had_local with
        | true => exact absurd rfl local_part
        | false =>
          cases had_domain with
          | true => exact absurd rfl domain
          | false => exact .inr ⟨sign, rfl⟩
  | set_local_part buf => trivial
  | set_domain buf => trivial
  | sget field => trivial

theorem keptFrom_iff (calls : List Call) : ∀ {had : Bool × Bool} {node : Node},
    Sane had node → (KeptFrom user_domain node calls ↔ Safe had calls) := by
  induction calls with
  | nil =>
    intro had node _
    refine iff_of_true (fun before call after none => ?_) trivial
    cases before with
    | nil => cases none
    | cons c before => cases none
  | cons call calls ih =>
    intro had node sane
    refine ⟨fun kept => ?_, fun ⟨allowed, safe⟩ => ?_⟩
    · obtain ⟨after, ran, first⟩ := kept [] call calls rfl
      rw [List.nil_append, run] at ran
      obtain ⟨⟨node', slot⟩, returned, last⟩ := Option.bind_eq_some_iff.mp ran
      cases last
      have allowed := kept_allowed sane returned first
      obtain ⟨node'', slot', again, still, -⟩ := allowed_step user_domain sane allowed
      rw [returned] at again
      cases again
      refine ⟨allowed, (ih still).mp fun before call' rest same => ?_⟩
      obtain ⟨last, ran, kept⟩ := kept (call :: before) call' rest (by rw [same, List.cons_append])
      rw [List.cons_append, run, returned] at ran
      exact ⟨last, ran, kept⟩
    · obtain ⟨after, slot, returned, still, first⟩ := allowed_step user_domain sane allowed
      intro before call' rest same
      cases before with
      | nil =>
        cases same
        refine ⟨after, ?_, first⟩
        rw [List.nil_append, run, returned]
        rfl
      | cons c before =>
        cases same
        obtain ⟨last, ran, kept⟩ := (ih still).mpr safe before call' rest rfl
        refine ⟨last, ?_, kept⟩
        rw [List.cons_append, run, returned]
        exact ran

/-- The fields agree along a run of calls, if and only if every e-mail that is set is allowed. -/
theorem fields_agree_iff (user_domain : Option (List UInt8)) (calls : List Call) :
    KeptFrom user_domain unset calls ↔ Safe (false, false) calls :=
  keptFrom_iff calls unset_sane

/-- The local part of the e-mail that was set is wrong; and after another that has none, the getter returns
    the one that was released. -/
theorem fields_differ :
    (¬ KeptFrom none unset [.set_email (some [97, AT, 98])] ∧
      step none unset (.set_email (some [97, AT, 98])) = some (⟨.live [97, AT, 98], .live [AT], .live [98]⟩, .null)) ∧
    ¬ KeptFrom none unset [.set_local_part (some [97]), .set_email (some [98])] ∧
      (run none unset [.set_local_part (some [97]), .set_email (some [98])]).bind (step none · (.sget .local_part)) =
        some (⟨.live [98], .freed, .null⟩, .freed) := by
  refine ⟨⟨fun kept => ?_, by decide⟩, fun kept => ?_, by decide⟩
  · obtain ⟨allowed, -⟩ := (keptFrom_iff _ unset_sane).mp kept
    exact absurd allowed (by unfold Allowed; decide)
  · obtain ⟨-, allowed, -⟩ := (keptFrom_iff _ unset_sane).mp kept
    exact absurd allowed (by unfold Allowed; decide)

end Mailutils.AddrFields

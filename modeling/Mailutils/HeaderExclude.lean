import Mailutils.HeaderCopy

/-!
Which fields `mu_stream_header_copy` drops (`libmailutils/stream/hdrcpy.c`). The table of excluded names is sorted, so
that the names that agree with what was read so far stand together and the first of them is enough to go on: a field is
dropped exactly if its name is in the table (`field_copied`). Only its first line is dropped, however; the lines that
continue it are copied (`header_copy_exact_iff`).
-/
namespace Mailutils.HeaderExclude
open Mailutils.Filter Mailutils.Mailbox Mailutils.Stream Mailutils.HeaderCopy

def blank (c : UInt8) : Bool := c = 32 ∨ c = 9

/-- Bytes of which a name is made. -/
def nameByte (c : UInt8) : Bool := c ≠ COLON ∧ c ≠ LF ∧ c ≠ 0

/-- The name of a header field. -/
structure Name where
  text : List UInt8
  plain : text.all nameByte = true
  begins : text.head?.any (fun c => !blank c) = true

/-- The name as it is compared. -/
def Name.lower (name : Name) : List UInt8 := name.text.map tolower

/-- A field: its name, what stands behind the colon, and the lines that continue it. -/
structure Field where
  name : Name
  value : List UInt8
  continuation : List (List UInt8)
  value_line : LF ∉ value
  continued : ∀ line ∈ continuation, LF ∉ line ∧ line.head?.any blank = true

/-- The lines that continue a field, as they stand in the header. -/
def Field.folded (f : Field) : List UInt8 := f.continuation.flatMap (· ++ [LF])

def Field.text (f : Field) : List UInt8 := f.name.text ++ COLON :: f.value ++ [LF] ++ f.folded

/-- Whether the field has one of the names, in any letter case. -/
def Excluded (names : List Name) (f : Field) : Prop := f.name.lower ∈ names.map Name.lower

instance (names : List Name) (f : Field) : Decidable (Excluded names f) :=
  inferInstanceAs (Decidable (f.name.lower ∈ names.map Name.lower))

/-- The block without the excluded fields. -/
def withoutExcluded (names : List Name) (fields : List Field) : List UInt8 :=
  (fields.filter fun f => ¬ Excluded names f).flatMap Field.text

/-- What is copied of the block. -/
def copied (names : List Name) (fields : List Field) : List UInt8 :=
  fields.flatMap fun f => if Excluded names f then f.folded else f.text

section Table

theorem prefix_concat_iff {p name : List UInt8} {c : UInt8} (nonzero : c ≠ 0) :
    p ++ [c] <+: name ↔ p <+: name ∧ name.getD p.length 0 = c := by
  constructor
  · rintro ⟨rest, rfl⟩
    exact ⟨⟨c :: rest, by simp⟩, by simp⟩
  · rintro ⟨⟨rest, rfl⟩, here⟩
    cases rest with
    | nil => simp [nonzero.symm] at here
    | cons d rest =>
      have here : d = c := by simpa using here
      exact ⟨rest, by simp [here]⟩

variable {p : List UInt8}

theorem takeD_eq_iff (nonzero : 0 ∉ p) : ∀ {name : List UInt8},
    name.takeD p.length 0 = p ↔ p <+: name := by
  induction p with
  | nil => simp
  | cons c p ih =>
    intro name
    have rest : 0 ∉ p := fun found => nonzero (List.mem_cons_of_mem c found)
    have here : c ≠ 0 := fun zero => nonzero (by simp [zero])
    cases name with
    | nil => simp [here.symm]
    | cons d name =>
      rw [List.length_cons, List.takeD_succ, List.cons_eq_cons, ih rest, List.cons_prefix_cons]
      simp [eq_comm]

private theorem prefix_between : ∀ {a b c : List UInt8}, a ≤ b → b ≤ c → p <+: a → p <+: c → p <+: b := by
  induction p with
  | nil => simp
  | cons x p ih =>
    rintro _ b _ below above ⟨a, rfl⟩ ⟨c, rfl⟩
    cases b with
    | nil => simp at below
    | cons y b =>
      rw [List.cons_append, List.cons_le_cons_iff] at below above
      have same : x = y := by
        rcases below with less | ⟨same, -⟩
        · rcases above with more | ⟨same, -⟩
          · exact absurd less (UInt8.lt_asymm more)
          · exact same.symm
        · exact same
      subst same
      have below : p ++ a ≤ b := by simpa using below
      have above : b ≤ p ++ c := by simpa using above
      exact List.cons_prefix_cons.2 ⟨rfl, ih below above ⟨a, rfl⟩ ⟨c, rfl⟩⟩

private theorem nextName_spec {p : List UInt8} {c : UInt8} (nonzero : 0 ∉ p) (nonzero' : c ≠ 0) (rest : List (List UInt8)) :
    ∀ {name : List UInt8} {i : Nat}, p <+: name → (name :: rest).Pairwise (· ≤ ·) →
    (∃ mid next rest', rest = mid ++ next :: rest' ∧ nextName p.length c name rest i = some (i + 1 + mid.length) ∧
      p ++ [c] <+: next ∧ ∀ e ∈ mid, ¬ p ++ [c] <+: e) ∨
    (nextName p.length c name rest i = none ∧ ∀ e ∈ rest, ¬ p ++ [c] <+: e) := by
  induction rest with
  | nil => simp [nextName]
  | cons next rest ih =>
    intro name i agrees sorted
    have whole := (takeD_eq_iff nonzero).2 agrees
    rw [nextName, whole]
    by_cases differs : p ≠ next.takeD p.length 0
    · -- what follows is greater than `next`, so that nothing there can agree either
      refine .inr ⟨if_pos differs, fun e found begins => differs ?_⟩
      have begins : p <+: e := (List.prefix_append p [c]).trans begins
      obtain ⟨first, sorted⟩ := List.pairwise_cons.1 sorted
      have above : next ≤ e := by
        rcases List.mem_cons.1 found with rfl | found
        · exact List.le_refl _
        · exact (List.pairwise_cons.1 sorted).1 e found
      exact ((takeD_eq_iff nonzero).2 (prefix_between (first next (by simp)) above agrees begins)).symm
    · have same : p <+: next := (takeD_eq_iff nonzero).1 (not_not.1 differs).symm
      rw [if_neg differs]
      by_cases here : next.getD p.length 0 = c
      · exact .inl ⟨[], next, rest, rfl, if_pos here, (prefix_concat_iff nonzero').2 ⟨same, here⟩, by simp⟩
      · have not_here : ¬ p ++ [c] <+: next := fun begins => here ((prefix_concat_iff nonzero').1 begins).2
        rw [if_neg here]
        rcases ih (i := i + 1) same (List.pairwise_cons.1 sorted).2 with
          ⟨mid, found, rest', rfl, eq, begins, none⟩ | ⟨eq, none⟩
        · refine .inl ⟨next :: mid, found, rest', rfl, ?_, begins, ?_⟩
          · rw [eq, List.length_cons]
            congr 1
            omega
          · simpa [not_here] using none
        · exact .inr ⟨eq, by simpa [not_here] using none⟩

variable {exclude : List (List UInt8)}

/-- The entry `i` of the table is the first that begins with `p`. -/
def Agrees (exclude : List (List UInt8)) (p : List UInt8) (i : Nat) : Prop :=
  ∃ before name rest, exclude = before ++ name :: rest ∧ i = before.length ∧ p <+: name ∧ ∀ e ∈ before, ¬ p <+: e

/-- A sorted table of names, each with its colon. -/
structure Table (exclude : List (List UInt8)) : Prop where
  sorted : exclude.Pairwise (· ≤ ·)
  named : ∀ e ∈ exclude, ∃ name : Name, e = name.lower ++ [COLON]

theorem Agrees.entry {i : Nat} (agrees : Agrees exclude p i) :
    exclude.getD i [] ∈ exclude ∧ p <+: exclude.getD i [] := by
  obtain ⟨before, name, rest, rfl, rfl, begins, -⟩ := agrees
  simp [begins]

theorem nameByte_lower : ∀ c, nameByte c = true → nameByte (tolower c) = true := byte_forall (by decide +kernel)

theorem lower_plain (name : Name) : name.lower.all nameByte = true := by
  rw [Name.lower, List.all_map]
  exact List.all_eq_true.2 fun c found => nameByte_lower c (List.all_eq_true.1 name.plain c found)

theorem not_mem_of_plain (plain : p.all nameByte = true) {c : UInt8} (other : nameByte c = false) :
    c ∉ p := by
  intro found
  simpa [other] using List.all_eq_true.1 plain c found

theorem Table.goes_on (table : Table exclude) {p e : List UInt8} {c : UInt8} (entry : e ∈ exclude)
    (begins : p ++ [c] <+: e) (inside : c ≠ COLON) : e.getD (p.length + 1) 0 ≠ 0 := by
  obtain ⟨name, rfl⟩ := table.named e entry
  obtain ⟨rest, eq⟩ := begins
  rw [← eq]
  cases rest with
  | nil =>
    have last : p = name.lower ∧ c = COLON := by simpa using eq
    exact absurd last.2 inside
  | cons d rest =>
    have found : d ∈ name.lower ++ [COLON] := by simp [← eq]
    have nonzero : d ≠ 0 := by
      rcases List.mem_append.1 found with found | found
      · rintro rfl
        exact not_mem_of_plain (lower_plain name) rfl found
      · rw [List.mem_singleton.1 found]
        decide
    simpa using nonzero

theorem copy_init_spec {st : Copier} {c : UInt8} (notLF : c ≠ LF) (nonzero : c ≠ 0) :
    (∃ i, Agrees exclude [c] i ∧ copy_init exclude st c = { st with state := .expect, i, j := 1 }) ∨
    ((∀ e ∈ exclude, ¬ [c] <+: e) ∧ copy_init exclude st c = { st with state := .copy, j := 0 }) := by
  have begins (e : List UInt8) : e.getD 0 0 = c ↔ [c] <+: e := by
    simpa using (@prefix_concat_iff [] e c nonzero).symm
  rw [copy_init, if_neg notLF]
  cases found : exclude.findIdx? fun name => name.getD 0 0 = c with
  | none =>
    rw [List.findIdx?_eq_none_iff] at found
    refine .inr ⟨fun e mem agrees => ?_, rfl⟩
    exact absurd ((begins e).2 agrees) (by simpa using found e mem)
  | some i =>
    obtain ⟨inside, here, before⟩ := List.findIdx?_eq_some_iff_getElem.1 found
    refine .inl ⟨i, ⟨exclude.take i, exclude[i], exclude.drop (i + 1), by simp, by simp; omega, ?_, ?_⟩, rfl⟩
    · exact (begins _).1 (by simpa using here)
    · intro e mem agrees
      obtain ⟨k, bound, rfl⟩ := List.mem_take_iff_getElem.1 mem
      exact before k (by omega) (by simpa using (begins _).2 agrees)

theorem copy_expect_spec (table : Table exclude) {st : Copier} {p : List UInt8} {c : UInt8} (nonzero : 0 ∉ p)
    (nonzero' : c ≠ 0) (agrees : Agrees exclude p st.i) (length : st.j = p.length) :
    ((∀ e ∈ exclude, ¬ p ++ [c] <+: e) ∧ copy_expect exclude st c = { st with state := .copy }) ∨
    ∃ i, Agrees exclude (p ++ [c]) i ∧ copy_expect exclude st c =
      if c = COLON then { st with i, lookahead := [], state := .skip } else { st with i, j := st.j + 1 } := by
  obtain ⟨before, name, rest, split, index, begins, earlier⟩ := agrees
  have here : exclude.getD st.i [] = name := by simp [split, index]
  have after : exclude.drop (st.i + 1) = rest := by simp [split, index]
  have sorted : (name :: rest).Pairwise (· ≤ ·) := (List.pairwise_append.1 (split ▸ table.sorted)).2.1
  have earlier' : ∀ e ∈ before, ¬ p ++ [c] <+: e :=
    fun e found agrees => earlier e found ((List.prefix_append p [c]).trans agrees)
  have finish (i : Nat) (agrees : Agrees exclude (p ++ [c]) i)
      (chosen : (if name.getD st.j 0 = c then some st.i else nextName st.j c name rest st.i) = some i) :
      copy_expect exclude st c =
        if c = COLON then { st with i, lookahead := [], state := .skip } else { st with i, j := st.j + 1 } := by
    simp only [copy_expect, here, after, chosen]
    by_cases colon : c = COLON
    · rw [if_pos colon, if_pos colon]
    · rw [if_neg colon, if_neg colon, if_neg (length ▸ table.goes_on agrees.entry.1 agrees.entry.2 colon)]
  by_cases same : name.getD st.j 0 = c
  · have agrees : Agrees exclude (p ++ [c]) st.i :=
      ⟨before, name, rest, split, index, (prefix_concat_iff nonzero').2 ⟨begins, length ▸ same⟩, earlier'⟩
    exact .inr ⟨st.i, agrees, finish st.i agrees (if_pos same)⟩
  · have not_here : ¬ p ++ [c] <+: name := fun begins => same (length ▸ ((prefix_concat_iff nonzero').1 begins).2)
    rcases @nextName_spec p c nonzero nonzero' rest name st.i begins sorted with
      ⟨mid, next, rest', eq, found, goes_on, none⟩ | ⟨found, none⟩
    · have agrees : Agrees exclude (p ++ [c]) (st.i + 1 + mid.length) := by
        refine ⟨before ++ name :: mid, next, rest', by simp [split, eq], by simp [index]; omega, goes_on, ?_⟩
        rw [List.forall_mem_append, List.forall_mem_cons]
        exact ⟨earlier', not_here, none⟩
      exact .inr ⟨_, agrees, finish _ agrees (by rw [if_neg same, length, found])⟩
    · refine .inl ⟨?_, ?_⟩
      · rw [split, List.forall_mem_append, List.forall_mem_cons]
        exact ⟨earlier', not_here, none⟩
      · simp only [copy_expect, here, after, if_neg same]
        rw [length, found]

theorem Table.ends (table : Table exclude) {p e : List UInt8} (entry : e ∈ exclude) (begins : p ++ [COLON] <+: e) :
    e = p ++ [COLON] := by
  obtain ⟨name, rfl⟩ := table.named e entry
  rcases List.prefix_concat_iff.1 begins with eq | inside
  · exact eq.symm
  · exact absurd (inside.subset (by simp)) (not_mem_of_plain (lower_plain name) (rfl : nameByte COLON = false))

theorem Table.longer (table : Table exclude) {p e : List UInt8} (entry : e ∈ exclude) (begins : p <+: e)
    (inside : COLON ∉ p) : p.length < e.length := by
  obtain ⟨name, rfl⟩ := table.named e entry
  rcases List.prefix_concat_iff.1 begins with rfl | inside
  · simp at inside
  · have := inside.length_le
    simp
    omega

end Table

/-- A destination that is written at its end. -/
def ended (text : List UInt8) : File := ⟨text, text.length⟩

theorem write_ended (text data : List UInt8) : (ended text).write none data = (ended (text ++ data), true) := by
  rw [File.write, put_end rfl, ended, ended, List.length_append]

/-- A machine that expects the first byte of a line. -/
structure Ready (st : Copier) : Prop where
  init : st.state = .init
  empty : st.lookahead = []

section Lines
variable {exclude : List (List UInt8)} {la_max : Nat}

variable {st : Copier}

theorem copy_loop_cons {n : Nat} {dst : File} {c : UInt8} {src : List UInt8}
    (goes : (copy_byte exclude la_max none none st dst c).1.state ≠ .stop) :
    copy_loop exclude la_max {} n st dst (c :: src) =
      copy_loop exclude la_max {} (n + 1) (copy_byte exclude la_max none none st dst c).1
        (copy_byte exclude la_max none none st dst c).2 src := by
  rw [copy_loop]
  exact if_neg goes

theorem copy_byte_copy (state : st.state = .copy) (out : List UInt8) (c : UInt8) :
    copy_byte exclude la_max none none st (ended out) c =
      ({ st with lookahead := [], state := if c = LF then .init else .copy }, ended (out ++ st.lookahead ++ [c])) := by
  have unread : lookAhead la_max st c = (st, c) := by simp [lookAhead, state]
  simp only [copy_byte, unread, state, copy_copy]
  by_cases none : st.lookahead = []
  · simp [none, write_ended]
  · simp [none, write_ended]

theorem copy_byte_skip (state : st.state = .skip) (dst : File) (c : UInt8) :
    copy_byte exclude la_max none none st dst c = ({ st with state := if c = LF then .init else .skip }, dst) := by
  have unread : lookAhead la_max st c = (st, c) := by simp [lookAhead, state]
  simp only [copy_byte, unread, state]

theorem copy_line (text : List UInt8) : ∀ {n : Nat} {st : Copier} {out src : List UInt8}, LF ∉ text → st.state = .copy →
    ∃ n' st', Ready st' ∧ copy_loop exclude la_max {} n st (ended out) (text ++ LF :: src) =
      copy_loop exclude la_max {} n' st' (ended (out ++ st.lookahead ++ text ++ [LF])) src := by
  induction text with
  | nil =>
    intro n st out src line state
    refine ⟨n + 1, { st with lookahead := [], state := .init }, ⟨rfl, rfl⟩, ?_⟩
    rw [List.nil_append, copy_loop_cons] <;> simp [copy_byte_copy state]
  | cons c text ih =>
    intro n st out src line state
    obtain ⟨here, line⟩ : LF ≠ c ∧ LF ∉ text := by simpa using line
    obtain ⟨n', st', ready, eq⟩ := @ih (n + 1) { st with lookahead := [], state := .copy }
      (out ++ st.lookahead ++ [c]) src line rfl
    refine ⟨n', st', ready, ?_⟩
    rw [List.cons_append, copy_loop_cons]
    · simpa [copy_byte_copy state, here.symm] using eq
    · simp [copy_byte_copy state, here.symm]

theorem skip_line (text : List UInt8) : ∀ {n : Nat} {st : Copier} {dst : File} {src : List UInt8}, LF ∉ text →
    st.state = .skip → st.lookahead = [] → ∃ n' st', Ready st' ∧
      copy_loop exclude la_max {} n st dst (text ++ LF :: src) = copy_loop exclude la_max {} n' st' dst src := by
  induction text with
  | nil =>
    intro n st dst src line state empty
    refine ⟨n + 1, { st with state := .init }, ⟨rfl, empty⟩, ?_⟩
    rw [List.nil_append, copy_loop_cons] <;> simp [copy_byte_skip state]
  | cons c text ih =>
    intro n st dst src line state empty
    obtain ⟨here, line⟩ : LF ≠ c ∧ LF ∉ text := by simpa using line
    obtain ⟨n', st', ready, eq⟩ := @ih (n + 1) st dst src line state empty
    refine ⟨n', st', ready, ?_⟩
    rw [List.cons_append, copy_loop_cons]
    · rw [copy_byte_skip state, if_neg here.symm, ← state]
      exact eq
    · simp [copy_byte_skip state, here.symm]

theorem copy_byte_expect {st : Copier} (state : st.state = .expect) (room : st.lookahead.length < la_max) (dst : File)
    (c : UInt8) : copy_byte exclude la_max none none st dst c =
      (copy_expect exclude { st with lookahead := st.lookahead ++ [c] } (tolower c), dst) := by
  have held : lookAhead la_max st c = ({ st with lookahead := st.lookahead ++ [c] }, tolower c) := by
    rw [lookAhead, if_pos (.inr state), if_neg (by omega)]
  simp only [copy_byte, held, state]

theorem copy_byte_init {st : Copier} (ready : Ready st) (room : 0 < la_max) (dst : File) (c : UInt8) :
    copy_byte exclude la_max none none st dst c =
      (copy_init exclude { st with lookahead := [c] } (tolower c), dst) := by
  have held : lookAhead la_max st c = ({ st with lookahead := [c] }, tolower c) := by
    rw [lookAhead, if_pos (.inl ready.init), if_neg (by simp [ready.empty]; omega), ready.empty, List.nil_append]
  simp only [copy_byte, held, ready.init]

theorem rest_line {t value : List UInt8} (plain : t.all nameByte = true) (value_line : LF ∉ value) :
    LF ∉ t ++ COLON :: value := by
  have clean : LF ∉ t := not_mem_of_plain plain rfl
  simpa [clean, value_line] using (by decide : LF ≠ COLON)

theorem name_line (table : Table exclude) (room : ∀ e ∈ exclude, e.length ≤ la_max) {value : List UInt8}
    (value_line : LF ∉ value) (t : List UInt8) : ∀ {n : Nat} {st : Copier} {out src p : List UInt8},
    t.all nameByte = true → p.all nameByte = true → st.state = .expect → Agrees exclude p st.i → st.j = p.length →
    st.lookahead.length = p.length →
    ∃ n' st', Ready st' ∧ copy_loop exclude la_max {} n st (ended out) (t ++ COLON :: value ++ LF :: src) =
      copy_loop exclude la_max {} n' st' (ended (out ++ if p ++ t.map tolower ++ [COLON] ∈ exclude then []
        else st.lookahead ++ t ++ COLON :: value ++ [LF])) src := by
  induction t with
  | nil =>
    intro n st out src p plain before state agrees length held
    have nonzero : 0 ∉ p := not_mem_of_plain before rfl
    have inside : COLON ∉ p := not_mem_of_plain before rfl
    have shorter := table.longer agrees.entry.1 agrees.entry.2 inside
    have fits := room _ agrees.entry.1
    have colon : tolower COLON = COLON := by decide
    have byte := @copy_byte_expect exclude la_max st state (by omega) (ended out) COLON
    rw [colon] at byte
    rw [List.nil_append, List.cons_append, List.map_nil, List.append_nil]
    rcases @copy_expect_spec exclude table { st with lookahead := st.lookahead ++ [COLON] } p COLON nonzero (by decide)
      agrees length with ⟨none, next⟩ | ⟨i, agrees, next⟩
    · have absent : p ++ [COLON] ∉ exclude := fun found => none _ found List.prefix_rfl
      obtain ⟨n', st', ready, eq⟩ := @copy_line exclude la_max value (n + 1)
        { st with state := .copy, lookahead := st.lookahead ++ [COLON] } out src value_line rfl
      refine ⟨n', st', ready, ?_⟩
      rw [copy_loop_cons (by rw [byte, next]; simp), byte, next, eq, if_neg absent]
      simp
    · have present : p ++ [COLON] ∈ exclude := table.ends agrees.entry.1 agrees.entry.2 ▸ agrees.entry.1
      obtain ⟨n', st', ready, eq⟩ := @skip_line exclude la_max value (n + 1)
        { st with i, lookahead := [], state := .skip } (ended out) src value_line rfl rfl
      refine ⟨n', st', ready, ?_⟩
      rw [copy_loop_cons (by rw [byte, next]; simp), byte, next, if_pos rfl, eq, if_pos present, List.append_nil]
  | cons c t ih =>
    intro n st out src p plain before state agrees length held
    obtain ⟨here, plain⟩ : nameByte c = true ∧ t.all nameByte = true := by simpa using plain
    obtain ⟨notColon, -, nonzero'⟩ : tolower c ≠ COLON ∧ tolower c ≠ LF ∧ tolower c ≠ 0 := by
      simpa [nameByte] using nameByte_lower c here
    have nonzero : 0 ∉ p := not_mem_of_plain before rfl
    have inside : COLON ∉ p := not_mem_of_plain before rfl
    have shorter := table.longer agrees.entry.1 agrees.entry.2 inside
    have fits := room _ agrees.entry.1
    have byte := @copy_byte_expect exclude la_max st state (by omega) (ended out) c
    rw [List.cons_append, List.cons_append]
    rcases @copy_expect_spec exclude table { st with lookahead := st.lookahead ++ [c] } p (tolower c) nonzero nonzero'
      agrees length with ⟨none, next⟩ | ⟨i, agrees, next⟩
    · have absent : p ++ (c :: t).map tolower ++ [COLON] ∉ exclude :=
        fun found => none _ found ⟨t.map tolower ++ [COLON], by simp⟩
      obtain ⟨n', st', ready, eq⟩ := @copy_line exclude la_max (t ++ COLON :: value) (n + 1)
        { st with state := .copy, lookahead := st.lookahead ++ [c] } out src
        (rest_line plain value_line) rfl
      refine ⟨n', st', ready, ?_⟩
      rw [copy_loop_cons (by rw [byte, next]; simp), byte, next, eq, if_neg absent]
      simp
    · have before : (p ++ [tolower c]).all nameByte = true := by
        simp [before, nameByte_lower c here]
      obtain ⟨n', st', ready, eq⟩ := @ih (n + 1) { st with i, j := st.j + 1, lookahead := st.lookahead ++ [c] }
        out src (p ++ [tolower c]) plain before state agrees (by simp [length]) (by simp [held])
      refine ⟨n', st', ready, ?_⟩
      rw [copy_loop_cons (by rw [byte, next, if_neg notColon]; simp [state]), byte, next, if_neg notColon, eq]
      simp

/-- However the machine begins a line, it has then read `input`, written `output` and begins another one. -/
def Copies (exclude : List (List UInt8)) (la_max : Nat) (input output : List UInt8) : Prop :=
  ∀ n st out src, Ready st → ∃ n' st', Ready st' ∧ copy_loop exclude la_max {} n st (ended out) (input ++ src) =
    copy_loop exclude la_max {} n' st' (ended (out ++ output)) src

theorem copies_nil : Copies exclude la_max [] [] := by
  intro n st out src ready
  exact ⟨n, st, ready, by simp⟩

theorem Copies.append {a b x y : List UInt8} (first : Copies exclude la_max a x) (second : Copies exclude la_max b y) :
    Copies exclude la_max (a ++ b) (x ++ y) := by
  intro n st out src ready
  obtain ⟨n₁, st₁, ready₁, eq₁⟩ := first n st out (b ++ src) ready
  obtain ⟨n₂, st₂, ready₂, eq₂⟩ := second n₁ st₁ (out ++ x) src ready₁
  exact ⟨n₂, st₂, ready₂, by rw [List.append_assoc, eq₁, eq₂, List.append_assoc]⟩

theorem copies_flatMap {α : Type} {l : List α} {input output : α → List UInt8}
    (each : ∀ x ∈ l, Copies exclude la_max (input x) (output x)) :
    Copies exclude la_max (l.flatMap input) (l.flatMap output) := by
  induction l with
  | nil => exact copies_nil
  | cons x l ih =>
    rw [List.flatMap_cons, List.flatMap_cons]
    exact (each x (by simp)).append (ih fun y found => each y (by simp [found]))

theorem Table.not_blank (table : Table exclude) {c : UInt8} (white : blank c = true) : ∀ e ∈ exclude, ¬ [c] <+: e := by
  have kept : ∀ d, blank d = false → blank (tolower d) = false := byte_forall (by decide +kernel)
  intro e entry begins
  obtain ⟨name, rfl⟩ := table.named e entry
  have first := name.begins
  rw [Name.lower] at begins
  cases text : name.text with
  | nil => simp [text] at first
  | cons d t =>
    simp only [text, List.map_cons, List.cons_append, List.cons_prefix_cons] at begins
    have shown := kept d (by simpa [text] using first)
    rw [← begins.1, white] at shown
    cases shown

theorem continuation_copied (table : Table exclude) (room : 0 < la_max) {line : List UInt8} (whole : LF ∉ line)
    (begins : line.head?.any blank = true) : Copies exclude la_max (line ++ [LF]) (line ++ [LF]) := by
  have other : ∀ d, blank d = true → tolower d = d ∧ d ≠ LF ∧ d ≠ 0 := byte_forall (by decide +kernel)
  cases line with
  | nil => simp at begins
  | cons c t =>
    intro n st out src ready
    have white : blank c = true := by simpa using begins
    obtain ⟨lower, notLF, nonzero⟩ := other c white
    have byte := @copy_byte_init exclude la_max st ready room (ended out) c
    rw [lower] at byte
    rcases @copy_init_spec exclude { st with lookahead := [c] } c notLF nonzero with ⟨i, agrees, -⟩ | ⟨-, next⟩
    · exact absurd agrees.entry.2 (table.not_blank white _ agrees.entry.1)
    · obtain ⟨n', st', ready, eq⟩ := @copy_line exclude la_max t (n + 1)
        { st with state := .copy, j := 0, lookahead := [c] } out src (fun found => whole (by simp [found])) rfl
      refine ⟨n', st', ready, ?_⟩
      rw [List.cons_append, List.cons_append, copy_loop_cons (by rw [byte, next]; simp), byte, next,
        List.append_assoc, List.singleton_append, eq]
      simp

/-- The first line of a field is dropped if its name is in the table. -/
theorem first_copied (table : Table exclude) (room : ∀ e ∈ exclude, e.length ≤ la_max) (room' : 0 < la_max)
    (f : Field) : Copies exclude la_max (f.name.text ++ COLON :: f.value ++ [LF])
      (if f.name.lower ++ [COLON] ∈ exclude then [] else f.name.text ++ COLON :: f.value ++ [LF]) := by
  have plain := f.name.plain
  have begins := f.name.begins
  rw [Name.lower]
  cases text : f.name.text with
  | nil => simp [text] at begins
  | cons c t =>
    intro n st out src ready
    obtain ⟨here, plain⟩ : nameByte c = true ∧ t.all nameByte = true := by simpa [text] using plain
    obtain ⟨-, notLF, nonzero⟩ : tolower c ≠ COLON ∧ tolower c ≠ LF ∧ tolower c ≠ 0 := by
      simpa [nameByte] using nameByte_lower c here
    have byte := @copy_byte_init exclude la_max st ready room' (ended out) c
    rw [List.append_assoc, List.cons_append, List.cons_append, List.singleton_append]
    rcases @copy_init_spec exclude { st with lookahead := [c] } (tolower c) notLF nonzero with
      ⟨i, agrees, next⟩ | ⟨none, next⟩
    · obtain ⟨n', st', ready, eq⟩ := @name_line exclude la_max table room f.value f.value_line t (n + 1)
        { st with state := .expect, i, j := 1, lookahead := [c] } out src [tolower c] plain
        (by simp [nameByte_lower c here]) rfl agrees rfl rfl
      refine ⟨n', st', ready, ?_⟩
      rw [copy_loop_cons (by rw [byte, next]; simp), byte, next, eq]
      simp
    · have absent : (c :: t).map tolower ++ [COLON] ∉ exclude :=
        fun found => none _ found ⟨t.map tolower ++ [COLON], by simp⟩
      obtain ⟨n', st', ready, eq⟩ := @copy_line exclude la_max (t ++ COLON :: f.value) (n + 1)
        { st with state := .copy, j := 0, lookahead := [c] } out src (rest_line plain f.value_line) rfl
      refine ⟨n', st', ready, ?_⟩
      rw [copy_loop_cons (by rw [byte, next]; simp), byte, next, eq, if_neg absent]
      simp

end Lines

variable {names : List Name}

theorem mem_table_iff {e : List UInt8} :
    e ∈ make_exclusion_list (names.map Name.text) ↔ ∃ name ∈ names, e = name.lower ++ [COLON] := by
  simp [make_exclusion_list, Name.lower, eq_comm]

theorem le_foldl_max {l : List Nat} : ∀ {m k : Nat}, k ∈ l ∨ k ≤ m → k ≤ l.foldl max m := by
  induction l with
  | nil => simp
  | cons x l ih =>
    intro m k found
    rw [List.foldl_cons]
    apply ih
    rcases found with found | small
    · rcases List.mem_cons.1 found with rfl | found
      · exact .inr (Nat.le_max_right _ _)
      · exact .inl found
    · exact .inr (Nat.le_trans small (Nat.le_max_left _ _))

theorem table_made (names : List Name) : Table (make_exclusion_list (names.map Name.text)) where
  sorted := List.pairwise_insertionSort _ _
  named := by
    intro e found
    obtain ⟨name, -, eq⟩ := mem_table_iff.1 found
    exact ⟨name, eq⟩

theorem excluded_iff (names : List Name) (f : Field) :
    f.name.lower ++ [COLON] ∈ make_exclusion_list (names.map Name.text) ↔ Excluded names f := by
  simp [mem_table_iff, Excluded, eq_comm]

theorem length_le_longest {name : Name} (mem : name ∈ names) :
    (name.lower ++ [COLON]).length ≤ longest (names.map Name.text) := by
  apply le_foldl_max
  simpa [Name.lower] using ⟨name, mem, rfl⟩

theorem longest_pos (some : names ≠ []) : 0 < longest (names.map Name.text) := by
  obtain ⟨name, mem⟩ := List.exists_mem_of_ne_nil names some
  exact Nat.lt_of_lt_of_le (by simp) (length_le_longest mem)

/-- A field is dropped exactly if it has an excluded name, but for the lines that continue it. -/
theorem field_copied (names : List Name) (some : names ≠ []) (f : Field) :
    Copies (make_exclusion_list (names.map Name.text)) (longest (names.map Name.text)) f.text
      (if Excluded names f then f.folded else f.text) := by
  have room : ∀ e ∈ make_exclusion_list (names.map Name.text), e.length ≤ longest (names.map Name.text) := by
    intro e found
    obtain ⟨name, mem, rfl⟩ := mem_table_iff.1 found
    exact length_le_longest mem
  have first := first_copied (table_made names) room (longest_pos some) f
  have folded : Copies _ _ f.folded f.folded := copies_flatMap fun line found =>
    continuation_copied (table_made names) (longest_pos some) (f.continued line found).1 (f.continued line found).2
  have both := first.append folded
  by_cases excluded : Excluded names f
  · simpa [excluded_iff, excluded, Field.text] using both
  · simpa [excluded_iff, excluded, Field.text] using both

theorem header_copy_eq (names : List Name) (some : names ≠ []) (fields : List Field) (out rest : List UInt8) :
    mu_stream_header_copy {} (names.map Name.text) (ended out) (fields.flatMap Field.text ++ LF :: rest) =
      (ended (out ++ copied names fields), rest, true) := by
  have all : Copies _ _ (fields.flatMap Field.text) (copied names fields) :=
    copies_flatMap fun f _ => field_copied names some f
  obtain ⟨n, st, ready, eq⟩ := all 0 {} out (LF :: rest) ⟨rfl, rfl⟩
  have byte := @copy_byte_init (make_exclusion_list (names.map Name.text)) _ st ready (longest_pos some)
    (ended (out ++ copied names fields)) LF
  have stop : copy_loop (make_exclusion_list (names.map Name.text)) (longest (names.map Name.text)) {} n st
      (ended (out ++ copied names fields)) (LF :: rest) =
      ({ st with lookahead := [LF], state := .stop }, ended (out ++ copied names fields), rest, true) := by
    rw [copy_loop]
    simp only [byte]
    rfl
  simp only [mu_stream_header_copy, eq, stop]
  rfl

theorem copied_cons (names : List Name) (f : Field) (fields : List Field) :
    copied names (f :: fields) = (if Excluded names f then f.folded else f.text) ++ copied names fields := by
  rw [copied, copied, List.flatMap_cons]

theorem withoutExcluded_cons (names : List Name) (f : Field) (fields : List Field) :
    withoutExcluded names (f :: fields) =
      (if Excluded names f then [] else f.text) ++ withoutExcluded names fields := by
  by_cases excluded : Excluded names f
  · simp [withoutExcluded, excluded]
  · simp [withoutExcluded, excluded]

theorem folded_eq_nil_iff (f : Field) : f.folded = [] ↔ f.continuation = [] := by
  rw [Field.folded]
  cases f.continuation with
  | nil => simp
  | cons line lines => simp [List.flatMap_cons]

theorem withoutExcluded_length_le (names : List Name) (fields : List Field) :
    (withoutExcluded names fields).length ≤ (copied names fields).length := by
  induction fields with
  | nil => simp [withoutExcluded]
  | cons f fields ih =>
    rw [withoutExcluded_cons, copied_cons]
    split <;> simp <;> omega

theorem copied_eq_iff (names : List Name) (fields : List Field) : copied names fields = withoutExcluded names fields ↔
    ∀ f ∈ fields, Excluded names f → f.continuation = [] := by
  induction fields with
  | nil => simp [copied, withoutExcluded]
  | cons f fields ih =>
    rw [withoutExcluded_cons, copied_cons, List.forall_mem_cons, ← ih, ← folded_eq_nil_iff]
    by_cases excluded : Excluded names f
    · simp only [excluded, if_true, forall_const, List.nil_append]
      constructor
      · intro same
        have lengths := congrArg List.length same
        have least := withoutExcluded_length_le names fields
        have nothing : f.folded = [] := List.eq_nil_of_length_eq_zero (by simp at lengths; omega)
        exact ⟨nothing, by simpa [nothing] using same⟩
      · rintro ⟨nothing, same⟩
        rw [nothing, same, List.nil_append]
    · simp [excluded]

/-- The copy is the block without the excluded fields exactly if none of these has lines that continue it. -/
theorem header_copy_exact_iff (names : List Name) (some : names ≠ []) (fields : List Field) (out rest : List UInt8) :
    mu_stream_header_copy {} (names.map Name.text) (ended out) (fields.flatMap Field.text ++ LF :: rest) =
      (ended (out ++ withoutExcluded names fields), rest, true) ↔
    ∀ f ∈ fields, Excluded names f → f.continuation = [] := by
  rw [header_copy_eq names some, ← copied_eq_iff]
  constructor
  · intro same
    simpa [ended] using congrArg (·.1.content) same
  · intro same
    rw [same]

/-- `Bcc` -/
def bcc : Name := ⟨ascii "Bcc", by decide, by decide⟩

/-- The field `bCC: a` with the line ` b` behind it. -/
def folded_bcc : Field where
  name := ⟨ascii "bCC", by decide, by decide⟩
  value := ascii " a,"
  continuation := [ascii " b"]
  value_line := by decide
  continued := by decide

/-- The field `To: c`. -/
def to_c : Field := ⟨⟨ascii "To", by decide, by decide⟩, ascii " c", [], by decide, by decide⟩

/-- The field `To: c,` with the line ` d` behind it. -/
def folded_to : Field := ⟨⟨ascii "To", by decide, by decide⟩, ascii " c,", [ascii " d"], by decide, by decide⟩

/-- The field `bCC: a`. -/
def bcc_a : Field := ⟨⟨ascii "bCC", by decide, by decide⟩, ascii " a", [], by decide, by decide⟩

/-- A field of one line goes, and the folded one before it stays. -/
theorem header_copy_exact_folded :
    mu_stream_header_copy {} [ascii "Bcc"] (ended []) (ascii "To: c,\n d\nbCC: a\n" ++ LF :: ascii "text") =
      (ended (ascii "To: c,\n d\n"), ascii "text", true) :=
  (header_copy_exact_iff [bcc] (by decide) [folded_to, bcc_a] [] (ascii "text")).mpr (by decide)

/-- The second line of the field stays, as if it continued the field before. -/
theorem continuation_stays :
    withoutExcluded [bcc] [to_c, folded_bcc] = ascii "To: c\n" ∧
    mu_stream_header_copy {} [bcc.text] (ended []) ([to_c, folded_bcc].flatMap Field.text ++ LF :: ascii "text") =
      (ended (ascii "To: c\n b\n"), ascii "text", true) := by
  decide

end Mailutils.HeaderExclude

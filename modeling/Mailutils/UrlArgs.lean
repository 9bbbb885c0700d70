import Mailutils.Text

/-!
The vectors of arguments in a URL (`parse_param` of `libmailutils/url/create.c`). Only the slots of the first
allocation are zeroed; a vector that grew has slots without a value. The terminating NULL is stored only if
the vector is full, and an error releases every slot that was allocated. So the vector is terminated, and no
slot without a value is released, if and only if there are no more arguments than slots in the first
allocation, or as many as slots in a later one (`vectors_iff`).
-/
namespace Mailutils.UrlArgs
open Mailutils.Text

/-- `MU_ERR_PARSE`, which is returned instead of a part of a URL. -/
inductive Failure
  | parse
  deriving DecidableEq, Repr

/-- `getkn`: the token and what follows it. -/
def getkn (cur delim : List UInt8) : Except Failure (List UInt8 × List UInt8) :=
  if cur = [] then .error .parse else .ok (cur.take (strcspn cur delim), cur.drop (strcspn cur delim))

private theorem getkn_ok_iff {cur delim tok left : List UInt8} :
    getkn cur delim = .ok (tok, left) ↔
      cur ≠ [] ∧ cur = tok ++ left ∧ (∀ c ∈ tok, c ∉ delim) ∧ ∀ c ∈ left.head?, c ∈ delim := by
  rw [getkn, take_strcspn, drop_strcspn]
  by_cases nothing : cur = []
  · rw [if_pos nothing]
    exact ⟨nofun, fun parts => absurd nothing parts.1⟩
  rw [if_neg nothing, Except.ok.injEq, Prod.mk.injEq]
  constructor
  · rintro ⟨rfl, rfl⟩
    refine ⟨nothing, List.takeWhile_append_dropWhile.symm, fun c member => ?_, fun c member => ?_⟩
    · have free := List.mem_takeWhile_imp member
      exact of_decide_eq_true free
    · have stop := List.head?_dropWhile_not (fun c => decide (c ∉ delim)) cur
      rw [Option.mem_def.mp member] at stop
      exact not_not.mp (of_decide_eq_false stop)
  · rintro ⟨_, rfl, free, stop⟩
    have passed : ∀ c ∈ tok, decide (c ∉ delim) = true := fun c member => decide_eq_true (free c member)
    rw [List.takeWhile_append_of_pos passed, List.dropWhile_append_of_pos passed]
    cases left with
    | nil => exact ⟨List.append_nil tok, rfl⟩
    | cons c left =>
      have delimiter : c ∈ delim := stop c rfl
      rw [List.takeWhile_cons_of_neg (by simpa using delimiter), List.dropWhile_cons_of_neg (by simpa using delimiter)]
      exact ⟨List.append_nil tok, rfl⟩

/-- A slot of the vector: a pointer that was never stored, NULL, or a string. -/
inductive Slot
  | garbage
  | null
  | str (text : List UInt8)
  deriving DecidableEq, Repr

def INIT_ARRAY_SIZE : Nat := 16

/-- `expand_array`; the vector is NULL before the first allocation. -/
def expand_array (wv : Option (List Slot)) (incr : Nat) : List Slot :=
  match wv with
  | none => List.replicate INIT_ARRAY_SIZE .null
  | some wv => wv ++ List.replicate (if incr ≠ 0 then incr else wv.length) .garbage

/-- The loop of `parse_param`: what is left or an error, the vector and the number of arguments. -/
def param_loop (delim : List UInt8) :
    Nat → List UInt8 → Option (List Slot) → Nat → Except Failure (List UInt8) × Option (List Slot) × Nat
  | 0, _, wv, wn => (.error .parse, wv, wn)
  | fuel + 1, cur, wv, wn =>
    match getkn cur delim with
    | .error rc => (.error rc, wv, wn)
    | .ok (tok, cur) =>
      let slots := if wn = (wv.getD []).length then expand_array wv 0 else wv.getD []
      let slots := slots.set wn (.str tok)
      if cur ≠ [] ∧ cur.head? = delim.head? then param_loop delim fuel cur.tail (some slots) (wn + 1)
      else (.ok cur, some slots, wn + 1)

/-- Each slot is looked at; nothing, if one was never stored. -/
def mu_argcv_free (argv : List Slot) : Option Unit := if .garbage ∈ argv then none else some ()

/-- `parse_param`: the vector and what is left, or an error; nothing, if a slot is released that was never
    stored. -/
def parse_param (delim cur : List UInt8) : Option (Except Failure (List Slot × List UInt8)) :=
  match param_loop delim (cur.length + 1) cur none 0 with
  | (.ok cur, wv, wn) =>
    let slots := if wn = (wv.getD []).length then (expand_array wv 1).set wn .null else wv.getD []
    some (.ok (slots.take (wn + 1), cur))
  | (.error rc, wv, _) => (mu_argcv_free (wv.getD [])).map fun _ => .error rc

/-- The text up to a character that ends it, split at the separator. -/
def fields (sep : UInt8) (stops cur : List UInt8) : List (List UInt8) := (cur.takeWhile (· ∉ stops)).splitOn sep

/-- The string ends where an argument is expected. -/
def Trailing (sep : UInt8) (stops cur : List UInt8) : Prop :=
  (∀ c ∈ cur, c ∉ stops) ∧ (cur = [] ∨ cur.getLast? = some sep)

instance (sep : UInt8) (stops cur : List UInt8) : Decidable (Trailing sep stops cur) :=
  inferInstanceAs (Decidable (_ ∧ _))

/-- The number of arguments that are read. -/
def argCount (sep : UInt8) (stops cur : List UInt8) : Nat :=
  if Trailing sep stops cur then (fields sep stops cur).length - 1 else (fields sep stops cur).length

/-- No slot is released that was never stored, and a vector that is returned has the parts of the text and
    ends with NULL. -/
def Sound (sep : UInt8) (stops cur : List UInt8) : Prop :=
  ∃ out, parse_param (sep :: stops) cur = some out ∧
    ∀ argv rest, out = .ok (argv, rest) → argv = (fields sep stops cur).map .str ++ [.null]

/-- The slots after the arguments, in the k-th allocation after the first. -/
def unfilled (k : Nat) : Slot := if k = 0 then .null else .garbage

/-- The vector after these arguments were stored: it is full up to the last allocation. -/
def Stored (args : List (List UInt8)) : Option (List Slot) → Prop
  | none => args = []
  | some slots => args ≠ [] ∧ ∃ k, args.length ≤ 16 * 2 ^ k ∧ (k ≠ 0 → 16 * 2 ^ k < 2 * args.length) ∧
      slots = args.map .str ++ List.replicate (16 * 2 ^ k - args.length) (unfilled k)

variable {args : List (List UInt8)}

theorem store_next {slot : Slot} {n : Nat} (tok : List UInt8) :
    (args.map Slot.str ++ List.replicate (n + 1) slot).set args.length (.str tok) =
      (args ++ [tok]).map .str ++ List.replicate n slot := by
  rw [List.set_append_right _ _ (by rw [List.length_map]), List.length_map, Nat.sub_self, List.replicate_succ,
    List.set_cons_zero, List.map_append, List.append_assoc]
  rfl

private theorem stored_first (tok : List UInt8) :
    Stored [tok] (some ((expand_array none 0).set 0 (.str tok))) :=
  ⟨List.cons_ne_nil _ _, 0, Nat.le_add_left 1 15, nofun, rfl⟩

theorem vector_length (slot : Slot) {n : Nat} (room : args.length ≤ n) :
    (args.map Slot.str ++ List.replicate (n - args.length) slot).length = n := by
  rw [List.length_append, List.length_map, List.length_replicate]
  exact Nat.add_sub_cancel' room

variable {wv : Option (List Slot)}

theorem stored_step (stored : Stored args wv) (tok : List UInt8) :
    Stored (args ++ [tok]) (some
      ((if args.length = (wv.getD []).length then expand_array wv 0 else wv.getD []).set args.length (.str tok))) := by
  cases wv with
  | none =>
    cases stored
    exact stored_first tok
  | some slots =>
    obtain ⟨_, k, room, grown, rfl⟩ := stored
    have size := vector_length (unfilled k) room
    have count : (args ++ [tok]).length = args.length + 1 := by rw [List.length_append, List.length_singleton]
    refine ⟨by simp, ?_⟩
    rw [Option.getD_some, size, count]
    by_cases full : args.length = 16 * 2 ^ k
    · have twice : 16 * 2 ^ (k + 1) = 16 * 2 ^ k + 16 * 2 ^ k := by
        rw [Nat.pow_succ]
        omega
      have some_slots : 0 < 2 ^ k := Nat.two_pow_pos k
      have one_less : 16 * 2 ^ k = 16 * 2 ^ (k + 1) - (args.length + 1) + 1 := by omega
      refine ⟨k + 1, by omega, fun _ => by omega, ?_⟩
      rw [if_pos full, expand_array, if_neg (not_not.mpr rfl), size, Nat.sub_eq_zero_of_le full.ge,
        List.replicate_zero, List.append_nil, one_less, store_next]
      rfl
    · have one_less : 16 * 2 ^ k - args.length = 16 * 2 ^ k - (args.length + 1) + 1 := by omega
      refine ⟨k, by omega, fun later => Nat.lt_trans (grown later) (by omega), ?_⟩
      rw [if_neg full, one_less, store_next]

/-- The arguments that are read, and what is left. -/
def readArgs (delim : List UInt8) : Nat → List UInt8 → List (List UInt8) × Except Failure (List UInt8)
  | 0, _ => ([], .error .parse)
  | fuel + 1, cur =>
    match getkn cur delim with
    | .error rc => ([], .error rc)
    | .ok (tok, cur) =>
      if cur ≠ [] ∧ cur.head? = delim.head? then
        let rest := readArgs delim fuel cur.tail
        (tok :: rest.1, rest.2)
      else ([tok], .ok cur)

theorem param_loop_stored (delim : List UInt8) (fuel : Nat) (cur : List UInt8)
    (stored : Stored args wv) :
    ∃ wv', param_loop delim fuel cur wv args.length =
      ((readArgs delim fuel cur).2, wv', (args ++ (readArgs delim fuel cur).1).length) ∧
      Stored (args ++ (readArgs delim fuel cur).1) wv' := by
  induction fuel generalizing cur args wv with
  | zero => exact ⟨wv, by rw [param_loop, readArgs, List.append_nil], by rwa [readArgs, List.append_nil]⟩
  | succ fuel ih =>
    rw [param_loop, readArgs]
    rcases getkn cur delim with rc | ⟨tok, left⟩
    · exact ⟨wv, by rw [List.append_nil], by rwa [List.append_nil]⟩
    · have next := stored_step stored tok
      dsimp only
      by_cases more : left ≠ [] ∧ left.head? = delim.head?
      · obtain ⟨wv', loop, all⟩ := ih left.tail next
        rw [List.length_append, List.length_singleton] at loop
        rw [if_pos more, if_pos more, List.append_cons]
        exact ⟨wv', loop, all⟩
      · rw [if_neg more, if_neg more]
        exact ⟨_, by rw [List.length_append]; rfl, next⟩

section
variable {sep : UInt8} {stops tok : List UInt8}

theorem fields_last (free : ∀ c ∈ tok, c ∉ sep :: stops) : fields sep stops tok = [tok] := by
  have whole : tok.takeWhile (· ∉ stops) = tok :=
    List.takeWhile_eq_self_iff.mpr fun c member => decide_eq_true fun stop => free c member (.tail _ stop)
  rw [fields, whole]
  exact List.splitOn_eq_singleton fun member => free _ member (.head _)

theorem takeWhile_later (rest : List UInt8) (free : ∀ c ∈ tok, c ∉ sep :: stops) :
    (tok ++ rest).takeWhile (· ∉ stops) = tok ++ rest.takeWhile (· ∉ stops) :=
  List.takeWhile_append_of_pos fun c member => decide_eq_true fun stop => free c member (.tail _ stop)

theorem fields_stop {rest : List UInt8} {c : UInt8} (free : ∀ c ∈ tok, c ∉ sep :: stops) (stop : c ∈ stops) :
    fields sep stops (tok ++ c :: rest) = [tok] := by
  rw [fields, takeWhile_later _ free, List.takeWhile_cons_of_neg (by simpa using stop), List.append_nil]
  exact List.splitOn_eq_singleton fun member => free _ member (.head _)

theorem fields_more (rest : List UInt8) (free : ∀ c ∈ tok, c ∉ sep :: stops) (other : sep ∉ stops) :
    fields sep stops (tok ++ sep :: rest) = tok :: fields sep stops rest := by
  rw [fields, takeWhile_later _ free, List.takeWhile_cons_of_pos (by simpa using other)]
  exact List.splitOn_append_cons_self_of_not_mem (fun member => free _ member (.head _)) _

theorem not_trailing_last (some : tok ≠ []) (free : ∀ c ∈ tok, c ∉ sep :: stops) : ¬ Trailing sep stops tok := by
  rintro ⟨-, nothing | last⟩
  · exact some nothing
  · exact free sep (List.mem_of_getLast? last) (.head _)

theorem not_trailing_stop {rest : List UInt8} {c : UInt8} (stop : c ∈ stops) :
    ¬ Trailing sep stops (tok ++ c :: rest) :=
  fun trailing => trailing.1 c (List.mem_append_right _ (.head _)) stop

theorem trailing_more (rest : List UInt8) (free : ∀ c ∈ tok, c ∉ sep :: stops) (other : sep ∉ stops) :
    Trailing sep stops (tok ++ sep :: rest) ↔ Trailing sep stops rest := by
  have last : (tok ++ sep :: rest).getLast? = .some sep ↔ rest = [] ∨ rest.getLast? = .some sep := by
    cases rest with
    | nil => simp
    | cons c rest => simp [List.getLast?_append]
  have stops_free : (∀ c ∈ tok ++ sep :: rest, c ∉ stops) ↔ ∀ c ∈ rest, c ∉ stops := by
    refine ⟨fun all c member => all c (List.mem_append_right _ (.tail _ member)), fun all c member => ?_⟩
    rcases List.mem_append.mp member with first | later
    · exact fun stop => free c first (.tail _ stop)
    · rcases List.mem_cons.mp later with rfl | later
      · exact other
      · exact all c later
  rw [Trailing, Trailing, last, stops_free]
  simp

/-- The arguments are the parts of the text; the last part is not read if it is where the string ends. -/
theorem readArgs_eq (other : sep ∉ stops) (fuel : Nat) {cur : List UInt8} (enough : cur.length < fuel) :
    (Trailing sep stops cur → readArgs (sep :: stops) fuel cur = ((fields sep stops cur).dropLast, .error .parse)) ∧
      (¬ Trailing sep stops cur →
        ∃ rest, readArgs (sep :: stops) fuel cur = (fields sep stops cur, .ok rest)) := by
  induction fuel generalizing cur with
  | zero => exact absurd enough (Nat.not_lt_zero _)
  | succ fuel ih =>
    rw [readArgs]
    rcases read : getkn cur (sep :: stops) with rc | ⟨tok, left⟩
    · obtain rfl : cur = [] := by
        by_contra some
        rw [getkn, if_neg some] at read
        cases read
      cases read
      exact ⟨fun _ => rfl, fun other => absurd ⟨fun _ none => absurd none List.not_mem_nil, .inl rfl⟩ other⟩
    · obtain ⟨some, rfl, free, stop⟩ := getkn_ok_iff.mp read
      cases left with
      | nil =>
        rw [List.append_nil] at some ⊢
        refine ⟨fun trailing => absurd trailing (not_trailing_last some free), fun _ => ⟨[], ?_⟩⟩
        rw [fields_last free]
        exact if_neg fun more => more.1 rfl
      | cons c rest =>
        rcases List.mem_cons.mp (stop c rfl) with rfl | ends
        · have left : rest.length < fuel := by
            rw [List.length_append, List.length_cons] at enough
            omega
          have next := ih left
          rw [trailing_more rest free other, fields_more rest free other]
          dsimp only
          rw [if_pos ⟨List.cons_ne_nil _ _, rfl⟩, List.tail_cons]
          refine ⟨fun trailing => ?_, fun whole => ?_⟩
          · have some_arg : fields c stops rest ≠ [] := List.splitOn_ne_nil _ _
            rw [next.1 trailing, List.dropLast_cons_of_ne_nil some_arg]
          · obtain ⟨last, read⟩ := next.2 whole
            exact ⟨last, by rw [read]⟩
        · refine ⟨fun trailing => absurd trailing (not_trailing_stop ends), fun _ => ⟨c :: rest, ?_⟩⟩
          rw [fields_stop free ends]
          refine if_neg fun more => ?_
          obtain rfl := Option.some.inj more.2
          exact other ends

end

/-- A number of arguments for which no slot of a later allocation is left without a value. -/
def Fits (n : Nat) : Prop := n ≤ INIT_ARRAY_SIZE ∨ ∃ k, n = INIT_ARRAY_SIZE * 2 ^ k

theorem fits_iff {n k : Nat} (room : n ≤ 16 * 2 ^ k) (grown : k ≠ 0 → 16 * 2 ^ k < 2 * n) :
    Fits n ↔ k = 0 ∨ n = 16 * 2 ^ k := by
  constructor
  · intro fits
    refine or_iff_not_imp_left.mpr fun later => ?_
    have grown := grown later
    rcases fits with first | ⟨j, rfl⟩
    · have twice : 2 ^ 1 ≤ 2 ^ k := Nat.pow_le_pow_right (by decide) (Nat.pos_of_ne_zero later)
      rw [INIT_ARRAY_SIZE] at first
      omega
    · -- 2 ^ j ≤ 2 ^ k < 2 ^ (j + 1)
      have below : j ≤ k := (Nat.pow_le_pow_iff_right Nat.one_lt_two).mp (Nat.le_of_mul_le_mul_left room (by decide))
      have above : k < j + 1 := by
        rw [← Nat.pow_lt_pow_iff_right Nat.one_lt_two, Nat.pow_succ]
        rw [INIT_ARRAY_SIZE] at grown
        omega
      rw [Nat.le_antisymm below (Nat.le_of_lt_succ above), INIT_ARRAY_SIZE]
  · rintro (rfl | full)
    · exact .inl room
    · exact .inr ⟨k, full⟩

theorem unfilled_eq_null {k : Nat} : unfilled k = .null ↔ k = 0 := by
  rw [unfilled]
  split <;> simp_all

theorem unfilled_eq_garbage {k : Nat} : .garbage = unfilled k ↔ k ≠ 0 := by
  rw [unfilled]
  split <;> simp_all

theorem garbage_free_iff (stored : Stored args wv) :
    .garbage ∉ wv.getD [] ↔ Fits args.length := by
  cases wv with
  | none =>
    cases stored
    exact ⟨fun _ => .inl (Nat.zero_le _), fun _ => List.not_mem_nil⟩
  | some slots =>
    obtain ⟨_, k, room, grown, rfl⟩ := stored
    have full : 16 * 2 ^ k - args.length ≠ 0 ↔ args.length ≠ 16 * 2 ^ k := by omega
    rw [fits_iff room grown, Option.getD_some, List.mem_append, List.mem_replicate, full, unfilled_eq_garbage]
    simp only [List.mem_map, reduceCtorEq, and_false, exists_false, false_or, not_and, not_not]
    exact or_comm.trans or_iff_not_imp_left |>.symm

theorem terminated_iff {slots : List Slot} (stored : Stored args (some slots)) :
    (if args.length = slots.length then (expand_array (some slots) 1).set args.length .null else slots).take
        (args.length + 1) = args.map .str ++ [.null] ↔ Fits args.length := by
  obtain ⟨_, k, room, grown, rfl⟩ := stored
  have size := vector_length (unfilled k) room
  rw [fits_iff room grown, size]
  by_cases full : args.length = 16 * 2 ^ k
  · have one_more : expand_array (some (args.map Slot.str ++ List.replicate 0 (unfilled k))) 1 =
        args.map Slot.str ++ List.replicate (0 + 1) .garbage := by
      rw [List.replicate_zero, List.append_nil]
      rfl
    refine iff_of_true ?_ (.inr full)
    rw [if_pos full, Nat.sub_eq_zero_of_le full.ge, one_more, List.set_append_right _ _ (by rw [List.length_map]),
      List.length_map, Nat.sub_self]
    exact List.take_of_length_le (by simp)
  · have one_less : 16 * 2 ^ k - args.length = 16 * 2 ^ k - (args.length + 1) + 1 := by omega
    have taken : (args.map Slot.str ++ List.replicate (16 * 2 ^ k - args.length) (unfilled k)).take (args.length + 1) =
        args.map .str ++ [unfilled k] := by
      rw [one_less, List.replicate_succ, List.append_cons]
      exact List.take_left' (by simp)
    rw [if_neg full, taken, List.append_cancel_left_eq, List.singleton_inj, unfilled_eq_null]
    exact (or_iff_left full).symm

theorem sound_iff (sep : UInt8) (stops cur : List UInt8) (other : sep ∉ stops) :
    Sound sep stops cur ↔ Fits (argCount sep stops cur) := by
  obtain ⟨wv, loop, stored⟩ := param_loop_stored (sep :: stops) (cur.length + 1) cur (show Stored [] none from rfl)
  have read := readArgs_eq other (cur.length + 1) (Nat.lt_succ_self cur.length)
  rw [List.nil_append, List.length_nil] at loop
  rw [List.nil_append] at stored
  by_cases trailing : Trailing sep stops cur
  · rw [read.1 trailing] at loop stored
    have parsed : parse_param (sep :: stops) cur =
        (mu_argcv_free (wv.getD [])).map fun _ => .error .parse := by
      rw [parse_param, loop]
    rw [argCount, if_pos trailing, ← List.length_dropLast, ← garbage_free_iff stored, Sound, parsed, mu_argcv_free]
    by_cases garbage : Slot.garbage ∈ wv.getD []
    · rw [if_pos garbage]
      exact ⟨(fun ⟨_, nothing, _⟩ => nomatch nothing), (fun free => absurd garbage free)⟩
    · rw [if_neg garbage]
      exact ⟨fun _ => garbage, fun _ => ⟨.error .parse, rfl, fun _ _ => nofun⟩⟩
  · obtain ⟨rest, read⟩ := read.2 trailing
    rw [read] at loop stored
    have some_arg : fields sep stops cur ≠ [] := List.splitOn_ne_nil _ _
    rcases wv with _ | slots
    · exact absurd stored some_arg
    have parsed : parse_param (sep :: stops) cur = some (.ok
        ((if (fields sep stops cur).length = slots.length then
          (expand_array (some slots) 1).set (fields sep stops cur).length .null else slots).take
            ((fields sep stops cur).length + 1), rest)) := by
      rw [parse_param, loop]
      rfl
    rw [argCount, if_neg trailing, ← terminated_iff stored, Sound, parsed]
    constructor
    · rintro ⟨_, same, right⟩
      obtain rfl := Option.some.inj same
      exact right _ _ rfl
    · intro right
      refine ⟨_, rfl, fun argv _ same => ?_⟩
      obtain ⟨rfl, -⟩ := Prod.mk.inj (Except.ok.inj same)
      exact right

/-- For every text after `?` and after `;`, the arguments of the URL are the parts of the text and are followed
    by NULL, and no slot is released that was never stored, if and only if the number of arguments fits. -/
theorem vectors_iff (cur : List UInt8) :
    (Sound AMPERSAND [] cur ↔ Fits (argCount AMPERSAND [] cur)) ∧
      (Sound SEMICOLON [QUESTION] cur ↔ Fits (argCount SEMICOLON [QUESTION] cur)) :=
  ⟨sound_iff AMPERSAND [] cur (by decide), sound_iff SEMICOLON [QUESTION] cur (by decide)⟩

/-- Seventeen arguments, and seventeen with a separator at the end. -/
theorem vectors_not_terminated :
    ¬ Sound AMPERSAND [] (ascii "a&b&c&d&e&f&g&h&i&j&k&l&m&n&o&p&q") ∧
      ¬ Sound SEMICOLON [QUESTION] (ascii "a;b;c;d;e;f;g;h;i;j;k;l;m;n;o;p;q;") := by
  constructor
  · rintro ⟨out, parsed, right⟩
    have last : (parse_param [AMPERSAND] (ascii "a&b&c&d&e&f&g&h&i&j&k&l&m&n&o&p&q")).map
        (Except.map fun found => found.1.getLast?) = some (.ok (some .garbage)) := by decide
    rw [parsed] at last
    rcases out with rc | ⟨argv, rest⟩
    · cases last
    · have last : argv.getLast? = some .garbage := Except.ok.inj (Option.some.inj last)
      rw [right argv rest rfl, List.getLast?_concat] at last
      cases last
  · rintro ⟨out, parsed, -⟩
    have nothing : parse_param [SEMICOLON, QUESTION] (ascii "a;b;c;d;e;f;g;h;i;j;k;l;m;n;o;p;q;") = none := by
      decide
    rw [nothing] at parsed
    cases parsed

end Mailutils.UrlArgs

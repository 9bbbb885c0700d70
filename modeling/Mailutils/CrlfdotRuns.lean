import Mailutils.Crlfdot
import Mailutils.FilterRuns

/-!
The CRLFDOT decoder over any buffers (`libmailutils/filter/crlfdot.c`). Behind a dot that begins a line it means to
have two more bytes, but the test is for just one more: when the dot comes last in the buffer, the byte behind the
buffer is examined. While no line begins with a dot, the buffers make no difference (`crlfdot_buffers_iff`).
-/
namespace Mailutils.Crlfdot
open Mailutils.Transducer Mailutils.Filter

/-- The loop of `_crlfdot_decoder` when it may not look behind the buffer: `none` where it would. -/
def crlfdot_decode_within (osize : Nat) :
    DecodeState → List UInt8 → Nat → List UInt8 → Option (DecodeState × Nat × List UInt8)
  | state, [], i, output => some (state, i, output)
  | state, c :: rest, i, output =>
    if state ≠ .end ∧ output.length < osize then
      if c = CR then
        if rest = [] then some (state, i, output)
        else if rest.head? = some LF then
          crlfdot_decode_within osize (new_decode_state state c) rest (i + 1) output
        else crlfdot_decode_within osize (new_decode_state state c) rest (i + 1) (output ++ [c])
      else if c = DOT ∧ (state = .init ∨ state = .crlf) then
        if rest.length = 1 then some (state, i, output)
        else if rest = [] then none
        else if rest.head? ≠ some CR then
          crlfdot_decode_within osize (new_decode_state state c) rest (i + 1) output
        else crlfdot_decode_within osize (new_decode_state state c) rest (i + 1) (output ++ [c])
      else crlfdot_decode_within osize (new_decode_state state c) rest (i + 1) (output ++ [c])
    else some (state, i, output)

theorem headD_eq_iff {c past : UInt8} {rest : List UInt8} (more : rest ≠ []) :
    rest.headD past = c ↔ rest.head? = some c := by
  cases rest with
  | nil => exact absurd rfl more
  | cons d rest => simp

/-- A loop that does not look behind the buffer does not depend on what is there. -/
theorem decode_loop_of_within (past : UInt8) (osize : Nat) (state : DecodeState) (input : List UInt8) (i : Nat)
    (output : List UInt8) {r : DecodeState × Nat × List UInt8}
    (within : crlfdot_decode_within osize state input i output = some r) :
    crlfdot_decode_loop past osize state input i output = r := by
  induction input generalizing state i output with
  | nil => exact Option.some.inj within
  | cons c rest ih =>
    rw [crlfdot_decode_within] at within
    rw [crlfdot_decode_loop]
    by_cases going : state ≠ .end ∧ output.length < osize
    · rw [if_pos going] at within ⊢
      by_cases return' : c = CR
      · rw [if_pos return'] at within ⊢
        by_cases last : rest = []
        · rw [if_pos last] at within ⊢
          exact Option.some.inj within
        · rw [if_neg last] at within ⊢
          simp only [headD_eq_iff last]
          split at within <;> simp_all
      · rw [if_neg return'] at within ⊢
        split at within
        · next mark =>
          rw [if_pos mark]
          split at within
          · next one =>
            rw [if_pos one]
            exact Option.some.inj within
          · next one =>
            rw [if_neg one]
            split at within
            · cases within
            · next more =>
              simp only [ne_eq, headD_eq_iff more]
              split at within <;> simp_all
        · next notMark =>
          rw [if_neg notMark]
          exact ih _ _ _ within
    · rw [if_neg going] at within ⊢
      exact Option.some.inj within

/-- No line of a text begins with a dot, when the decoder comes to it in the given state. -/
def Undotted : DecodeState → List UInt8 → Prop
  | _, [] => True
  | state, c :: rest => ¬ (c = DOT ∧ (state = .init ∨ state = .crlf)) ∧ Undotted (new_decode_state state c) rest

/-- The states of the decoder while it has met no dot at the beginning of a line. -/
def Between (state : DecodeState) : Prop := state = .init ∨ state = .char ∨ state = .cr ∨ state = .crlf

variable {state : DecodeState}

theorem between_next {c : UInt8} (between : Between state)
    (plain : ¬ (c = DOT ∧ (state = .init ∨ state = .crlf))) : Between (new_decode_state state c) := by
  unfold Between at between ⊢
  rcases between with rfl | rfl | rfl | rfl <;> simp only [new_decode_state] <;> split_ifs <;> simp_all

private theorem singleton_prefix_iff (c : UInt8) (x : List UInt8) : [c] <+: x ↔ x.head? = some c := by
  cases x with
  | nil => simp
  | cons d rest => simp [List.cons_prefix_cons, eq_comm]

/-- A line begins with a dot at the beginning of the text, or behind the end of another line. -/
theorem undotted_iff (between : Between state) (x : List UInt8) :
    Undotted state x ↔ ((state = .init ∨ state = .crlf) → x.head? ≠ some DOT) ∧
      (state = .cr → ¬ [LF, DOT] <+: x) ∧ ¬ [CR, LF, DOT] <:+: x := by
  induction x generalizing state with
  | nil => simp [Undotted]
  | cons c rest ih =>
    have apart : CR ≠ LF := by decide
    have newline : new_decode_state state c = .crlf ↔ state = .cr ∧ c = LF := by
      rcases between with rfl | rfl | rfl | rfl <;> simp only [new_decode_state] <;> split_ifs <;> simp_all
    have return' : ¬ (c = DOT ∧ (state = .init ∨ state = .crlf)) → (new_decode_state state c = .cr ↔ c = CR) := by
      intro plain
      rcases between with rfl | rfl | rfl | rfl <;> simp only [new_decode_state] <;> split_ifs <;> simp_all
    have past : new_decode_state state c ≠ .init := by
      rcases between with rfl | rfl | rfl | rfl <;> simp only [new_decode_state] <;> split_ifs <;> simp
    rw [Undotted, List.infix_cons_iff, List.head?_cons, List.cons_prefix_cons, List.cons_prefix_cons,
      singleton_prefix_iff, ne_eq, Option.some_inj]
    constructor
    · rintro ⟨plain, later⟩
      rw [ih (between_next between plain), newline, return' plain] at later
      obtain ⟨line, half, inside⟩ := later
      refine ⟨fun bol dot => plain ⟨dot, bol⟩, fun cr both => line (.inr ⟨cr, both.1.symm⟩) both.2, ?_⟩
      rintro (⟨cr, mark⟩ | mark)
      · exact half cr.symm mark
      · exact inside mark
    · rintro ⟨first, half, inside⟩
      have plain : ¬ (c = DOT ∧ (state = .init ∨ state = .crlf)) := fun both => first both.2 both.1
      rw [ih (between_next between plain), newline, return' plain]
      refine ⟨plain, ?_, fun cr mark => inside (.inl ⟨cr.symm, mark⟩), fun mark => inside (.inr mark)⟩
      rintro (init | ⟨cr, lf⟩) dot
      · exact past init
      · exact half cr ⟨lf.symm, dot⟩

/-- What the decoder writes for a text when no line begins with a dot: a carriage return before a newline is
    dropped, and one that ends the text is left for the next buffer. -/
def decoded : List UInt8 → List UInt8
  | [] => []
  | [c] => if c = CR then [] else [c]
  | c :: d :: rest => if c = CR ∧ d = LF then decoded (d :: rest) else c :: decoded (d :: rest)

theorem decoded_plain {c : UInt8} (plain : c ≠ CR) (rest : List UInt8) : decoded (c :: rest) = c :: decoded rest := by
  cases rest with
  | nil => simp [decoded, plain]
  | cons d rest => simp [decoded, plain]

theorem decoded_return {rest : List UInt8} (more : rest ≠ []) :
    decoded (CR :: rest) = (if rest.head? = some LF then [] else [CR]) ++ decoded rest := by
  cases rest with
  | nil => exact absurd rfl more
  | cons d rest =>
    by_cases newline : d = LF <;> simp [decoded, newline]

theorem decoded_length (x : List UInt8) : (decoded x).length ≤ x.length := by
  induction x with
  | nil => exact Nat.le_refl 0
  | cons c rest ih =>
    by_cases plain : c = CR
    · by_cases last : rest = []
      · simp [plain, last, decoded]
      · rw [plain, decoded_return last, List.length_append, List.length_cons]
        split
        · exact Nat.le_trans (by simpa using ih) (Nat.le_succ _)
        · simp only [List.length_singleton]
          omega
    · simpa [decoded_plain plain] using ih

/-- The loop over a part of a text, with what comes behind that part: it stays inside the buffer, and ends when the
    part is read, but for a carriage return at its end, or the room is used up. -/
theorem within_account (osize : Nat) (tail : List UInt8) (input : List UInt8) (i : Nat)
    (output : List UInt8) (between : Between state) (undotted : Undotted state (input ++ tail)) :
    ∃ state' rest o, crlfdot_decode_within osize state input i output =
        some (state', i + (input.length - rest.length), output ++ o) ∧ rest <:+ input ∧
      Between state' ∧ Undotted state' (rest ++ tail) ∧ decoded (input ++ tail) = o ++ decoded (rest ++ tail) ∧
      (rest = [] ∨ rest = [CR] ∨ osize ≤ (output ++ o).length) ∧ (o = [] ∨ (output ++ o).length ≤ osize) := by
  induction input generalizing state i output with
  | nil =>
    exact ⟨state, [], [], by simp [crlfdot_decode_within], List.suffix_rfl, between, undotted, rfl, .inl rfl, .inl rfl⟩
  | cons c rest ih =>
    obtain ⟨plain, later⟩ := undotted
    rw [crlfdot_decode_within]
    by_cases room : output.length < osize
    · have going : state ≠ .end ∧ output.length < osize := by
        refine ⟨?_, room⟩
        rcases between with rfl | rfl | rfl | rfl <;> simp
      rw [if_pos going]
      have next := between_next between plain
      -- the rounds behind this one, when it writes `o`
      have onward (o : List UInt8) (short : o.length ≤ 1)
          (here : decoded (c :: (rest ++ tail)) = o ++ decoded (rest ++ tail)) :
          ∃ state' left o', crlfdot_decode_within osize (new_decode_state state c) rest (i + 1) (output ++ o) =
              some (state', i + ((c :: rest).length - left.length), output ++ o') ∧ left <:+ c :: rest ∧
            Between state' ∧ Undotted state' (left ++ tail) ∧
            decoded (c :: rest ++ tail) = o' ++ decoded (left ++ tail) ∧
            (left = [] ∨ left = [CR] ∨ osize ≤ (output ++ o').length) ∧
            (o' = [] ∨ (output ++ o').length ≤ osize) := by
        obtain ⟨state', left, o', loop, suffix, between', undotted', account, stops, bound⟩ :=
          ih (i + 1) (output ++ o) next later
        have size := suffix.length_le
        refine ⟨state', left, o ++ o', ?_, suffix.trans (List.suffix_cons c rest), between', undotted', ?_, ?_, ?_⟩
        · rw [loop, List.append_assoc, List.length_cons]
          congr 3
          omega
        · rw [List.cons_append, here, account, List.append_assoc]
        · rwa [← List.append_assoc]
        · right
          rcases bound with rfl | bound
          · simp only [List.append_nil, List.length_append]
            omega
          · rwa [← List.append_assoc]
      by_cases return' : c = CR
      · subst return'
        rw [if_pos rfl]
        by_cases last : rest = []
        · subst last
          exact ⟨state, [CR], [], by simp, List.suffix_rfl, between, ⟨plain, later⟩, rfl, .inr (.inl rfl), .inl rfl⟩
        · have head : (rest ++ tail).head? = rest.head? := List.head?_append_of_ne_nil _ last
          have here : decoded (CR :: (rest ++ tail)) = _ := decoded_return (by simp [last])
          rw [head] at here
          rw [if_neg last]
          split
          · next newline =>
            rw [if_pos newline] at here
            simpa using onward [] (by simp) here
          · next newline =>
            rw [if_neg newline] at here
            exact onward [CR] (by simp) here
      · rw [if_neg return', if_neg plain]
        exact onward [c] (by simp) (decoded_plain return' _)
    · rw [if_neg (fun going => room going.2)]
      exact ⟨state, c :: rest, [], by simp, List.suffix_rfl, between, ⟨plain, later⟩, rfl,
        .inr (.inr (by simpa using room)), .inl rfl⟩

/-- A text with a dot at the beginning of a line has a part, ending in such a dot, at which the loop looks behind the
    buffer. -/
theorem within_peeks (osize : Nat) (x : List UInt8) (i : Nat) (output : List UInt8)
    (between : Between state) (dotted : ¬ Undotted state x) (room : output.length + x.length ≤ osize) :
    ∃ k, crlfdot_decode_within osize state (x.take k) i output = none := by
  induction x generalizing state i output with
  | nil => exact absurd trivial dotted
  | cons c rest ih =>
    rw [List.length_cons] at room
    have going : state ≠ .end ∧ output.length < osize := by
      refine ⟨?_, by omega⟩
      rcases between with rfl | rfl | rfl | rfl <;> simp
    by_cases mark : c = DOT ∧ (state = .init ∨ state = .crlf)
    · refine ⟨1, ?_⟩
      rw [List.take_succ_cons, List.take_zero, crlfdot_decode_within, if_pos going, if_pos mark, if_neg]
      · simp
      · rw [mark.1]
        decide
    · have onward (o : List UInt8) (short : o.length ≤ 1) :
          ∃ k, crlfdot_decode_within osize (new_decode_state state c) (rest.take k) (i + 1) (output ++ o) = none :=
        ih (i + 1) (output ++ o) (between_next between mark) (fun rest => dotted ⟨mark, rest⟩) (by
          rw [List.length_append]
          omega)
      by_cases return' : c = CR
      · obtain ⟨k, peeks⟩ := onward (if rest.head? = some LF then [] else [CR]) (by split <;> simp)
        have more : rest.take k ≠ [] := by
          intro none
          simp [none, crlfdot_decode_within] at peeks
        have head : (rest.take k).head? = rest.head? := by
          rw [List.head?_take, if_neg]
          rintro rfl
          exact more rfl
        refine ⟨k + 1, ?_⟩
        rw [List.take_succ_cons, crlfdot_decode_within, if_pos going, if_pos return', if_neg more, head]
        split at peeks
        · next newline =>
          rw [if_pos newline]
          rwa [List.append_nil] at peeks
        · next newline =>
          rw [if_neg newline]
          rwa [← return'] at peeks
      · obtain ⟨k, peeks⟩ := onward [c] (by simp)
        refine ⟨k + 1, ?_⟩
        rw [List.take_succ_cons, crlfdot_decode_within, if_pos going, if_neg return', if_neg mark]
        exact peeks

/-- A call examines no byte behind its input buffer, and gives no larger size back than that of its output buffer. -/
def Inside (past : UInt8) (s : Session DecodeState) (o : Offer) : Prop :=
  crlfdot_decode_within o.room s.state (o.portion s.pending) 0 [] ≠ none ∧
    (crlfdot_decoder past s.state o.command (o.portion s.pending) o.room).osize ≤ o.room

/-- The decoder does not depend on the buffers: every call stays inside, and what the calls up to the end of the data
    write makes up what a single call on the whole text writes. -/
structure BufferIndependent (past : UInt8) (x : List UInt8) : Prop where
  inside : ∀ (schedule : List Offer) (o : Offer), (∀ o' ∈ schedule, 1 ≤ o'.room) → 1 ≤ o.room →
    (drive (crlfdot_decoder past) .init x schedule).eof = false →
      Inside past (drive (crlfdot_decoder past) .init x schedule) o
  output : ∃ calls, ∀ (schedule : List Offer) (room : Nat), (∀ o ∈ schedule, 1 ≤ o.room) → x.length ≤ room →
    (∀ before, before <+: schedule → before ≠ schedule →
      (drive (crlfdot_decoder past) .init x before).eof = false) →
    (drive (crlfdot_decoder past) .init x schedule).output <+: (crlfdot_decoder past .init .lastbuf x room).written ∧
      ((drive (crlfdot_decoder past) .init x schedule).eof = true ∨ calls < schedule.countP (·.last) →
        (drive (crlfdot_decoder past) .init x schedule).output = (crlfdot_decoder past .init .lastbuf x room).written)

theorem decoder_account (past : UInt8) {cmd : Command} (runs : cmd = .lastbuf ∨ cmd = .xcode)
    (input tail : List UInt8) (osize : Nat) (between : Between state) (undotted : Undotted state (input ++ tail)) :
    ∃ state' rest o, crlfdot_decoder past state cmd input osize =
        ⟨.ok, state', input.length - rest.length, o.length, o, false⟩ ∧
      crlfdot_decode_within osize state input 0 [] = some (state', input.length - rest.length, o) ∧ rest <:+ input ∧
      Between state' ∧ Undotted state' (rest ++ tail) ∧ decoded (input ++ tail) = o ++ decoded (rest ++ tail) ∧
      (rest = [] ∨ rest = [CR] ∨ osize ≤ o.length) ∧ o.length ≤ osize := by
  obtain ⟨state', rest, o, within, suffix, between', undotted', account, stops, bound⟩ :=
    within_account osize tail input 0 [] between undotted
  simp only [Nat.zero_add, List.nil_append] at within stops bound
  have loop := decode_loop_of_within past osize state input 0 [] within
  refine ⟨state', rest, o, ?_, within, suffix, between', undotted', account, stops, ?_⟩
  · have going : state' ≠ .end := by rcases between' with rfl | rfl | rfl | rfl <;> simp
    rcases runs with rfl | rfl <;> simp [crlfdot_decoder, loop, going]
  · rcases bound with rfl | bound
    · exact Nat.zero_le _
    · exact bound

/-- The state and the data that are pending have met no dot at the beginning of a line. -/
def Clean (state : DecodeState) (pending : List UInt8) : Prop := Between state ∧ Undotted state pending

theorem calls_account (past : UInt8) (state : DecodeState) (pending : List UInt8) (o : Offer)
    (clean : Clean state pending) (_ : 1 ≤ o.room) :
    (crlfdot_decoder past state o.command (o.portion pending) o.room).Accounts (fun _ p => decoded p) Clean state
      pending := by
  obtain ⟨tail, split, _⟩ := portion_append o pending
  obtain ⟨state', rest, out, reply, _, suffix, between, undotted, account, _, _⟩ :=
    decoder_account past o.command_cases (o.portion pending) tail o.room clean.1 (split ▸ clean.2)
  rw [reply]
  refine ⟨⟨between, ?_⟩, ?_⟩
  · rwa [drop_unread split suffix]
  · rw [written_all, drop_unread split suffix, ← account, ← split]

theorem calls_settle (past : UInt8) (state : DecodeState) (pending : List UInt8) (o : Offer)
    (clean : Clean state pending) (room : 1 ≤ o.room) (last : o.last = true) (more : decoded pending ≠ []) :
    (crlfdot_decoder past state o.command (o.portion pending) o.room).result = .ok ∧
      ((crlfdot_decoder past state o.command (o.portion pending) o.room).written ≠ [] ∨
        0 < (crlfdot_decoder past state o.command (o.portion pending) o.room).isize) := by
  have all : o.portion pending = pending := by simp [Offer.portion, last]
  obtain ⟨state', rest, out, reply, _, _, _, _, account, stops, _⟩ :=
    decoder_account past o.command_cases pending [] o.room clean.1 (by simpa using clean.2)
  rw [all, reply]
  refine ⟨rfl, .inl ?_⟩
  rw [written_all]
  rintro rfl
  rw [List.append_nil, List.append_nil, List.nil_append] at account
  rcases stops with rfl | rfl | full
  · exact more account
  · exact more account
  · simp at full
    omega

theorem drive_clean (past : UInt8) {x : List UInt8} (undotted : Undotted .init x) (schedule : List Offer)
    (rooms : ∀ o ∈ schedule, 1 ≤ o.room) :
    (drive (crlfdot_decoder past) .init x schedule).eof = false ∧
      Clean (drive (crlfdot_decoder past) .init x schedule).state
        (drive (crlfdot_decoder past) .init x schedule).pending := by
  refine foldl_keeps (Session.offer (crlfdot_decoder past)) (fun s => s.eof = false ∧ Clean s.state s.pending)
    (1 ≤ ·.room) ?_ schedule rooms _ ⟨rfl, .inl rfl, undotted⟩
  rintro s o ⟨going, clean⟩ room
  by_cases done : s.finished = true
  · simpa [Session.offer, done] using ⟨going, clean⟩
  · obtain ⟨tail, split, _⟩ := portion_append o s.pending
    obtain ⟨state', rest, out, reply, _, suffix, between, undotted, _, _, _⟩ :=
      decoder_account past o.command_cases (o.portion s.pending) tail o.room clean.1 (split ▸ clean.2)
    rw [offer_ok (by simpa using done) reply]
    refine ⟨by simp [going], between, ?_⟩
    rwa [drop_unread split suffix]

/-- The decoder does not depend on the buffers exactly when no line of the text begins with a dot. -/
theorem crlfdot_buffers_iff (past : UInt8) (x : List UInt8) :
    BufferIndependent past x ↔ x.head? ≠ some DOT ∧ ¬ [CR, LF, DOT] <:+: x := by
  have lines : Undotted .init x ↔ x.head? ≠ some DOT ∧ ¬ [CR, LF, DOT] <:+: x := by
    rw [undotted_iff (.inl rfl)]
    simp
  rw [← lines]
  constructor
  · intro independent
    by_contra dotted
    obtain ⟨k, peeks⟩ := within_peeks x.length x 0 [] (.inl rfl) dotted (by simp)
    have room : 1 ≤ x.length := by
      rw [Nat.one_le_iff_ne_zero, ne_eq, List.length_eq_zero_iff]
      rintro rfl
      exact dotted trivial
    -- the first call gets the text up to that dot
    have first := (independent.inside [] ⟨k, false, x.length⟩ (by simp) room rfl).1
    exact first peeks
  · intro undotted
    refine ⟨?_, (Session.start DecodeState.init x).work fun _ p => decoded p, ?_⟩
    · intro schedule o rooms room _
      obtain ⟨_, clean⟩ := drive_clean past undotted schedule rooms
      obtain ⟨tail, split, _⟩ := portion_append o (drive (crlfdot_decoder past) .init x schedule).pending
      obtain ⟨state', rest, out, reply, within, _, _, _, _, _, bound⟩ :=
        decoder_account past o.command_cases (o.portion _) tail o.room clean.1 (split ▸ clean.2)
      refine ⟨by simp [within], ?_⟩
      rw [reply]
      exact bound
    · intro schedule room rooms enough _
      have start : Clean .init x := ⟨.inl rfl, undotted⟩
      have single : (crlfdot_decoder past .init .lastbuf x room).written = decoded x := by
        obtain ⟨state', rest, out, reply, _, _, _, _, account, stops, bound⟩ :=
          decoder_account past (.inl rfl) x [] room (.inl rfl) (by simpa using undotted)
        rw [List.append_nil, List.append_nil] at account
        rw [reply, written_all, account]
        rcases stops with rfl | rfl | full
        · simp [decoded]
        · simp [decoded]
        · have size := congrArg List.length account
          have short := decoded_length x
          rw [List.length_append] at size
          have nothing : decoded rest = [] := by
            rw [← List.length_eq_zero_iff]
            omega
          rw [nothing, List.append_nil]
      rw [single]
      have sound := drive_sound (calls_account past) schedule rooms start
      refine ⟨⟨_, sound.account.symm⟩, ?_⟩
      rintro (ended | calls)
      · rw [(drive_clean past undotted schedule rooms).1] at ended
        cases ended
      · exact drive_settles (calls_account past) (fun _ _ => rfl)
          (fun state pending o clean room last => calls_settle past state pending o clean room last) schedule rooms
          start calls

/-- The end mark, its dot in a buffer of its own: the first call looks behind that buffer, and the call that comes to
    the end takes two bytes back though it has written but one. -/
theorem end_mark_cut :
    crlfdot_decode_within 9 .init ((Offer.mk 1 false 9).portion [DOT, CR, LF]) 0 [] = none ∧
      (drive (crlfdot_decoder 0) .init [DOT, CR, LF] [⟨1, false, 9⟩]).pending = [CR, LF] ∧
      (drive (crlfdot_decoder 0) .init [DOT, CR, LF] [⟨1, false, 9⟩]).eof = false ∧
      (crlfdot_decoder 0 (drive (crlfdot_decoder 0) .init [DOT, CR, LF] [⟨1, false, 9⟩]).state .lastbuf
        [CR, LF] 9).osize = 2 ^ 64 - 1 := by
  decide

end Mailutils.Crlfdot

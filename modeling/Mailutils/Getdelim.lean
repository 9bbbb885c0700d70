import Mailutils.Buffered

/-!
Reading up to a delimiter (`mu_stream_timed_getdelim` in `libmailutils/stream/stream.c`, without a timeout). A buffered
stream looks for the delimiter in its buffer, an unbuffered one reads byte by byte, and the line buffer of the caller
grows as needed. Both read the same: successive calls give the consecutive pieces of what the stream has
(`getdelim_splits`).
-/
namespace Mailutils.Buffered

section
variable {B : Type*} (m : Methods B) (delim fill : UInt8)

/-- The comparison of a `char` with the delimiter: bytes from 128 on are negative numbers. -/
def char_eq (c : UInt8) : Bool := c < 128 && c == delim

/-- What was read and the error that ended the loop, `size` bytes being asked for. -/
def _stream_scandelim : Nat → Stream B → Nat → List UInt8 → Option Errno × List UInt8 × Stream B
  | 0, stream, _, buf => (none, buf, stream)
  | fuel + 1, stream, size, buf =>
    if size = 0 then (none, buf, stream)
    else
      let (rc, after) := refill m stream
      if rc.isSome then (rc, buf, after)
      else if stream.pos = stream.level ∧ after.level = 0 then (none, buf, after)
      else
        let q := after.buffer.drop after.pos
        let p := q.findIdx? (· == delim)
        let len := min ((p.map (· + 1)).getD q.length) size
        let stream := { after with pos := after.pos + len }
        if p.isSome then (none, buf ++ q.take len, stream)
        else _stream_scandelim fuel stream (size - len) (buf ++ q.take len)

/-- The byte-wise loop, with the number of bytes that may follow. -/
def _stream_readdelim : Nat → Stream B → List UInt8 → Option Errno × List UInt8 × Stream B
  | 0, stream, buf => (none, buf, stream)
  | size + 1, stream, buf =>
    match mu_stream_read m stream 1 true with
    | (.error code, stream) => (some code, buf, stream)
    | (.ok [], stream) => (none, buf, stream)
    | (.ok (c :: _), stream) =>
      if char_eq delim c then (none, buf ++ [c], stream) else _stream_readdelim size stream (buf ++ [c])

/-- `*pbuf` with the bytes it points to, and `*psize`. -/
structure LineBuf where
  lineptr : Option (List UInt8)
  n : Nat
  deriving DecidableEq, Repr

def SIZE_MAX : Nat := 2 ^ 64 - 1

def ENOMEM : Errno := .other 12

/-- New memory is full of `fill`. -/
def bufexpand (line : LineBuf) (cur_len : Nat) : Except Errno LineBuf :=
  let line := if line.n = 0 then { line with lineptr := none } else line
  if cur_len = line.n then
    match line.lineptr with
    | none =>
      let n := if line.n = 0 then 64 else line.n
      .ok ⟨some (List.replicate n fill), n⟩
    | some block =>
      if SIZE_MAX / 3 * 2 ≤ line.n then .error ENOMEM
      else
        let n := line.n + (line.n + 1) / 2
        .ok ⟨some (block ++ List.replicate (n - block.length) fill), n⟩
  else .ok line

/-- Bytes stored at a place of the line. -/
def LineBuf.store (line : LineBuf) (i : Nat) (data : List UInt8) : LineBuf :=
  { line with lineptr := line.lineptr.map fun block => block.take i ++ data ++ block.drop (i + data.length) }

def LineBuf.block (line : LineBuf) : List UInt8 := line.lineptr.getD []

def read_part (stream : Stream B) (size : Nat) : Option Errno × List UInt8 × Stream B :=
  if stream.buftype = .none then _stream_readdelim m delim size stream []
  else _stream_scandelim m delim size stream size []

/-- The loop of `mu_stream_timed_getdelim`: the return code, `cur_len`, the line and the stream. -/
def getdelim_loop : Nat → Stream B → LineBuf → Nat → Option (Option Errno × Nat × LineBuf × Stream B)
  | 0, _, _, _ => none
  | fuel + 1, stream, line, cur_len =>
    match bufexpand fill line cur_len with
    | .error code => some (some code, cur_len, line, stream)
    | .ok line =>
      let (rc, data, stream) := read_part m delim stream (line.n - cur_len)
      let line := line.store cur_len data
      if rc.isSome ∨ data = [] then some (rc, cur_len, line, stream)
      else
        let cur_len := cur_len + data.length
        if char_eq delim (line.block.getD (cur_len - 1) 0) then some (none, cur_len, line, stream)
        else getdelim_loop fuel stream line cur_len

/-- The return code, `*pread`, the line and the stream; `none` if `fuel` rounds are too few. -/
def mu_stream_timed_getdelim (fuel : Nat) (stream : Stream B) (line : LineBuf) :
    Option (Option Errno × Nat × LineBuf × Stream B) :=
  match _stream_flush_buffer m stream false with
  | (some code, stream) => some (some code, 0, line, stream)
  | (none, stream) =>
    let line := if line.lineptr = none then { line with n := 0 } else line
    match getdelim_loop m delim fill fuel stream line 0 with
    | none => none
    | some (some code, cur_len, line, stream) => some (some code, cur_len, line, stream)
    | some (none, cur_len, line, stream) =>
      match bufexpand fill line cur_len with
      | .error code => some (some code, cur_len, line, stream)
      | .ok line => some (none, cur_len, line.store cur_len [0], stream)

/-- Calls with one line buffer until one gives nothing: what `*pread` and the line were after each of the others. -/
def getlines (rounds : Nat) : Nat → Stream B → LineBuf → Option (List (Nat × LineBuf))
  | 0, _, _ => none
  | calls + 1, stream, line =>
    match mu_stream_timed_getdelim m delim fill rounds stream line with
    | some (none, cur_len, line, stream) =>
      if cur_len = 0 then some [] else (getlines rounds calls stream line).map ((cur_len, line) :: ·)
    | _ => none
end

/-- The text up to its first delimiter. -/
def piece (delim : UInt8) : List UInt8 → List UInt8
  | [] => []
  | c :: text => if c = delim then [c] else c :: piece delim text

section
variable {delim : UInt8} {text rest : List UInt8}

theorem piece_append_of_not_mem (absent : delim ∉ text) (rest : List UInt8) :
    piece delim (text ++ rest) = text ++ piece delim rest := by
  induction text with
  | nil => rfl
  | cons c text ih =>
    rw [List.mem_cons, not_or] at absent
    rw [List.cons_append, piece, if_neg (Ne.symm absent.1), ih absent.2, List.cons_append]

private theorem piece_append_of_mem (present : delim ∈ text) (rest : List UInt8) :
    piece delim (text ++ rest) = piece delim text := by
  induction text with
  | nil => exact absurd present List.not_mem_nil
  | cons c text ih =>
    rw [List.cons_append, piece, piece]
    split
    next => rfl
    next other => rw [ih ((List.mem_cons.mp present).resolve_left (Ne.symm other))]

theorem piece_front (text : List UInt8) : piece delim text <+: text := by
  induction text with
  | nil => exact List.prefix_refl _
  | cons c text ih =>
    rw [piece]
    split
    next => exact ⟨text, rfl⟩
    next => exact (List.prefix_cons_inj c).mpr ih

theorem piece_ne_nil (some_text : text ≠ []) : piece delim text ≠ [] := by
  cases text with
  | nil => exact absurd rfl some_text
  | cons c text =>
    rw [piece]
    split <;> exact List.cons_ne_nil _ _

theorem piece_cases (delim : UInt8) (text : List UInt8) :
    delim ∉ text ∧ piece delim text = text ∨ ∃ front, delim ∉ front ∧ piece delim text = front ++ [delim] := by
  induction text with
  | nil => exact Or.inl ⟨List.not_mem_nil, rfl⟩
  | cons c text ih =>
    rw [piece]
    split
    next same => exact Or.inr ⟨[], List.not_mem_nil, by rw [same, List.nil_append]⟩
    next other =>
      rcases ih with ⟨absent, whole⟩ | ⟨front, absent, whole⟩
      · exact Or.inl ⟨by simp [absent, Ne.symm other], by rw [whole]⟩
      · exact Or.inr ⟨c :: front, by simp [absent, Ne.symm other], by rw [whole, List.cons_append]⟩

private theorem take_memchr (delim : UInt8) (q : List UInt8) :
    q.take (((q.findIdx? (· == delim)).map (· + 1)).getD q.length) = piece delim q ∧
      ((q.findIdx? (· == delim)).map (· + 1)).getD q.length ≤ q.length ∧
      ((q.findIdx? (· == delim)).isSome ↔ delim ∈ q) := by
  induction q with
  | nil => simp [piece]
  | cons c q ih =>
    rw [List.findIdx?_cons, piece]
    by_cases same : c = delim
    · simp [same]
    · have other : (c == delim) = false := beq_eq_false_iff_ne.mpr same
      simp only [other, if_neg same, Bool.false_eq_true, if_false]
      cases found : q.findIdx? (· == delim) with
      | none =>
        rw [found] at ih
        simpa [Ne.symm same] using ih
      | some i =>
        rw [found] at ih
        simpa [Ne.symm same] using ih
end

/-- A method that reads a part of what is left, which is `view`, and something unless nothing is left. -/
def Source {B : Type*} (m : Methods B) (view : B → List UInt8) : Prop :=
  ∀ (stream : Stream B) (n : Nat), 0 < n → ∃ data back, m.read stream n = (.ok data, { stream with back := back }) ∧
    data ++ view back = view stream.back ∧ data.length ≤ n ∧ (data = [] → view stream.back = [])

/-- A stream without unwritten data, from which `rest` is read next. -/
structure Gives {B : Type*} (view : B → List UInt8) (stream : Stream B) (rest : List UInt8) : Prop where
  readable : stream.readable = true
  err : stream.err = false
  clean : stream.dirty = false
  room : stream.buftype ≠ .none → 1 ≤ stream.bufsize
  unbuffered : stream.buftype = .none → stream.buffer = []
  pos : stream.pos ≤ stream.level
  ahead : stream.buffer.drop stream.pos ++ view stream.back = rest
  eof : stream.eof = true → view stream.back = []

section
variable {B : Type*} {m : Methods B} {view : B → List UInt8} {stream : Stream B} {rest : List UInt8} {delim : UInt8}

theorem read_unbuffered_source (source : Source m view) (gives : Gives view stream rest) (empty : stream.buffer = [])
    {n : Nat} (some_n : 0 < n) : ∃ data back eof last_err, _stream_read_unbuffered m stream n false =
      (.ok data, { stream with back := back, eof := eof, last_err := last_err }) ∧ data ++ view back = rest ∧
      data.length ≤ n ∧ (data = [] → rest = []) ∧ (eof = true → view back = []) := by
  have pos := gives.pos
  have ahead := gives.ahead
  have eof := gives.eof
  rw [empty, List.drop_nil, List.nil_append] at ahead
  rw [Stream.level, empty, List.length_nil] at pos
  have now : mu_stream_eof stream = stream.eof := by
    rw [mu_stream_eof, Stream.level, empty, List.length_nil, Nat.le_zero.mp pos]
    simp
  rw [_stream_read_unbuffered, if_neg (by rw [gives.readable]; decide), if_neg (by rw [gives.err]; decide), now]
  cases ended : stream.eof with
  | true =>
    rw [if_pos (Or.inl rfl)]
    rw [eof ended] at ahead
    exact ⟨[], stream.back, true, stream.last_err, by rw [← ended], by rw [eof ended, ← ahead]; rfl, Nat.zero_le _,
      fun _ => ahead.symm, fun _ => eof ended⟩
  | false =>
    obtain ⟨data, back, read, whole, few, none_left⟩ := source stream n some_n
    rw [if_neg (by simpa using Nat.ne_of_gt some_n), if_neg Bool.false_ne_true, read]
    refine ⟨data, back, data.isEmpty, none, ?_, by rw [whole, ahead], few, fun none => ahead ▸ none_left none, ?_⟩
    · simp [mu_stream_seterr, ended, gives.err]
    · intro none
      have empty := List.isEmpty_iff.mp none
      rw [empty, List.nil_append] at whole
      rw [whole]
      exact none_left empty

theorem Gives.fresh (gives : Gives view stream rest) (buffer : List UInt8) {back : B} {eof : Bool}
    (last_err : Option Errno) (offset : Nat) (unbuffered : stream.buftype = .none → buffer = [])
    (ended : eof = true → view back = []) :
    Gives view
      { stream with
        back := back, eof := eof, last_err := last_err, offset := offset, buffer := buffer, pos := 0 }
      (buffer ++ view back) :=
  ⟨gives.readable, gives.err, gives.clean, gives.room, unbuffered, Nat.zero_le _, rfl, ended⟩

theorem Gives.direct (gives : Gives view stream rest) (empty : stream.buffer = []) {back : B} {eof : Bool}
    (last_err : Option Errno) (offset : Nat) (ended : eof = true → view back = []) :
    Gives view { stream with back := back, eof := eof, last_err := last_err, offset := offset } (view back) :=
  ⟨gives.readable, gives.err, gives.clean, gives.room, gives.unbuffered, gives.pos, by
    dsimp only
    rw [empty, List.drop_nil, List.nil_append], ended⟩

theorem fill_line_source (source : Source m view) : ∀ {n : Nat} {stream : Stream B} {rest : List UInt8}
    (line : List UInt8), Gives view stream rest → stream.buffer = [] → ∃ data back eof last_err,
      fill_line m n stream line =
      (none, line ++ data, { stream with back := back, eof := eof, last_err := last_err }) ∧ data ++ view back = rest ∧
      (0 < n → data = [] → rest = []) ∧ (eof = true → view back = []) := by
  intro n
  induction n with
  | zero =>
    intro stream rest line gives empty
    have ahead := gives.ahead
    rw [empty, List.drop_nil] at ahead
    exact ⟨[], stream.back, stream.eof, stream.last_err, by rw [List.append_nil]; rfl, ahead,
      fun none => absurd none (Nat.lt_irrefl 0), gives.eof⟩
  | succ n ih =>
    intro stream rest line gives empty
    obtain ⟨data, back, eof, last_err, read, whole, few, none_left, ended⟩ :=
      read_unbuffered_source source gives empty Nat.one_pos
    rw [fill_line, read]
    cases data with
    | nil =>
      refine ⟨[], back, true, last_err, ?_, whole, fun _ => none_left, fun _ => ?_⟩
      · rw [List.append_nil]
      · rw [none_left rfl] at whole
        exact whole
    | cons c data =>
      obtain rfl : data = [] := List.length_eq_zero_iff.mp (Nat.le_zero.mp (Nat.le_of_succ_le_succ few))
      dsimp only
      split
      next =>
        exact ⟨[c], back, eof, last_err, rfl, whole, fun _ none => absurd none (List.cons_ne_nil _ _), ended⟩
      next =>
        obtain ⟨data, back', eof', last_err', filled, whole', _, ended'⟩ :=
          ih (line ++ [c]) (gives.direct empty last_err stream.offset ended) empty
        refine ⟨c :: data, back', eof', last_err', ?_, ?_, fun _ none => absurd none (List.cons_ne_nil _ _), ended'⟩
        · rw [filled, List.append_assoc, List.singleton_append]
        · rw [List.cons_append, whole']
          exact whole

theorem fill_gives (source : Source m view) (gives : Gives view stream rest) (empty : stream.buffer = [])
    (buffered : stream.buftype ≠ .none) : ∃ after, _stream_fill_buffer m stream = (none, after) ∧
      Gives view after rest ∧ after.buftype = stream.buftype ∧ after.pos = 0 ∧ (after.level = 0 → rest = []) := by
  have room := gives.room buffered
  have after_fill : ∀ (data : List UInt8) (back : B) (eof : Bool) (last_err : Option Errno), data ++ view back = rest →
      (eof = true → view back = []) →
      Gives view { stream with back := back, eof := eof, last_err := last_err, buffer := data, pos := 0 } rest := by
    intro data back eof last_err whole ended
    exact whole ▸ gives.fresh data last_err stream.offset (fun none => absurd none buffered) ended
  rw [_stream_fill_buffer]
  cases kind : stream.buftype with
  | none => exact absurd kind buffered
  | full =>
    obtain ⟨data, back, eof, last_err, read, whole, _, none_left, ended⟩ :=
      read_unbuffered_source source gives empty room
    dsimp only
    rw [read]
    exact ⟨_, rfl, after_fill data back eof last_err whole ended, kind, rfl,
      fun none => none_left (List.length_eq_zero_iff.mp none)⟩
  | line =>
    obtain ⟨data, back, eof, last_err, read, whole, none_left, ended⟩ :=
      fill_line_source (n := stream.bufsize) source [] gives empty
    dsimp only
    rw [read]
    exact ⟨_, rfl, after_fill data back eof last_err whole ended, kind, rfl,
      fun none => none_left room (List.length_eq_zero_iff.mp none)⟩

/-- The buffer after it was filled if it was used up: something is in it unless nothing is left. -/
theorem refill_gives (source : Source m view) (gives : Gives view stream rest) (buffered : stream.buftype ≠ .none) :
    ∃ after, refill m stream = (none, after) ∧ Gives view after rest ∧ after.buftype = stream.buftype ∧
      (after.pos < after.level ∨ stream.pos = stream.level ∧ after.level = 0 ∧ rest = []) := by
  rw [refill]
  by_cases used : stream.pos = stream.level
  · have ahead := gives.ahead
    rw [used, Stream.level, List.drop_length, List.nil_append] at ahead
    have fresh := gives.fresh [] stream.last_err (stream.offset + stream.level) (fun _ => rfl) gives.eof
    rw [List.nil_append, ahead] at fresh
    obtain ⟨after, filled, gives', kind, pos, none_left⟩ := fill_gives source fresh rfl buffered
    rw [if_pos used, flush_clean gives.clean]
    refine ⟨after, filled, gives', kind, ?_⟩
    rcases Nat.eq_zero_or_pos after.level with none | some
    · exact Or.inr ⟨used, none, none_left none⟩
    · exact Or.inl (pos ▸ some)
  · rw [if_neg used]
    exact ⟨stream, rfl, gives, rfl, Or.inl (Nat.lt_of_le_of_ne gives.pos used)⟩

theorem Gives.advance (gives : Gives view stream rest) (len : Nat) (few : len ≤ stream.level - stream.pos) :
    Gives view { stream with pos := stream.pos + len } (rest.drop len) := by
  have pos := gives.pos
  refine ⟨gives.readable, gives.err, gives.clean, gives.room, gives.unbuffered, ?_, ?_, gives.eof⟩
  · show stream.pos + len ≤ stream.level
    omega
  · rw [← gives.ahead, List.drop_append_of_le_length (by rw [List.length_drop]; exact few), List.drop_drop]

/-- What one round of the scan takes from the buffer is the beginning of the piece. -/
theorem take_piece {q : List UInt8} (v : List UInt8) (absent : delim ∉ q) (size : Nat) :
    (piece delim (q ++ v)).take size =
      q.take (min q.length size) ++
        (piece delim ((q ++ v).drop (min q.length size))).take (size - min q.length size) := by
  rw [piece_append_of_not_mem absent]
  rcases Nat.le_total size q.length with short | long
  · rw [Nat.min_eq_right short, Nat.sub_self, List.take_zero, List.append_nil, List.take_append_of_le_length short]
  · rw [Nat.min_eq_left long, List.drop_left, List.take_length, List.take_append, List.take_of_length_le long]

theorem scandelim_spec (source : Source m view) : ∀ {fuel size : Nat} {stream : Stream B} {rest : List UInt8}
    (buf : List UInt8), Gives view stream rest → stream.buftype ≠ .none → size ≤ fuel → ∃ after,
      _stream_scandelim m delim fuel stream size buf = (none, buf ++ (piece delim rest).take size, after) ∧
      Gives view after (rest.drop ((piece delim rest).take size).length) ∧ after.buftype = stream.buftype := by
  intro fuel
  induction fuel with
  | zero =>
    intro size stream rest buf gives _ enough
    rw [Nat.le_zero.mp enough, List.take_zero, List.append_nil]
    exact ⟨stream, rfl, gives, rfl⟩
  | succ fuel ih =>
    intro size stream rest buf gives buffered enough
    rw [_stream_scandelim]
    by_cases none_left : size = 0
    · rw [if_pos none_left, none_left, List.take_zero, List.append_nil]
      exact ⟨stream, rfl, gives, rfl⟩
    · obtain ⟨after, refilled, gives', kind, filled⟩ := refill_gives source gives buffered
      rw [if_neg none_left, refilled]
      dsimp only
      rw [if_neg (by decide)]
      rcases filled with some_left | ⟨used, empty, rfl⟩
      · rw [if_neg (by omega)]
        have length : (after.buffer.drop after.pos).length = after.level - after.pos := List.length_drop
        have ahead := gives'.ahead
        obtain ⟨taken, inside, found⟩ := take_memchr delim (after.buffer.drop after.pos)
        generalize after.buffer.drop after.pos = q at taken inside found length ahead ⊢
        by_cases present : delim ∈ q
        · -- the piece ends in the buffer
          generalize ((q.findIdx? (· == delim)).map (· + 1)).getD q.length = len at taken inside ⊢
          have part : (piece delim rest).take size = q.take (min len size) := by
            rw [← ahead, piece_append_of_mem present, ← taken, List.take_take, Nat.min_comm]
          have count : (q.take (min len size)).length = min len size := by
            rw [List.length_take]
            omega
          rw [if_pos (found.mpr present), part, count]
          exact ⟨_, rfl, gives'.advance _ (by omega), kind⟩
        · have nowhere : q.findIdx? (· == delim) = none :=
            Option.not_isSome_iff_eq_none.mp fun some => present (found.mp some)
          rw [nowhere]
          dsimp only [Option.map_none, Option.getD_none, Option.isSome_none]
          rw [if_neg Bool.false_ne_true]
          have some_len : 0 < min q.length size := by omega
          obtain ⟨last, scanned, gives'', kind'⟩ := ih (buf ++ q.take (min q.length size))
            (gives'.advance (min q.length size) (by omega)) (fun none => buffered (kind.symm.trans none))
            (show size - min q.length size ≤ fuel by omega)
          have part := take_piece (view after.back) present size
          rw [ahead] at part
          have count : (q.take (min q.length size)).length = min q.length size := by
            rw [List.length_take]
            omega
          refine ⟨last, ?_, ?_, kind'.trans kind⟩
          · rw [scanned, part, List.append_assoc]
          · rw [part, List.length_append, count, ← List.drop_drop]
            exact gives''
      · rw [if_pos ⟨used, empty⟩]
        simp only [piece, List.take_nil, List.append_nil, List.length_nil, List.drop_nil]
        exact ⟨after, rfl, gives', kind⟩

theorem char_eq_iff (ascii : delim < 128) (c : UInt8) : char_eq delim c = true ↔ c = delim := by
  simp only [char_eq, Bool.and_eq_true, decide_eq_true_eq, beq_iff_eq, and_iff_right_iff_imp]
  rintro rfl
  exact ascii

theorem readdelim_spec (source : Source m view) (ascii : delim < 128) : ∀ {size : Nat} {stream : Stream B}
    {rest : List UInt8} (buf : List UInt8), Gives view stream rest → stream.buftype = .none → ∃ after,
      _stream_readdelim m delim size stream buf = (none, buf ++ (piece delim rest).take size, after) ∧
      Gives view after (rest.drop ((piece delim rest).take size).length) ∧ after.buftype = .none := by
  intro size
  induction size with
  | zero =>
    intro stream rest buf gives kind
    rw [List.take_zero, List.append_nil]
    exact ⟨stream, rfl, gives, kind⟩
  | succ size ih =>
    intro stream rest buf gives kind
    have empty := gives.unbuffered kind
    obtain ⟨data, back, eof, last_err, read, whole, few, none_left, ended⟩ :=
      read_unbuffered_source source gives empty Nat.one_pos
    have gives' := gives.direct empty last_err (stream.offset + data.length) ended
    rw [_stream_readdelim, mu_stream_read, if_pos kind, Bool.not_true, read]
    dsimp only
    cases data with
    | nil =>
      obtain rfl := none_left rfl
      rw [List.nil_append] at whole
      rw [whole] at gives'
      exact ⟨_, by rw [piece, List.take_nil, List.append_nil], gives', kind⟩
    | cons c data =>
      obtain rfl : data = [] := List.length_eq_zero_iff.mp (Nat.le_zero.mp (Nat.le_of_succ_le_succ few))
      obtain rfl : c :: view back = rest := whole
      dsimp only
      rw [piece]
      by_cases same : c = delim
      · rw [if_pos ((char_eq_iff ascii c).mpr same), if_pos same, List.take_succ_cons, List.take_nil]
        exact ⟨_, rfl, gives', kind⟩
      · obtain ⟨after, readdelim, gives'', kind'⟩ := ih (buf ++ [c]) gives' kind
        rw [if_neg fun found => same ((char_eq_iff ascii c).mp found), if_neg same, List.take_succ_cons]
        refine ⟨after, ?_, gives'', kind'⟩
        rw [readdelim, List.append_assoc, List.singleton_append]

/-- Both scanners read the piece, or as much of it as fits. -/
theorem read_part_spec (source : Source m view) (ascii : delim < 128) (gives : Gives view stream rest) (size : Nat) :
    ∃ after, read_part m delim stream size = (none, (piece delim rest).take size, after) ∧
      Gives view after (rest.drop ((piece delim rest).take size).length) := by
  rw [read_part]
  split
  next kind =>
    obtain ⟨after, read, gives', _⟩ := readdelim_spec source ascii [] gives kind
    exact ⟨after, read, gives'⟩
  next kind =>
    obtain ⟨after, read, gives', _⟩ := scandelim_spec source [] gives kind (Nat.le_refl size)
    exact ⟨after, read, gives'⟩
end

section
variable {fill : UInt8} {line : LineBuf} {cur_len : Nat}

/-- The bytes of the line are `n`, unless `n` is 0 and they are not used. -/
def LineBuf.Sized (line : LineBuf) : Prop := line.n = 0 ∨ ∃ block, line = ⟨some block, block.length⟩

theorem bufexpand_spec (fill : UInt8) (sized : line.Sized) (inside : cur_len ≤ line.n)
    (memory : cur_len < SIZE_MAX / 3 * 2) :
    ∃ block, bufexpand fill line cur_len = .ok ⟨some block, block.length⟩ ∧ cur_len < block.length ∧
      block.take cur_len = line.block.take cur_len := by
  rcases sized with none | ⟨block, rfl⟩
  · have start : cur_len = 0 := by omega
    refine ⟨List.replicate 64 fill, ?_, by simp [start], by simp [start]⟩
    simp [bufexpand, none, start]
  · rw [bufexpand]
    by_cases empty : block.length = 0
    · have start : cur_len = 0 := by
        dsimp only at inside
        omega
      refine ⟨List.replicate 64 fill, ?_, by simp [start], by simp [start]⟩
      simp [empty, start]
    · simp only [if_neg empty]
      by_cases full : cur_len = block.length
      · rw [if_pos full, if_neg (by omega)]
        refine ⟨block ++ List.replicate (block.length + (block.length + 1) / 2 - block.length) fill, ?_, ?_, ?_⟩
        · congr 2
          rw [List.length_append, List.length_replicate]
          omega
        · rw [List.length_append, List.length_replicate]
          omega
        · exact List.take_append_of_le_length (Nat.le_of_eq full)
      · rw [if_neg full]
        exact ⟨block, rfl, Nat.lt_of_le_of_ne inside full, rfl⟩

theorem store_spec {block front : List UInt8} (data : List UInt8) (start : block.take front.length = front)
    (fits : front.length + data.length ≤ block.length) : ∃ block', block'.length = block.length ∧
      (⟨some block, block.length⟩ : LineBuf).store front.length data = ⟨some block', block'.length⟩ ∧
      block'.take (front ++ data).length = front ++ data := by
  have length : (block.take front.length ++ data ++ block.drop (front.length + data.length)).length = block.length := by
    simp only [List.length_append, List.length_take, List.length_drop]
    omega
  refine ⟨_, length, ?_, ?_⟩
  · rw [length]
    rfl
  · rw [start, List.take_left]

theorem last_of_take {block front : List UInt8} {c : UInt8} (start : block.take (front ++ [c]).length = front ++ [c]) :
    block[front.length]? = some c := by
  have last := congrArg (·[front.length]?) start
  simpa [List.getElem?_take] using last
end

section
variable {B : Type*} {m : Methods B} {view : B → List UInt8} {stream : Stream B} {rest : List UInt8} {delim : UInt8}

theorem take_piece_cases (delim : UInt8) (rest : List UInt8) (size : Nat) :
    delim ∉ (piece delim rest).take size ∨
      ∃ front, (piece delim rest).take size = front ++ [delim] ∧ piece delim rest = front ++ [delim] := by
  rcases piece_cases delim rest with ⟨absent, whole⟩ | ⟨front, absent, whole⟩
  · exact Or.inl fun member => absent (whole ▸ List.mem_of_mem_take member)
  · rw [whole]
    rcases Nat.lt_or_ge front.length size with long | short
    · refine Or.inr ⟨front, List.take_of_length_le ?_, rfl⟩
      rw [List.length_append]
      exact long
    · rw [List.take_append_of_le_length short]
      exact Or.inl fun member => absent (List.mem_of_mem_take member)

theorem piece_drop (delim : UInt8) (rest : List UInt8) (size : Nat)
    (absent : delim ∉ (piece delim rest).take size) :
    piece delim rest =
      (piece delim rest).take size ++ piece delim (rest.drop ((piece delim rest).take size).length) := by
  have start : (piece delim rest).take size <+: rest := (List.take_prefix _ _).trans (piece_front rest)
  rw [← piece_append_of_not_mem absent]
  rw [List.prefix_iff_eq_append.mp start]

theorem piece_dropLast (delim : UInt8) (text : List UInt8) : delim ∉ (piece delim text).dropLast := by
  rcases piece_cases delim text with ⟨absent, whole⟩ | ⟨front, absent, whole⟩
  · rw [whole]
    exact fun member => absent (List.dropLast_subset _ member)
  · rw [whole, List.dropLast_concat]
    exact absent

theorem getdelim_loop_spec (fill : UInt8) (source : Source m view) (ascii : delim < 128) : ∀ {fuel : Nat}
    {stream : Stream B} {rest : List UInt8} (front : List UInt8) (line : LineBuf), Gives view stream rest → line.Sized →
    front.length ≤ line.n → line.block.take front.length = front → rest.length < fuel →
    (front ++ piece delim rest).length < SIZE_MAX / 3 * 2 → ∃ block after,
      getdelim_loop m delim fill fuel stream line front.length =
        some (none, (front ++ piece delim rest).length, ⟨some block, block.length⟩, after) ∧
      block.take (front ++ piece delim rest).length = front ++ piece delim rest ∧
      (front ++ piece delim rest).length ≤ block.length ∧ Gives view after (rest.drop (piece delim rest).length) := by
  intro fuel
  induction fuel with
  | zero =>
    intro stream rest front line _ _ _ _ enough
    exact absurd enough (Nat.not_lt_zero _)
  | succ fuel ih =>
    intro stream rest front line gives sized inside start enough memory
    rw [List.length_append] at memory
    obtain ⟨block, expanded, room, same⟩ := bufexpand_spec fill sized inside (by omega)
    obtain ⟨after, read, gives'⟩ := read_part_spec source ascii gives (block.length - front.length)
    have fits : front.length + ((piece delim rest).take (block.length - front.length)).length ≤ block.length := by
      rw [List.length_take]
      omega
    obtain ⟨block', length, stored, taken⟩ := store_spec _ (same.trans start) fits
    have some_room : 0 < block.length - front.length := Nat.sub_pos_of_lt room
    have split := piece_drop delim rest (block.length - front.length)
    have ends := take_piece_cases delim rest (block.length - front.length)
    have none_left : (piece delim rest).take (block.length - front.length) = [] → piece delim rest = [] := by
      intro none
      rcases List.take_eq_nil_iff.mp none with zero | none
      · omega
      · exact none
    rw [getdelim_loop, expanded]
    dsimp only
    rw [read]
    dsimp only
    rw [stored]
    generalize (piece delim rest).take (block.length - front.length) = data at fits taken split ends none_left gives' ⊢
    by_cases empty : data = []
    · rw [if_pos (Or.inr empty), none_left empty, List.append_nil]
      rw [empty, List.append_nil] at taken
      rw [empty] at gives'
      exact ⟨block', after, rfl, taken, by omega, gives'⟩
    · rw [if_neg (by simpa using empty)]
      have last : ∀ {first : List UInt8} {c : UInt8}, data = first ++ [c] →
          (⟨some block', block'.length⟩ : LineBuf).block.getD (front.length + data.length - 1) 0 = c := by
        rintro first c rfl
        rw [← List.append_assoc] at taken
        have found := last_of_take taken
        rw [List.length_append, List.length_singleton, ← Nat.add_assoc, Nat.add_sub_cancel, LineBuf.block,
          Option.getD_some, List.getD_eq_getElem?_getD, ← List.length_append, found, Option.getD_some]
      rcases ends with absent | ⟨first, part, whole⟩
      · -- the line goes on
        have other : ¬ char_eq delim
            ((⟨some block', block'.length⟩ : LineBuf).block.getD (front.length + data.length - 1) 0) := by
          rw [last (List.dropLast_concat_getLast empty).symm, char_eq_iff ascii]
          exact fun same => absent (same ▸ List.getLast_mem empty)
        have whole := split absent
        have shorter : (rest.drop data.length).length < fuel := by
          have some_data := List.length_pos_iff.mpr empty
          have some_rest := (whole ▸ piece_front rest).length_le
          rw [List.length_append] at some_rest
          rw [List.length_drop]
          omega
        have parts : front ++ piece delim rest = front ++ data ++ piece delim (rest.drop data.length) := by
          rw [List.append_assoc, ← whole]
        obtain ⟨block'', last', looped, taken', inside', gives''⟩ := ih (front ++ data)
          ⟨some block', block'.length⟩ gives' (Or.inr ⟨block', rfl⟩) (by
            rw [List.length_append]
            dsimp only
            omega) taken shorter (by rw [← parts, List.length_append]; exact memory)
        rw [if_neg other, ← List.length_append, looped, parts]
        refine ⟨block'', last', rfl, taken', inside', ?_⟩
        rw [whole, List.length_append, ← List.drop_drop]
        exact gives''
      · rw [if_pos (by rw [last part, char_eq_iff ascii]), whole, ← part, ← List.length_append]
        refine ⟨block', after, rfl, taken, ?_, gives'⟩
        rw [List.length_append]
        omega

theorem flush_idle (clean : stream.dirty = false) : _stream_flush_buffer m stream false = (none, stream) := by
  rw [_stream_flush_buffer, if_neg (by rw [clean]; decide)]
  rfl

/-- `*psize` is the size of what `*pbuf` points to. -/
def LineBuf.Valid (line : LineBuf) : Prop := ∀ block, line.lineptr = some block → block.length = line.n

theorem LineBuf.Valid.sized {line : LineBuf} (valid : line.Valid) :
    (if line.lineptr = none then { line with n := 0 } else line).Sized := by
  split
  next => exact Or.inl rfl
  next pointer =>
    obtain ⟨block, pointer⟩ := Option.ne_none_iff_exists'.mp pointer
    exact Or.inr ⟨block, by rw [valid block pointer, ← pointer]⟩

/-- A line with `n` bytes in its buffer, followed by a null byte in the memory it has. -/
structure Terminated (n : Nat) (line : LineBuf) : Prop where
  size : line.block.length = line.n
  inside : n < line.n
  null : line.block[n]? = some 0

theorem getdelim_spec (fill : UInt8) (source : Source m view) (ascii : delim < 128) {after : Stream B}
    {line : LineBuf} {fuel : Nat} (flushed : _stream_flush_buffer m stream false = (none, after))
    (gives : Gives view after rest) (valid : line.Valid) (enough : rest.length < fuel)
    (memory : (piece delim rest).length < SIZE_MAX / 3 * 2) :
    ∃ line' last, mu_stream_timed_getdelim m delim fill fuel stream line =
        some (none, (piece delim rest).length, line', last) ∧
      line'.Valid ∧ Terminated (piece delim rest).length line' ∧
      line'.block.take (piece delim rest).length = piece delim rest ∧
      Gives view last (rest.drop (piece delim rest).length) := by
  obtain ⟨block, last, looped, taken, inside, gives'⟩ := getdelim_loop_spec fill source ascii [] _ gives
    valid.sized (Nat.zero_le _) rfl enough (by rwa [List.nil_append])
  rw [List.nil_append] at looped taken inside
  obtain ⟨block', expanded, room, same⟩ := bufexpand_spec fill (Or.inr ⟨block, rfl⟩) inside memory
  obtain ⟨block'', length, stored, taken'⟩ := store_spec [0] (same.trans taken) room
  rw [mu_stream_timed_getdelim, flushed]
  dsimp only
  rw [List.length_nil] at looped
  rw [looped]
  dsimp only
  rw [expanded]
  dsimp only
  rw [stored]
  refine ⟨_, last, rfl, ?_, ⟨rfl, ?_, last_of_take taken'⟩, ?_, gives'⟩
  · intro block pointer
    rw [← Option.some.inj pointer]
  · rw [length]
    exact room
  · have front := congrArg (List.take (piece delim rest).length) taken'
    rwa [List.take_take, Nat.min_eq_left (by simp), List.take_left] at front

/-- The line that a call gives. -/
def text (call : Nat × LineBuf) : List UInt8 := call.2.block.take call.1

/-- The lines that are given for a content. -/
structure Splits (delim : UInt8) (lines : List (List UInt8)) (content : List UInt8) : Prop where
  whole : lines.flatten = content
  each : ∀ line ∈ lines, line ≠ [] ∧ delim ∉ line.dropLast
  ended : ∀ line ∈ lines.dropLast, line.getLast? = some delim

theorem Splits.cons {lines : List (List UInt8)} (some_rest : rest ≠ [])
    (splits : Splits delim lines (rest.drop (piece delim rest).length)) :
    Splits delim (piece delim rest :: lines) rest := by
  refine ⟨?_, ?_, ?_⟩
  · rw [List.flatten_cons, splits.whole, List.prefix_iff_eq_append.mp (piece_front rest)]
  · exact List.forall_mem_cons.mpr ⟨⟨piece_ne_nil some_rest, piece_dropLast delim rest⟩, splits.each⟩
  · cases lines with
    | nil => exact fun line none => absurd none List.not_mem_nil
    | cons line lines =>
      rw [List.dropLast_cons_of_ne_nil (List.cons_ne_nil _ _)]
      refine List.forall_mem_cons.mpr ⟨?_, splits.ended⟩
      rcases piece_cases delim rest with ⟨_, all⟩ | ⟨front, _, ends⟩
      · -- without a delimiter nothing is left for other lines
        have none := splits.whole
        rw [all, List.drop_length, List.flatten_cons] at none
        exact absurd (List.append_eq_nil_iff.mp none).1 (splits.each line List.mem_cons_self).1
      · rw [ends, List.getLast?_concat]

theorem getlines_spec (fill : UInt8) (source : Source m view) (ascii : delim < 128) {rounds : Nat} : ∀ {count : Nat}
    {stream after : Stream B} {line : LineBuf} {rest : List UInt8},
    _stream_flush_buffer m stream false = (none, after) → Gives view after rest → line.Valid →
    (∀ text, text <:+: rest → delim ∉ text.dropLast → text.length < SIZE_MAX / 3 * 2) → rest.length < rounds →
    rest.length < count → ∃ calls, getlines m delim fill rounds count stream line = some calls ∧
      Splits delim (calls.map text) rest ∧ ∀ call ∈ calls, Terminated call.1 call.2 := by
  intro count
  induction count with
  | zero =>
    intro stream after line rest _ _ _ _ _ none
    exact absurd none (Nat.not_lt_zero _)
  | succ count ih =>
    intro stream after line rest flushed gives valid memory enough calls_left
    have front : piece delim rest <+: rest := piece_front rest
    obtain ⟨line', last, called, valid', terminated, taken, gives'⟩ := getdelim_spec fill source ascii flushed
      gives valid enough (memory _ front.isInfix (piece_dropLast delim rest))
    rw [getlines, called]
    by_cases none_left : rest = []
    · subst none_left
      exact ⟨[], rfl, ⟨rfl, by simp, by simp⟩, by simp⟩
    · obtain ⟨k, length⟩ : ∃ k, (piece delim rest).length = k + 1 :=
        Nat.exists_eq_succ_of_ne_zero fun zero => piece_ne_nil none_left (List.length_eq_zero_iff.mp zero)
      have shorter : (rest.drop (piece delim rest).length).length + 1 ≤ rest.length := by
        have le := front.length_le
        rw [List.length_drop]
        omega
      obtain ⟨calls, given, splits, all⟩ := ih (flush_idle gives'.clean) gives' valid'
        (fun text within => memory text (within.trans (List.drop_suffix _ _).isInfix)) (by omega) (by omega)
      dsimp only
      rw [if_neg (by omega), given, Option.map_some]
      refine ⟨_, rfl, ?_, List.forall_mem_cons.mpr ⟨terminated, all⟩⟩
      rw [List.map_cons, text, taken]
      exact splits.cons none_left

/-- Successive calls give the consecutive pieces of the content, each up to its first delimiter and with a null byte
    behind it. The stream may have data to write first, and its pieces fit into memory. -/
theorem getdelim_splits (fill : UInt8) (source : Source m view) (ascii : delim < 128) {after : Stream B}
    {line : LineBuf} {content : List UInt8} {fuel : Nat} (flushed : _stream_flush_buffer m stream false = (none, after))
    (gives : Gives view after content) (valid : line.Valid)
    (memory : ∀ text, text <:+: content → delim ∉ text.dropLast → text.length < SIZE_MAX / 3 * 2)
    (enough : content.length < fuel) : ∃ calls, getlines m delim fill fuel fuel stream line = some calls ∧
      Splits delim (calls.map text) content ∧ ∀ call ∈ calls, Terminated call.1 call.2 :=
  getlines_spec fill source ascii flushed gives valid memory enough enough

/-- A source that gives two bytes at a time, and takes what is written to it. -/
def pair_methods : Methods (List UInt8) where
  read stream size := (.ok (stream.back.take (min size 2)), { stream with back := stream.back.drop (min size 2) })
  write stream buf := (.ok buf.length, stream)

theorem pair_source : Source pair_methods id := by
  intro stream n some_n
  refine ⟨_, _, rfl, List.take_append_drop _ _, ?_, fun none => ?_⟩
  · rw [List.length_take]
    omega
  · rcases List.take_eq_nil_iff.mp none with zero | none
    · omega
    · exact none

/-- A line-buffered stream whose buffer has a byte to write and two to read. -/
def dirty_stream : Stream (List UInt8) :=
  { readable := true
    writable := true
    seekable := false
    dirty := true
    buftype := .line
    bufsize := 3
    buffer := [1, 58, 2]
    pos := 1
    back := [3, 58, 58, 4, 5] }

theorem getdelim_splits_dirty : ∃ calls, getlines pair_methods 58 255 8 8 dirty_stream ⟨some [7], 1⟩ = some calls ∧
    Splits 58 (calls.map text) [58, 2, 3, 58, 58, 4, 5] ∧ ∀ call ∈ calls, Terminated call.1 call.2 := by
  refine getdelim_splits 255 pair_source (by decide) rfl ?_ ?_ ?_ (by decide)
  · exact ⟨rfl, rfl, rfl, fun _ => by decide, fun none => absurd none (by decide), by decide, rfl,
      fun eof => absurd eof (by decide)⟩
  · intro block pointer
    rw [← Option.some.inj pointer]
    rfl
  · intro text within _
    exact Nat.lt_of_le_of_lt within.length_le (by decide)
end
end Mailutils.Buffered

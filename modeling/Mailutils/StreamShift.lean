import Mailutils.Buffered

/-!
Moving the end of a stream in place (`libmailutils/stream/streamshift.c`). Upwards the bytes are moved from the
front and the stream is then truncated, downwards from the end. Two things go wrong: when nothing is left to move
up, the stream is not truncated, and a chunk that is as long as the distance it is moved down makes a relative
seek by zero bytes, for which `mu_stream_seek` stores the position through the null pointer it is given
(`shift_exact_iff`). Downwards a chunk is taken to be read at once, but a stream with a line buffer stops behind a
newline.
-/
namespace Mailutils.StreamShift
open Mailutils.Stream
open Mailutils.Buffered (Buftype)

/-- What the functions return. -/
inductive Code
  | ok | EINVAL | ENOMEM
  deriving DecidableEq, Repr

/-- `mu_stream_seek` to an offset, also behind the end. -/
def seek (file : File) (offset : Nat) : File := { file with pos := offset }

/-- The bytes that `mu_stream_read` stores; with a line buffer it stops behind the first newline. -/
def read (buftype : Buftype) (file : File) (size : Nat) : List UInt8 :=
  let data := (file.content.drop file.pos).take size
  if buftype = .line then data.take (data.findIdx (· == LF) + 1) else data

/-- The size of the buffer: it is halved until there are so many bytes available. -/
def allocate (available bufsize : Nat) : Nat :=
  if bufsize ≤ available then bufsize else allocate available (bufsize / 2)
termination_by bufsize
decreasing_by omega

/-- A size that is not zero. -/
abbrev Size := { n : Nat // 0 < n }

section
variable {buftype : Buftype} {file : File} {off size : Nat}

theorem read_front : read buftype (seek file off) size <+: file.content.drop off := by
  rw [read]
  split
  · exact (List.take_prefix _ _).trans (List.take_prefix _ _)
  · exact List.take_prefix _ _

private theorem read_nothing (none : (read buftype (seek file off) size).length = 0) :
    size = 0 ∨ file.content.length ≤ off := by
  rw [read] at none
  split at none <;> simp [seek] at none <;> omega

private theorem read_whole (last : buftype = .line → ∀ i, i + 1 < size → file.content[off + i]? ≠ some LF) :
    read buftype (seek file off) size = (file.content.drop off).take size := by
  rw [read]
  split
  next line =>
    apply List.take_of_length_le
    by_contra short
    have short := Nat.lt_of_not_le short
    have found := @List.findIdx_getElem _ (· == LF) _ (Nat.lt_of_succ_lt short)
    rw [List.getElem_take, List.getElem_drop, beq_iff_eq] at found
    have inside := Nat.lt_of_lt_of_le short (List.length_take_le _ _)
    exact last line _ inside (List.getElem?_eq_some_iff.mpr ⟨_, found⟩)
  · rfl
end

/-- What a round of the loop of `stream_shift_up` leaves: `n` bytes from `off_b` on are copied to `off_a`. -/
def up_round (buftype : Buftype) (bufsize : Size) (off_a off_b : Nat) (file : File) : File :=
  (seek file off_a).put (read buftype (seek file off_b) bufsize)

theorem up_round_length {buftype : Buftype} {bufsize : Size} {off_a off_b : Nat} {file : File} (order : off_a ≤ off_b)
    (inside : off_b ≤ file.content.length) :
    (up_round buftype bufsize off_a off_b file).content.length = file.content.length := by
  have within : off_a ≤ file.content.length := by omega
  have length := (@read_front buftype file off_b bufsize).length_le
  rw [List.length_drop] at length
  rw [up_round, put_length within]
  simp only [seek] at length ⊢
  omega

theorem up_round_content {buftype : Buftype} {bufsize : Size} {off_a off_b : Nat} {file : File} (order : off_a ≤ off_b)
    (inside : off_b ≤ file.content.length) :
    (up_round buftype bufsize off_a off_b file).content.take
        (off_a + (read buftype (seek file off_b) bufsize).length) ++
      (up_round buftype bufsize off_a off_b file).content.drop
        (off_b + (read buftype (seek file off_b) bufsize).length) =
    file.content.take off_a ++ file.content.drop off_b := by
  have within : off_a ≤ file.content.length := by omega
  have buffer := List.prefix_iff_eq_append.mp (@read_front buftype file off_b bufsize)
  rw [up_round, put_inside within]
  generalize read buftype (seek file off_b) bufsize = data at buffer ⊢
  rw [List.drop_drop] at buffer
  have front : (file.content.take off_a ++ data).length = off_a + data.length := by
    rw [List.length_append, List.length_take, Nat.min_eq_left within]
  have rest : off_b + data.length = off_a + data.length + (off_b - off_a) := by omega
  simp only [seek]
  rw [List.take_left' front, rest, ← List.drop_drop, List.drop_left' front, List.drop_drop, ← rest, List.append_assoc,
    buffer]

/-- The loop of `stream_shift_up`; where the moved bytes end, and the file. -/
def shift_up_loop (buftype : Buftype) (bufsize : Size) (off_a off_b : Nat) (file : File) (order : off_a ≤ off_b) :
    Nat × File :=
  let n := (read buftype (seek file off_b) bufsize).length
  if n = 0 then (off_a, seek file off_b)
  else shift_up_loop buftype bufsize (off_a + n) (off_b + n) (up_round buftype bufsize off_a off_b file) (by omega)
termination_by file.content.length - off_b
decreasing_by
  have length := (@read_front buftype file off_b bufsize).length_le
  rw [List.length_drop] at length
  have same := @up_round_length buftype bufsize off_a off_b file order (by omega)
  omega

def stream_shift_up (buftype : Buftype) (available : Nat) (file : File) (off_a off_b : Int) (bufsize : Nat) : Code × File :=
  if disorder : off_a < 0 ∨ off_b < 0 ∨ off_b < off_a then (.EINVAL, file)
  else if off_b = off_a then (.ok, file)
  else
    let length := file.content.length
    if off_a > length ∨ off_b > length then (.EINVAL, file)
    else if off_b = length then (.ok, file)
    else
      let size := allocate available (if bufsize = 0 then length - off_b.toNat else bufsize)
      if some : 0 < size then
        let (off_a, file) := shift_up_loop buftype ⟨size, some⟩ off_a.toNat off_b.toNat file (by omega)
        (.ok, { file with content := file.truncate off_a })
      else (.ENOMEM, file)

/-- The loop of `stream_shift_down`: a relative seek by zero bytes is a fault, as there is nowhere to store the
    position. `n` bytes of the buffer are written, however many were read into it. -/
def shift_down_loop (buftype : Buftype) (bufsize : Size) (nshift off_a off_b : Nat) (buffer : List UInt8) (file : File) :
    Option (Code × File) :=
  let n := if bufsize.1 ≤ off_b - off_a then bufsize.1 else off_b - off_a
  let data := read buftype (seek file (off_b - n)) n
  let buffer := data ++ buffer.drop data.length
  if n = nshift then none
  else if off_b - n + data.length + nshift < n then some (.EINVAL, seek file (off_b - n + data.length))
  else
    let file := (seek file (off_b - n + data.length + nshift - n)).put (buffer.take n)
    if off_a < off_b - n then shift_down_loop buftype bufsize nshift off_a (off_b - n) buffer file
    else some (.ok, file)
termination_by off_b
decreasing_by
  have := bufsize.2
  simp only [n] at *
  split <;> omega

/-- `stream_shift_down`; `memory` is what stands in the buffer that `malloc` returns. -/
def stream_shift_down (buftype : Buftype) (memory : Nat → UInt8) (available : Nat) (file : File) (off_a off_b : Int)
    (bufsize : Nat) : Option (Code × File) :=
  if off_a < 0 ∨ off_b < 0 ∨ off_b < off_a then some (.EINVAL, file)
  else if off_b = off_a then some (.ok, file)
  else
    let length := file.content.length
    if off_a > length ∨ off_b > length then some (.EINVAL, file)
    else
      let size := allocate available
        (if bufsize = 0 ∨ bufsize > length - off_b.toNat then length - off_a.toNat else bufsize)
      if some : 0 < size then
        shift_down_loop buftype ⟨size, some⟩ (off_b - off_a).toNat off_a.toNat length ((List.range size).map memory) file
      else Option.some (.ENOMEM, file)

/-- `mu_stream_shift`; nothing if it stores through a null pointer. -/
def mu_stream_shift (buftype : Buftype) (memory : Nat → UInt8) (available : Nat) (file : File) (off_a off_b : Int)
    (bufsize : Nat) : Option (Code × File) :=
  (if off_b > off_a then some (stream_shift_up buftype available file off_a off_b bufsize)
    else stream_shift_down buftype memory available file off_b off_a bufsize).map fun (rc, shifted) =>
      if rc = .ok then
        let size := shifted.content.length
        (rc, seek shifted (if file.pos < size then file.pos else size))
      else (rc, shifted)

theorem allocate_pos {available : Nat} (some : 0 < available) (bufsize : Nat) (nonzero : 0 < bufsize) :
    0 < allocate available bufsize := by
  induction bufsize using allocate.induct available with
  | case1 bufsize fits =>
    rw [allocate, if_pos fits]
    exact nonzero
  | case2 bufsize large ih =>
    rw [allocate, if_neg large]
    exact ih (by omega)

theorem shift_up_loop_spec (buftype : Buftype) (bufsize : Size) (off_a off_b : Nat) (file : File) (order : off_a ≤ off_b)
    (inside : off_b ≤ file.content.length) :
    (shift_up_loop buftype bufsize off_a off_b file order).1 = off_a + (file.content.length - off_b) ∧
    (shift_up_loop buftype bufsize off_a off_b file order).2.content.length = file.content.length ∧
    (shift_up_loop buftype bufsize off_a off_b file order).2.content.take (off_a + (file.content.length - off_b)) =
      file.content.take off_a ++ file.content.drop off_b := by
  have positive := bufsize.2
  induction off_a, off_b, file, order using shift_up_loop.induct buftype bufsize with
  | case1 off_a off_b file order n nothing =>
    have length := read_nothing nothing
    have whole : off_b = file.content.length := by omega
    rw [shift_up_loop, if_pos nothing, whole]
    simp [seek]
  | case2 off_a off_b file order n more ih =>
    have length := (@read_front buftype file off_b bufsize).length_le
    rw [List.length_drop] at length
    have same := @up_round_length buftype bufsize off_a off_b file order inside
    obtain ⟨ends, kept, moved⟩ := ih (by omega)
    have sum : off_a + n + (file.content.length - (off_b + n)) = off_a + (file.content.length - off_b) := by omega
    rw [same, sum] at ends moved
    rw [same] at kept
    rw [shift_up_loop, if_neg more]
    refine ⟨ends, kept, moved.trans ?_⟩
    exact up_round_content order inside

/-- The bytes below `off_b` are moved, those from `off_b` on have been. -/
structure Moving (content : List UInt8) (nshift off_b : Nat) (file : File) : Prop where
  inside : off_b ≤ content.length
  before : file.content.take (min (off_b + nshift) content.length) =
    content.take (min (off_b + nshift) content.length)
  after : file.content.drop (off_b + nshift) = content.drop off_b

theorem take_takeD : ∀ {k p : Nat} {x : List UInt8}, k ≤ p → k ≤ x.length → (x.takeD p 0).take k = x.take k := by
  intro k
  induction k with
  | zero => simp
  | succ k ih =>
    intro p x within inside
    cases p with
    | zero => omega
    | succ p =>
      cases x with
      | nil => simp at inside
      | cons c x => simp [ih (Nat.le_of_succ_le_succ within) (Nat.le_of_succ_le_succ inside)]

theorem Moving.step {content : List UInt8} {nshift off_b : Nat} {file : File}
    (moving : Moving content nshift off_b file) {n : Nat} (some : n ≤ off_b) :
    (file.content.drop (off_b - n)).take n = (content.drop (off_b - n)).take n ∧
    Moving content nshift (off_b - n)
      ((seek file (off_b - n + nshift)).put ((content.drop (off_b - n)).take n)) := by
  have inside := moving.inside
  have before := moving.before
  have after := moving.after
  have long : min (off_b + nshift) content.length ≤ file.content.length := by
    have lengths := congrArg List.length before
    simp only [List.length_take] at lengths
    omega
  have unmoved {k : Nat} (le : k ≤ min (off_b + nshift) content.length) : file.content.take k = content.take k := by
    rw [← Nat.min_eq_left le, ← List.take_take, before, List.take_take]
  have chunk : (file.content.drop (off_b - n)).take n = (content.drop (off_b - n)).take n := by
    have eq : off_b - n + n = off_b := by omega
    simp only [List.take_drop, eq, unmoved (by omega : off_b ≤ _)]
  have whole : ((seek file (off_b - n + nshift)).put ((content.drop (off_b - n)).take n)).content =
      file.content.takeD (off_b - n + nshift) 0 ++ content.drop (off_b - n) := by
    have length : ((content.drop (off_b - n)).take n).length = n := by
      rw [List.length_take, List.length_drop]
      omega
    have target : off_b - n + nshift + n = off_b + nshift := by omega
    have next : off_b = off_b - n + n := by omega
    rw [File.put, length]
    simp only [seek, target, after]
    rw [List.append_assoc, next, Nat.add_sub_cancel, ← List.drop_drop, List.take_append_drop]
  refine ⟨chunk, ?_, ?_, ?_⟩
  · omega
  · have within : min (off_b - n + nshift) content.length ≤ (file.content.takeD (off_b - n + nshift) 0).length := by
      rw [List.takeD_length]
      omega
    rw [whole, List.take_append_of_le_length within, take_takeD (by omega) (by omega), unmoved (by omega)]
  · rw [whole, List.drop_left' (List.takeD_length ..)]

theorem shift_down_round {buftype : Buftype} {bufsize : Size} {nshift off_a off_b n : Nat} {file : File}
    {content : List UInt8} (moving : Moving content nshift off_b file) (inside : n ≤ off_b)
    (size : (if bufsize.1 ≤ off_b - off_a then bufsize.1 else off_b - off_a) = n)
    (last : buftype = .line → ∀ i, i + 1 < n → content[off_b - n + i]? ≠ some LF) (buffer : List UInt8) :
    ∃ buffer' moved, Moving content nshift (off_b - n) moved ∧
      shift_down_loop buftype bufsize nshift off_a off_b buffer file =
        if n = nshift then none
        else if off_a < off_b - n then shift_down_loop buftype bufsize nshift off_a (off_b - n) buffer' moved
        else some (.ok, moved) := by
  obtain ⟨chunk, next⟩ := moving.step inside
  have here (i : Nat) (lt : i < n) : file.content[off_b - n + i]? = content[off_b - n + i]? := by
    have same := congrArg (·[i]?) chunk
    simpa only [List.getElem?_take_of_lt lt, List.getElem?_drop] using same
  have whole : read buftype (seek file (off_b - n)) n = (content.drop (off_b - n)).take n := by
    rw [← chunk]
    exact read_whole fun line i lt => here i (by omega) ▸ last line i lt
  have length : ((content.drop (off_b - n)).take n).length = n := by
    have := moving.inside
    rw [List.length_take, List.length_drop]
    omega
  refine ⟨(content.drop (off_b - n)).take n ++ buffer.drop n, _, next, ?_⟩
  have target : off_b - n + n + nshift - n = off_b - n + nshift := by omega
  rw [shift_down_loop]
  simp only [size, whole, length, target, if_neg (show ¬ off_b - n + n + nshift < n by omega), List.take_left' length]

/-- The loop moves all bytes unless one of the chunks is as long as the distance. With a line buffer newlines have to
    stand at the ends of chunks. -/
theorem shift_down_loop_spec (buftype : Buftype) (bufsize : Size) (nshift off_a off_b : Nat) (buffer : List UInt8)
    (file : File) (distance : 0 < nshift) (order : off_a < off_b) {content : List UInt8}
    (lines : buftype = .line → ∀ i, off_a ≤ i → content[i]? = some LF → (content.length - (i + 1)) % bufsize.1 = 0)
    (aligned : (content.length - off_b) % bufsize.1 = 0) (moving : Moving content nshift off_b file) :
    (bufsize.1 ≤ off_b - off_a ∧ bufsize.1 = nshift ∨ (off_b - off_a) % bufsize.1 = nshift) ∧
      shift_down_loop buftype bufsize nshift off_a off_b buffer file = none ∨
    ¬ (bufsize.1 ≤ off_b - off_a ∧ bufsize.1 = nshift ∨ (off_b - off_a) % bufsize.1 = nshift) ∧
      ∃ moved, shift_down_loop buftype bufsize nshift off_a off_b buffer file = some (.ok, moved) ∧
        Moving content nshift off_a moved := by
  have positive := bufsize.2
  induction off_b using Nat.strongRecOn generalizing buffer file with
  | ind off_b ih =>
    have inside := moving.inside
    -- a newline inside of a chunk is not at a multiple of the chunk size
    have last {n : Nat} (le : n ≤ off_b - off_a) (small : n ≤ bufsize.1) (line : buftype = .line) (i : Nat)
        (lt : i + 1 < n) : content[off_b - n + i]? ≠ some LF := by
      intro newline
      have multiple := lines line _ (by omega) newline
      have apart : content.length - (off_b - n + i + 1) = content.length - off_b + (n - i - 1) := by omega
      rw [apart, Nat.add_mod, aligned, Nat.zero_add, Nat.mod_mod, Nat.mod_eq_of_lt (by omega)] at multiple
      omega
    by_cases full : bufsize.1 ≤ off_b - off_a
    · have rest : (off_b - bufsize.1 - off_a) % bufsize.1 = (off_b - off_a) % bufsize.1 := by
        rw [Nat.sub_right_comm, ← Nat.mod_eq_sub_mod full]
      obtain ⟨buffer', moved, next, round⟩ := shift_down_round moving (by omega) (if_pos full)
        (last full (Nat.le_refl _)) buffer
      rw [round]
      by_cases same : bufsize.1 = nshift
      · exact .inl ⟨.inl ⟨full, same⟩, if_pos same⟩
      · rw [if_neg same]
        by_cases more : off_a < off_b - bufsize.1
        · have apart : content.length - (off_b - bufsize.1) = content.length - off_b + bufsize.1 := by omega
          have aligned' : (content.length - (off_b - bufsize.1)) % bufsize.1 = 0 := by
            rw [apart, Nat.add_mod_right, aligned]
          have later := ih (off_b - bufsize.1) (by omega) buffer' moved more aligned' next
          simpa only [if_pos more, same, and_false, false_or, rest] using later
        · have last : off_b - bufsize.1 = off_a := by omega
          have zero : (off_b - off_a) % bufsize.1 = 0 := by
            rw [← rest, last, Nat.sub_self, Nat.zero_mod]
          exact .inr ⟨by omega, _, if_neg more, last ▸ next⟩
    · have rest : (off_b - off_a) % bufsize.1 = off_b - off_a := Nat.mod_eq_of_lt (by omega)
      obtain ⟨buffer', moved, next, round⟩ := shift_down_round moving (by omega) (if_neg full)
        (last (Nat.le_refl _) (by omega)) buffer
      rw [round, rest]
      by_cases same : off_b - off_a = nshift
      · exact .inl ⟨.inr same, if_pos same⟩
      · have last : off_b - (off_b - off_a) = off_a := by omega
        rw [last] at next
        rw [if_neg same, last]
        exact .inr ⟨by omega, _, if_neg (Nat.lt_irrefl _), next⟩

/-- The size of the buffer with which bytes are moved down. -/
def chunk (available length off_a off_b bufsize : Nat) : Nat :=
  allocate available (if bufsize = 0 ∨ bufsize > length - off_a then length - off_b else bufsize)

/-- If the bytes from `off_b` on are moved down and the stream has a line buffer, then their newlines are the last bytes
    of chunks, which are counted from the end. -/
def Whole (buftype : Buftype) (available : Nat) (content : List UInt8) (off_a off_b bufsize : Nat) : Prop :=
  buftype = .line → off_b < off_a → ∀ i, off_b ≤ i → content[i]? = some LF →
    (content.length - (i + 1)) % chunk available content.length off_a off_b bufsize = 0

section
variable {buftype : Buftype} {memory : Nat → UInt8} {available : Nat} {file : File} {off_a off_b bufsize : Nat}

theorem shift_up_end (order : off_a < off_b) (whole : off_b = file.content.length) :
    stream_shift_up buftype available file off_a off_b bufsize = (.ok, file) := by
  rw [stream_shift_up, dif_neg (by omega), if_neg (by omega)]
  dsimp only
  rw [if_neg (by omega), if_pos (by omega)]

theorem shift_up_moves (some : 0 < available) (order : off_a < off_b) (inside : off_b < file.content.length) :
    ∃ shifted, stream_shift_up buftype available file off_a off_b bufsize = (.ok, shifted) ∧
      shifted.content = file.content.take off_a ++ file.content.drop off_b := by
  have size : 0 < allocate available (if bufsize = 0 then file.content.length - off_b else bufsize) :=
    allocate_pos some _ (by split <;> omega)
  obtain ⟨ends, length, moved⟩ := shift_up_loop_spec buftype ⟨_, size⟩ off_a off_b file (by omega) (by omega)
  refine ⟨{ (shift_up_loop buftype ⟨_, size⟩ off_a off_b file (by omega)).2 with
    content := (shift_up_loop buftype ⟨_, size⟩ off_a off_b file (by omega)).2.truncate
      (shift_up_loop buftype ⟨_, size⟩ off_a off_b file (by omega)).1 }, ?_, ?_⟩
  · rw [stream_shift_up, dif_neg (by omega), if_neg (by omega)]
    dsimp only
    rw [if_neg (by omega), if_neg (by omega)]
    exact dif_pos size
  · dsimp only
    rw [File.truncate, ends, List.takeD_eq_take _ (by omega), moved]

theorem shift_down_moves (some : 0 < available) (order : off_b < off_a) (inside : off_a ≤ file.content.length)
    (whole : Whole buftype available file.content off_a off_b bufsize) :
    (chunk available file.content.length off_a off_b bufsize = off_a - off_b ∨
      (file.content.length - off_b) % chunk available file.content.length off_a off_b bufsize = off_a - off_b) ∧
      stream_shift_down buftype memory available file off_b off_a bufsize = none ∨
    ¬ (chunk available file.content.length off_a off_b bufsize = off_a - off_b ∨
      (file.content.length - off_b) % chunk available file.content.length off_a off_b bufsize = off_a - off_b) ∧
      ∃ shifted, stream_shift_down buftype memory available file off_b off_a bufsize = Option.some (.ok, shifted) ∧
        shifted.content = file.content.take off_a ++ file.content.drop off_b := by
  have size : 0 < chunk available file.content.length off_a off_b bufsize := allocate_pos some _ (by split <;> omega)
  have distance : ((off_a : Int) - off_b).toNat = off_a - off_b := by omega
  have runs : stream_shift_down buftype memory available file off_b off_a bufsize =
      shift_down_loop buftype ⟨_, size⟩ (off_a - off_b) off_b file.content.length
        ((List.range (chunk available file.content.length off_a off_b bufsize)).map memory) file := by
    rw [stream_shift_down, if_neg (by omega), if_neg (by omega)]
    dsimp only
    rw [if_neg (by omega)]
    exact (dif_pos size).trans (by rw [distance]; rfl)
  have start : Moving file.content (off_a - off_b) file.content.length file := by
    constructor
    · exact Nat.le_refl _
    · rfl
    · rw [List.drop_eq_nil_of_le (by omega), List.drop_length]
  have fits : off_a - off_b ≤ file.content.length - off_b := by omega
  rcases shift_down_loop_spec buftype ⟨_, size⟩ (off_a - off_b) off_b file.content.length
      ((List.range (chunk available file.content.length off_a off_b bufsize)).map memory) file (by omega) (by omega)
      (fun line i => whole line order i) (by rw [Nat.sub_self, Nat.zero_mod]) start with
    ⟨meets, fault⟩ | ⟨avoids, moved, done, moving⟩
  · refine .inl ⟨?_, runs.trans fault⟩
    rcases meets with ⟨-, same⟩ | same
    · exact .inl same
    · exact .inr same
  · refine .inr ⟨?_, moved, runs.trans done, ?_⟩
    · rintro (same | same)
      · exact avoids (.inl ⟨Nat.le_trans (Nat.le_of_eq same) fits, same⟩)
      · exact avoids (.inr same)
    · have before := moving.before
      have after := moving.after
      rw [Nat.add_sub_cancel' (by omega), Nat.min_eq_left inside] at before
      rw [Nat.add_sub_cancel' (by omega)] at after
      rw [← before, ← after, List.take_append_drop]

theorem shift_position {shifted : File}
    (result : (if (off_b : Int) > off_a then some (stream_shift_up buftype available file off_a off_b bufsize)
      else stream_shift_down buftype memory available file off_b off_a bufsize) = some (.ok, shifted)) :
    mu_stream_shift buftype memory available file off_a off_b bufsize = some (.ok, seek shifted
      (if file.pos < shifted.content.length then file.pos else shifted.content.length)) := by
  rw [mu_stream_shift, result]
  rfl

end

/-- A shift has the result that is asked for exactly if it leaves something to move up, or moves down no chunk that
    is as long as the distance. -/
theorem shift_exact_iff (buftype : Buftype) (memory : Nat → UInt8) (available : Nat) (some : 0 < available) (file : File)
    (off_a off_b bufsize : Nat) (inside : off_a ≤ file.content.length) (inside' : off_b ≤ file.content.length)
    (whole : Whole buftype available file.content off_a off_b bufsize) :
    (∃ shifted, mu_stream_shift buftype memory available file off_a off_b bufsize = Option.some (.ok, shifted) ∧
      shifted.content = file.content.take off_a ++ file.content.drop off_b ∧
      (file.pos < shifted.content.length → shifted.pos = file.pos)) ↔
    (off_a < off_b → off_b < file.content.length) ∧
    (off_b < off_a → chunk available file.content.length off_a off_b bufsize ≠ off_a - off_b ∧
      (file.content.length - off_b) % chunk available file.content.length off_a off_b bufsize ≠ off_a - off_b) := by
  -- what was moved is what is asked for, and the position is restored
  have good (shifted : File) (moved : shifted.content = file.content.take off_a ++ file.content.drop off_b)
      (result : (if (off_b : Int) > off_a then Option.some (stream_shift_up buftype available file off_a off_b bufsize)
        else stream_shift_down buftype memory available file off_b off_a bufsize) = Option.some (.ok, shifted)) :
      ∃ shifted, mu_stream_shift buftype memory available file off_a off_b bufsize = Option.some (.ok, shifted) ∧
        shifted.content = file.content.take off_a ++ file.content.drop off_b ∧
        (file.pos < shifted.content.length → shifted.pos = file.pos) :=
    ⟨_, shift_position result, moved, fun within => if_pos within⟩
  rcases Nat.lt_trichotomy off_a off_b with order | rfl | order
  · have up : (off_b : Int) > off_a := by omega
    by_cases whole : off_b = file.content.length
    · have result := @shift_up_end buftype available file off_a off_b bufsize order whole
      have nothing := @shift_position buftype memory available file off_a off_b bufsize file (by rw [if_pos up, result])
      refine iff_of_false ?_ (by omega)
      rintro ⟨shifted, eq, moved, -⟩
      rw [nothing] at eq
      obtain rfl := (Prod.mk.inj (Option.some.inj eq)).2
      have lengths := congrArg List.length moved
      simp [seek, whole] at lengths
      omega
    · obtain ⟨shifted, result, moved⟩ := @shift_up_moves buftype available file off_a off_b bufsize some order (by omega)
      have shifts := good shifted moved (by rw [if_pos up, result])
      exact iff_of_true shifts ⟨by omega, by omega⟩
  · have same : stream_shift_down buftype memory available file off_a off_a bufsize = Option.some (.ok, file) := by
      rw [stream_shift_down, if_neg (by omega), if_pos rfl]
    have shifts := good file (List.take_append_drop ..).symm (by rw [if_neg (by omega), same])
    exact iff_of_true shifts ⟨by omega, by omega⟩
  · have down : ¬ (off_b : Int) > off_a := by omega
    rcases @shift_down_moves buftype memory available file off_a off_b bufsize some order inside whole with
      ⟨meets, fault⟩ | ⟨avoids, shifted, result, moved⟩
    · refine iff_of_false ?_ (fun avoids => ?_)
      · rintro ⟨shifted, result, -⟩
        rw [mu_stream_shift, if_neg down, fault] at result
        cases result
      · obtain ⟨differs, differs'⟩ := avoids.2 order
        rcases meets with same | same
        · exact differs same
        · exact differs' same
    · have shifts := good shifted moved (by rw [if_neg down, result])
      exact iff_of_true shifts ⟨by omega, fun _ => not_or.1 avoids⟩

/-- Four chunks of two bytes are moved down by three, the last of them a line. -/
theorem shift_exact_down :
    ∃ shifted, mu_stream_shift .line (fun _ => 0) 4096 ⟨ascii "a\nbcdefg", 1⟩ 3 0 2 = some (.ok, shifted) ∧
      shifted.content = ascii "a\nba\nbcdefg" ∧ (1 < shifted.content.length → shifted.pos = 1) := by
  have whole : Whole .line 4096 (ascii "a\nbcdefg") 3 0 2 := by
    intro _ _ i _ newline
    obtain ⟨lt, -⟩ := List.getElem?_eq_some_iff.mp newline
    have small : ∀ j < 8, (ascii "a\nbcdefg")[j]? = some LF → (8 - (j + 1)) % chunk 4096 8 3 0 2 = 0 := by
      decide +kernel
    exact small i lt newline
  exact (shift_exact_iff .line (fun _ => 0) 4096 (by decide) ⟨ascii "a\nbcdefg", 1⟩ 3 0 2 (by decide) (by decide)
    whole).mpr ⟨by decide, by decide +kernel⟩

/-- Removing the end leaves the stream as it is, doubling its end stores through the null pointer, and with a line
    buffer a line is not read to its end. -/
theorem shift_fails :
    mu_stream_shift .full (fun _ => 0) 4096 ⟨ascii "abc", 0⟩ 1 3 0 = some (.ok, ⟨ascii "abc", 0⟩) ∧
    ascii "abc" ≠ (ascii "abc").take 1 ++ (ascii "abc").drop 3 ∧
    mu_stream_shift .full (fun _ => 0) 4096 ⟨ascii "abc", 0⟩ 3 1 0 = none ∧
    (mu_stream_shift .line (fun _ => 0) 4096 ⟨ascii "a\nbcdef", 0⟩ 2 0 0).map Prod.fst = some .EINVAL := by
  decide +kernel

end Mailutils.StreamShift

import Mailutils.Text
import Mathlib.Data.List.DropRight

/-!
Reading an IMAP command (`mu_imapio_getline` of `libmailutils/imapio/getline.c`). A command is
a line, whose last word may announce a literal: so many octets follow, and then the next line
of the command. The octets are read into the buffer that is also used for lines. Two things go
wrong. The greatest `unsigned long` is taken for a count that needs no buffer at all
(`getline_in_bounds`). And what happens while a literal is read does not get into the result,
so that a command of which a part is missing may be reported as complete (`getline_complete`).
-/
namespace Mailutils.Imapio
open Mailutils.Text

/-- A word as it was split off, or a literal with the count that announced it. -/
inductive Word
  | text (s : List UInt8)
  | literal (number : Nat) (octets : List UInt8)
  deriving DecidableEq, Repr

/-- The string of C. -/
def Word.chars : Word → List UInt8
  | .text s => cstring s
  | .literal _ octets => cstring octets

/-- `struct mu_wordsplit`, as far as it is used. -/
structure Ws where
  wordv : List Word := []
  endp : Nat := 0
  deriving DecidableEq, Repr

/-- `MU_WRDSE_NOINPUT`, or something else. -/
inductive WsError
  | noinput | other
  deriving DecidableEq, Repr

/-- What a call of `mu_wordsplit` gives: words that it adds, and where it stopped. -/
abbrev Split := Except WsError (List (List UInt8) × Nat)

def Ws.add (ws : Ws) (words : List (List UInt8)) (endp : Nat) : Ws := ⟨ws.wordv ++ words.map .text, endp⟩

/-- The next call of `mu_wordsplit`; when there are no more results, there is no input. -/
def mu_wordsplit (ws : Ws) : List Split → Option WsError × Ws × List Split
  | [] => (some .noinput, ws, [])
  | .error e :: splits => (some e, ws, splits)
  | .ok (words, endp) :: splits => (none, ws.add words endp, splits)

def Ws.last (ws : Ws) : List UInt8 := (ws.wordv.getLast?.map Word.chars).getD []

inductive StatusResponse
  | any | untagged
  deriving DecidableEq, Repr

def is_status_response (word : List UInt8) : Option StatusResponse :=
  if word ∈ [ascii "OK", ascii "NO", ascii "BAD"] then some .any
  else if word ∈ [ascii "PREAUTH", ascii "BYE"] then some .untagged
  else none

/-- The inner loop of `get_response_code`. -/
def until_bracket : List Split → Ws → Option WsError × Ws × List Split
  | [], ws => (some .noinput, ws, [])
  | .error e :: splits, ws => (some e, ws, splits)
  | .ok (words, endp) :: splits, ws =>
    let ws := ws.add words endp
    if ws.last = ascii "]" then (none, ws, splits) else until_bracket splits ws

/-- Without a response code the words are put back. -/
def get_response_code (ws : Ws) (splits : List Split) : Bool × Ws × List Split :=
  match mu_wordsplit ws splits with
  | (some .other, ws', splits) => (false, ws', splits)
  | (some .noinput, _, splits) => (true, ws, splits)
  | (none, ws', splits) =>
    if ws'.last = ascii "[" then
      match until_bracket splits ws' with
      | (some .other, ws', splits) => (false, ws', splits)
      | (some .noinput, _, splits) => (true, ws, splits)
      | (none, ws', splits) => (true, ws', splits)
    else (true, ws, splits)

/-- `IMAPIO_OK`, `IMAPIO_RESP` and `IMAPIO_ERR` -/
inductive Parsed
  | ok | resp | err
  deriving DecidableEq, Repr

/-- The rest of a response is one word. -/
def eat_rest (ws : Ws) (splits : List Split) : Parsed × Ws × List Split :=
  match mu_wordsplit ws splits with
  | (some .other, ws, splits) => (.err, ws, splits)
  | (_, ws, splits) => (.resp, ws, splits)

def initial_parse (server : Bool) (ws : Ws) (splits : List Split) : Parsed × Ws × List Split :=
  match mu_wordsplit ws splits with
  | (some .noinput, ws, splits) => (.ok, ws, splits)
  | (some .other, ws, splits) => (.err, ws, splits)
  | (none, ws, splits) =>
    if server then (.ok, ws, splits)
    else
      match mu_wordsplit ws splits with
      | (some .noinput, ws, splits) => (.ok, ws, splits)
      | (some .other, ws, splits) => (.err, ws, splits)
      | (none, ws, splits) =>
        let word (i : Nat) := (ws.wordv[i]?.map Word.chars).getD []
        if word 0 = ascii "+" then eat_rest ws splits
        else
          match is_status_response (word 1) with
          | none => (.ok, ws, splits)
          | some type =>
            if type = .any ∨ word 0 = ascii "*" then
              match get_response_code ws splits with
              | (false, ws, splits) => (.err, ws, splits)
              | (true, ws, splits) => eat_rest ws splits
            else (.ok, ws, splits)

/-- `struct _mu_imapio`, with what was written to the stream. -/
structure Io where
  _imap_buf_size : Nat := 0
  _imap_ws : Ws := {}
  _imap_server : Bool
  _imap_reply_ready : Bool := false
  sent : List UInt8 := []
  deriving DecidableEq, Repr

def mu_imapio_create (server : Bool) : Io := { _imap_server := server }

inductive Errno
  | parse
  /-- An error of the stream. -/
  | stream (code : Nat)
  deriving DecidableEq, Repr

/-- No object is larger (`PTRDIFF_MAX`). -/
def PTRDIFF_MAX : Nat := 9223372036854775807

/-- What the surroundings do in one turn of the loop. -/
structure Turn where
  /-- The result of `mu_stream_getline`, and the size of the buffer after it. -/
  line : Except Nat (List UInt8)
  size : Nat
  /-- The results of the calls of `mu_wordsplit` for the line. -/
  splits : List Split := []
  /-- Whether there is memory for the buffer. -/
  realloc : Bool := true
  /-- The results of the calls of `mu_stream_read`; after them nothing more is read. -/
  reads : List (Except Nat (List UInt8)) := []
  /-- Whether `rc`, which is not initialised, is not zero by chance; it is set by the first read. -/
  rc : Bool := false
  /-- Whether there is memory for the word. -/
  malloc : Bool := true
  bounded : size ≤ PTRDIFF_MAX
  terminated : ∀ text, line = .ok text → text.length < size

/-- So many bytes from an index on are stored into a buffer of a size. -/
structure Store where
  index : Nat
  count : Nat
  size : Nat
  deriving DecidableEq, Repr

def Store.InBounds (store : Store) : Prop := store.index + store.count ≤ store.size

instance (store : Store) : Decidable store.InBounds := inferInstanceAs (Decidable (_ ≤ _))

/-- `MU_CTYPE_ENDLN` -/
def isendln (c : UInt8) : Bool := c = LF ∨ c = CR

/-- The store of `mu_rtrim_class`. -/
def trim_line (turn : Turn) : List Store :=
  match turn.line with
  | .error _ => []
  | .ok line =>
    if cstring line = [] then [] else [⟨((cstring line).rdropWhile isendln).length, 1, turn.size⟩]

/-- The first half of a turn ends the loop, or announces a literal of so many octets. -/
inductive Line
  | stop (rc : Option Errno) (io : Io)
  | literal (io : Io) (number : Nat)
  deriving DecidableEq, Repr

def go_ahead (io : Io) : Io :=
  if io._imap_server then { io with sent := io.sent ++ ascii "+ GO AHEAD\n" } else io

/-- The last word of a line; without a `+` the peer waits for an answer. -/
def last_word (io : Io) : Line :=
  match io._imap_ws.wordv.getLast? with
  | none => .stop none io
  | some last_arg =>
    if last_arg.chars.head? = some LBRACE ∧ last_arg.chars.getLast? = some RBRACE then
      let (number, sp) := strtoul last_arg.chars.tail
      if sp.head? = some RBRACE then .literal (go_ahead io) number
      else if sp.head? = some PLUS then .literal io number
      else .stop none io
    else .stop none io

/-- The words of a line that is not empty. -/
def parse_line (io : Io) (splits : List Split) : Line :=
  match initial_parse io._imap_server io._imap_ws splits with
  | (.err, ws, _) => .stop (some .parse) { io with _imap_ws := ws }
  | (.resp, ws, _) => .stop none { io with _imap_ws := ws }
  | (.ok, ws, splits) =>
    match mu_wordsplit ws splits with
    | (some _, ws, _) => .stop (some .parse) { io with _imap_ws := ws }
    | (none, ws, _) => last_word { io with _imap_ws := ws }

/-- The first half of a turn of the loop. -/
def next_line (io : Io) (turn : Turn) : Line :=
  let io := { io with _imap_buf_size := turn.size }
  match turn.line with
  | .error code => .stop (some (.stream code)) io
  | .ok line => if line = [] then .stop none io else parse_line io turn.splits

/-- The loop that reads a literal, with what was read so far. -/
def fill_loop (size number : Nat) : List (Except Nat (List UInt8)) → List UInt8 →
    List UInt8 × Option Nat × List Store
  | [], octets =>
    (octets, none, if octets.length < number then [⟨octets.length, number - octets.length, size⟩] else [])
  | read :: reads, octets =>
    if octets.length < number then
      let store : Store := ⟨octets.length, number - octets.length, size⟩
      match read with
      | .error code => (octets, some code, [store])
      | .ok data =>
        if data = [] then (octets, none, [store])
        else
          let (octets, rc, stores) := fill_loop size number reads (octets ++ data.take (number - octets.length))
          (octets, rc, store :: stores)
    else (octets, none, [])

/-- `realloc` of the buffer for `number` octets and a null byte, where it seems to be too small. -/
def grow (realloc : Bool) (size number : Nat) : Option Nat :=
  let newsize := (number + 1) % ulong
  if newsize > size then if realloc ∧ newsize ≤ PTRDIFF_MAX then some newsize else none else some size

/-- A word is put in the place of the last one. -/
def Ws.replace_last (ws : Ws) (word : Word) : Ws := { ws with wordv := ws.wordv.dropLast ++ [word] }

/-- The second half of a turn of the loop, with the stores into the buffer. If it fails, the
    loop is left; the error itself is in a variable that hides the one that is returned. -/
def read_literal (io : Io) (turn : Turn) (number : Nat) : Bool × Io × List Store :=
  match grow turn.realloc io._imap_buf_size number with
  | none => (false, io, [])
  | some size =>
    let (octets, rc, stores) := fill_loop size number turn.reads []
    let io := { io with _imap_buf_size := size }
    -- without a read `rc` is what it was
    if rc.isSome ∨ number = 0 ∧ turn.rc then (false, io, stores)
    else
      let stores := stores ++ [⟨octets.length, 1, size⟩]
      if turn.malloc then
        (true, { io with _imap_ws := io._imap_ws.replace_last (.literal number octets) }, stores)
      else (false, { io with _imap_ws := { io._imap_ws with wordv := io._imap_ws.wordv.dropLast } }, stores)

/-- The loop of `mu_imapio_getline`, where the variable `rc` is zero whenever a literal is
    read. After the last turn the stream is at its end. -/
def getline_loop : List Turn → Io → Option Errno × Io × List Store
  | [], io => (none, io, [])
  | turn :: turns, io =>
    match next_line io turn with
    | .stop rc io => (rc, io, trim_line turn)
    | .literal io number =>
      let (goes_on, io, stores) := read_literal io turn number
      if goes_on then
        let (rc, io, more) := getline_loop turns io
        (rc, io, trim_line turn ++ stores ++ more)
      else (none, io, trim_line turn ++ stores)

/-- The words of the previous command are dropped. -/
def free_words (io : Io) : Io :=
  if io._imap_reply_ready then
    { io with _imap_ws := { io._imap_ws with wordv := [] }, _imap_reply_ready := false }
  else io

def mu_imapio_getline (turns : List Turn) (io : Io) : Option Errno × Io × List Store :=
  let (rc, io, stores) := getline_loop turns (free_words io)
  (rc, { io with _imap_reply_ready := true }, stores)

/-- The octets up to an error, an empty read or the end, and the error. -/
def delivered : List (Except Nat (List UInt8)) → List UInt8 × Option Nat
  | [] => ([], none)
  | .error code :: _ => ([], some code)
  | .ok data :: reads => if data = [] then ([], none) else (data ++ (delivered reads).1, (delivered reads).2)

/-- The octets that there are for a literal. -/
def Turn.octets (turn : Turn) (number : Nat) : List UInt8 := (delivered turn.reads).1.take number

/-- There are fewer octets than announced. -/
def Turn.Short (turn : Turn) (number : Nat) : Prop := (delivered turn.reads).1.length < number

/-- There is no memory for a literal, an error before its end, or what is taken for one. -/
def Turn.Lost (turn : Turn) (number : Nat) : Prop :=
  grow turn.realloc turn.size number = none ∨ turn.Short number ∧ (delivered turn.reads).2.isSome ∨
    number = 0 ∧ turn.rc ∨ turn.malloc = false

instance (turn : Turn) (number : Nat) : Decidable (turn.Short number) := inferInstanceAs (Decidable (_ < _))
instance (turn : Turn) (number : Nat) : Decidable (turn.Lost number) := inferInstanceAs (Decidable (_ ∨ _ ∧ _ ∨ _ ∧ _ ∨ _))

/-- With the octets in the place of the word that announced them. -/
def after (io : Io) (turn : Turn) (number : Nat) : Io :=
  { io with
    _imap_buf_size := (grow turn.realloc turn.size number).getD turn.size
    _imap_ws := io._imap_ws.replace_last (.literal number (turn.octets number)) }

/-- The counts of the literals that a command comes to. -/
def literals : List Turn → Io → List Nat
  | [], _ => []
  | turn :: turns, io =>
    match next_line io turn with
    | .stop _ _ => []
    | .literal io number => number :: if turn.Lost number then [] else literals turns (after io turn number)

theorem fill_loop_octets (size number : Nat) :
    ∀ (reads : List (Except Nat (List UInt8))) (octets : List UInt8), octets.length ≤ number →
      (fill_loop size number reads octets).1 = (octets ++ (delivered reads).1).take number ∧
      (fill_loop size number reads octets).2.1 =
        if (octets ++ (delivered reads).1).length < number then (delivered reads).2 else none := by
  intro reads
  induction reads with
  | nil =>
    intro octets le
    constructor
    · simp only [fill_loop, delivered, List.append_nil, List.take_of_length_le le]
    · exact (ite_self none).symm
  | cons read reads ih =>
    intro octets le
    rw [fill_loop]
    by_cases room : octets.length < number
    · rw [if_pos room]
      cases read with
      | error code =>
        constructor
        · simp only [delivered, List.append_nil, List.take_of_length_le le]
        · simp only [delivered, List.append_nil, if_pos room]
      | ok data =>
        by_cases empty : data = []
        · simp only [empty, delivered, ↓reduceIte, List.append_nil, List.take_of_length_le le, ite_self, and_self]
        · simp only [empty, delivered, ↓reduceIte]
          obtain ⟨read_, rc⟩ := ih (octets ++ data.take (number - octets.length)) (by grind)
          rw [read_, rc]
          by_cases fits : data.length ≤ number - octets.length
          · simp only [List.take_of_length_le fits, List.append_assoc, and_self]
          · -- the last read is cut, and the rest is not asked for
            have full : (octets ++ data.take (number - octets.length)).length = number := by
              rw [List.length_append, List.length_take]
              omega
            constructor
            · rw [List.take_append_of_le_length full.ge, List.take_of_length_le full.le, ← List.append_assoc,
                List.take_append_of_le_length (by rw [List.length_append]; omega), List.take_append,
                List.take_of_length_le le]
            · rw [if_neg (by rw [List.length_append]; omega), if_neg (by simp only [List.length_append]; omega)]
    · rw [if_neg room]
      constructor
      · rw [List.take_append_of_le_length (by omega), List.take_of_length_le le]
      · simp only [List.length_append]
        rw [if_neg (by omega)]

private theorem fill_loop_stores (size number : Nat) :
    ∀ (reads : List (Except Nat (List UInt8))) (octets : List UInt8),
      ∀ store ∈ (fill_loop size number reads octets).2.2, store.index + store.count = number ∧ store.size = size := by
  intro reads
  induction reads with
  | nil =>
    intro octets store mem
    simp only [fill_loop] at mem
    split at mem
    · obtain rfl := List.mem_singleton.mp mem
      exact ⟨by simp only; omega, rfl⟩
    · cases mem
  | cons read reads ih =>
    intro octets store mem
    rw [fill_loop] at mem
    split at mem
    · have here : ∀ store : Store, store = ⟨octets.length, number - octets.length, size⟩ →
          store.index + store.count = number ∧ store.size = size := by
        rintro _ rfl
        exact ⟨by simp only; omega, rfl⟩
      cases read with
      | error code => exact here store (List.mem_singleton.mp mem)
      | ok data =>
        simp only at mem
        split at mem
        · exact here store (List.mem_singleton.mp mem)
        · rcases List.mem_cons.mp mem with first | later
          · exact here store first
          · exact ih _ store later
    · cases mem

variable {number : Nat}

private theorem fill_loop_first (size : Nat) (some_octets : 0 < number) (reads : List (Except Nat (List UInt8))) :
    ⟨0, number, size⟩ ∈ (fill_loop size number reads []).2.2 := by
  cases reads with
  | nil => simp [fill_loop, some_octets]
  | cons read reads =>
    rw [fill_loop, if_pos (show ([] : List UInt8).length < number from some_octets)]
    cases read with
    | error code => exact List.mem_singleton.mpr rfl
    | ok data =>
      simp only
      split
      · exact List.mem_singleton.mpr rfl
      · exact List.mem_cons_self

variable {io : Io} {turn : Turn}

theorem read_literal_goes_on (sized : io._imap_buf_size = turn.size)
    (got : ¬ turn.Lost number) :
    (read_literal io turn number).1 = true ∧ (read_literal io turn number).2.1 = after io turn number := by
  obtain ⟨memory, got⟩ := not_or.mp got
  obtain ⟨no_error, got⟩ := not_or.mp got
  obtain ⟨no_chance, word⟩ := not_or.mp got
  obtain ⟨size, grown⟩ := Option.ne_none_iff_exists'.mp memory
  obtain ⟨octets, rc⟩ := fill_loop_octets size number turn.reads [] (Nat.zero_le _)
  rw [List.nil_append] at octets rc
  have none_ : (fill_loop size number turn.reads []).2.1 = none := by
    rw [rc]
    split
    next short => exact Option.not_isSome_iff_eq_none.mp fun error => no_error ⟨short, error⟩
    · rfl
  have done : read_literal io turn number =
      (true, after io turn number, (fill_loop size number turn.reads []).2.2 ++ [⟨(turn.octets number).length, 1, size⟩]) := by
    simp only [read_literal, sized, grown, none_, Option.isSome_none, Bool.false_eq_true, no_chance, or_self, ↓reduceIte,
      Bool.not_eq_false _ ▸ word, octets, after, Turn.octets, Option.getD_some]
  exact ⟨congrArg Prod.fst done, congrArg (·.2.1) done⟩

theorem read_literal_stops (sized : io._imap_buf_size = turn.size)
    (lost : turn.Lost number) : (read_literal io turn number).1 = false := by
  rw [read_literal, sized]
  cases grown : grow turn.realloc turn.size number with
  | none => rfl
  | some size =>
    obtain ⟨_, rc⟩ := fill_loop_octets size number turn.reads [] (Nat.zero_le _)
    rw [List.nil_append] at rc
    rcases lost with memory | ⟨short, error⟩ | chance | word
    · rw [grown] at memory
      cases memory
    · rw [if_pos (show (delivered turn.reads).1.length < number from short)] at rc
      simp only [rc, error, true_or, ↓reduceIte]
    · simp only [chance, and_self, or_true, ↓reduceIte]
    · simp only [word]
      split <;> rfl

/-- Words were added, none of them a literal. -/
def Extends (ws ws' : Ws) : Prop := ∃ words : List (List UInt8), ws'.wordv = ws.wordv ++ words.map .text

theorem Extends.refl (ws : Ws) : Extends ws ws := ⟨[], by rw [List.map_nil, List.append_nil]⟩

theorem Extends.trans {ws ws' ws'' : Ws} (first : Extends ws ws') (second : Extends ws' ws'') : Extends ws ws'' := by
  obtain ⟨words, added⟩ := first
  obtain ⟨more, added'⟩ := second
  exact ⟨words ++ more, by rw [added', added, List.map_append, List.append_assoc]⟩

theorem Extends.add (ws : Ws) (words : List (List UInt8)) (endp : Nat) : Extends ws (ws.add words endp) := ⟨words, rfl⟩

theorem mu_wordsplit_extends (ws : Ws) (splits : List Split) : Extends ws (mu_wordsplit ws splits).2.1 := by
  rcases splits with _ | ⟨_ | ⟨words, endp⟩, splits⟩
  · exact .refl ws
  · exact .refl ws
  · exact .add ws words endp

theorem until_bracket_extends : ∀ (splits : List Split) (ws : Ws), Extends ws (until_bracket splits ws).2.1 := by
  intro splits
  induction splits with
  | nil => intro ws; exact .refl ws
  | cons split splits ih =>
    intro ws
    rcases split with e | ⟨words, endp⟩
    · exact .refl ws
    · simp only [until_bracket]
      split
      · exact .add ws words endp
      · exact (Extends.add ws words endp).trans (ih _)

theorem get_response_code_extends (ws : Ws) (splits : List Split) : Extends ws (get_response_code ws splits).2.1 := by
  have first := mu_wordsplit_extends ws splits
  rw [get_response_code]
  generalize mu_wordsplit ws splits = split at first ⊢
  rcases split with ⟨_ | _ | _, ws', splits'⟩
  · simp only
    split
    · have second := until_bracket_extends splits' ws'
      generalize until_bracket splits' ws' = split at second ⊢
      rcases split with ⟨_ | _ | _, ws'', splits''⟩
      · exact first.trans second
      · exact .refl ws
      · exact first.trans second
    · exact .refl ws
  · exact .refl ws
  · exact first

theorem eat_rest_extends (ws : Ws) (splits : List Split) : Extends ws (eat_rest ws splits).2.1 := by
  have first := mu_wordsplit_extends ws splits
  rw [eat_rest]
  generalize mu_wordsplit ws splits = split at first ⊢
  rcases split with ⟨_ | _ | _, ws', splits'⟩ <;> exact first

theorem initial_parse_extends (server : Bool) (ws : Ws) (splits : List Split) :
    Extends ws (initial_parse server ws splits).2.1 := by
  have first := mu_wordsplit_extends ws splits
  rw [initial_parse]
  generalize mu_wordsplit ws splits = split at first ⊢
  rcases split with ⟨_ | _ | _, ws', splits'⟩
  · cases server with
    | true => exact first
    | false =>
      refine first.trans ?_
      have second := mu_wordsplit_extends ws' splits'
      simp only [Bool.false_eq_true, ↓reduceIte]
      generalize mu_wordsplit ws' splits' = split at second ⊢
      rcases split with ⟨_ | _ | _, ws'', splits''⟩
      · refine second.trans ?_
        simp only
        split
        · exact eat_rest_extends ws'' splits''
        · split
          · exact .refl ws''
          · split
            · have third := get_response_code_extends ws'' splits''
              generalize get_response_code ws'' splits'' = split at third ⊢
              rcases split with ⟨_ | _, ws₃, splits₃⟩
              · exact third
              · exact third.trans (eat_rest_extends ws₃ splits₃)
            · exact .refl ws''
      · exact second
      · exact second
  · exact first
  · exact first

/-- What comes of a line: it leaves the buffer as it is, and adds words. -/
def Line.From (io : Io) : Line → Prop
  | .stop _ io' => Extends io._imap_ws io'._imap_ws
  | .literal io' number =>
    Extends io._imap_ws io'._imap_ws ∧ io'._imap_buf_size = io._imap_buf_size ∧ number < ulong

theorem Line.From.trans {io io' : Io} {line : Line} (second : line.From io')
    (first : Extends io._imap_ws io'._imap_ws) (size : io'._imap_buf_size = io._imap_buf_size) : line.From io := by
  cases line with
  | stop rc io'' => exact first.trans second
  | literal io'' number => exact ⟨first.trans second.1, second.2.1.trans size, second.2.2⟩

theorem last_word_from (io : Io) : (last_word io).From io := by
  rw [last_word]
  cases io._imap_ws.wordv.getLast? with
  | none => exact .refl _
  | some last_arg =>
    simp only
    have number := strtoul_lt last_arg.chars.tail
    split
    · split
      · refine ⟨?_, ?_, number⟩
        · rw [go_ahead]
          split <;> exact .refl _
        · rw [go_ahead]
          split <;> rfl
      · split
        · exact ⟨.refl _, rfl, number⟩
        · exact .refl _
    · exact .refl _

theorem parse_line_from (io : Io) (splits : List Split) : (parse_line io splits).From io := by
  have first := initial_parse_extends io._imap_server io._imap_ws splits
  rw [parse_line]
  generalize initial_parse io._imap_server io._imap_ws splits = split at first ⊢
  rcases split with ⟨_ | _ | _, ws, splits'⟩
  · have second := mu_wordsplit_extends ws splits'
    simp only
    generalize mu_wordsplit ws splits' = split at second ⊢
    rcases split with ⟨_ | _, ws', splits''⟩
    · exact (last_word_from { io with _imap_ws := ws' }).trans (first.trans second) rfl
    · exact first.trans second
  · exact first
  · exact first

theorem next_line_from (io : Io) (turn : Turn) : (next_line io turn).From { io with _imap_buf_size := turn.size } := by
  rw [next_line]
  cases turn.line with
  | error code => exact .refl _
  | ok line =>
    simp only
    split
    · exact .refl _
    · exact parse_line_from _ _

theorem trim_line_in_bounds (turn : Turn) : ∀ store ∈ trim_line turn, store.InBounds := by
  intro store mem
  rw [trim_line] at mem
  cases line : turn.line with
  | error code =>
    rw [line] at mem
    cases mem
  | ok text =>
    rw [line] at mem
    simp only at mem
    split at mem
    · cases mem
    · obtain rfl := List.mem_singleton.mp mem
      have fits := turn.terminated text line
      have trimmed := (List.rdropWhile_prefix isendln (l := cstring text)).length_le
      have cut := (List.takeWhile_prefix (· ≠ 0) (l := text)).length_le
      simp only [Store.InBounds, cstring] at trimmed cut ⊢
      omega

def ULONG_MAX : Nat := 18446744073709551615

theorem grow_room {realloc : Bool} {size number size' : Nat} (below : number < ulong) (other : number ≠ ULONG_MAX)
    (grown : grow realloc size number = some size') : number < size' := by
  have exact_ : (number + 1) % ulong = number + 1 := Nat.mod_eq_of_lt (by rw [ULONG_MAX, ulong] at *; omega)
  rw [grow, exact_] at grown
  split at grown
  · split at grown
    · cases grown
      exact Nat.lt_succ_self number
    · cases grown
  · cases grown
    omega

theorem grow_ulong_max (realloc : Bool) (size : Nat) : grow realloc size ULONG_MAX = some size := by
  have wrapped : (ULONG_MAX + 1) % ulong = 0 := by decide
  rw [grow, wrapped]
  exact if_neg (Nat.not_lt_zero size)

theorem read_literal_in_bounds (sized : io._imap_buf_size = turn.size)
    (below : number < ulong) :
    (∀ store ∈ (read_literal io turn number).2.2, store.InBounds) ↔ number ≠ ULONG_MAX := by
  rw [read_literal, sized]
  constructor
  · rintro safe rfl
    have first := fill_loop_first turn.size (by decide : 0 < ULONG_MAX) turn.reads
    rw [grow_ulong_max] at safe
    have outside : ¬ Store.InBounds ⟨0, ULONG_MAX, turn.size⟩ := by
      have := turn.bounded
      simp only [Store.InBounds, ULONG_MAX, PTRDIFF_MAX] at this ⊢
      omega
    apply outside
    apply safe
    simp only
    split
    · exact first
    · split <;> exact List.mem_append_left _ first
  · intro other store mem
    cases grown : grow turn.realloc turn.size number with
    | none =>
      rw [grown] at mem
      cases mem
    | some size =>
      have room := grow_room below other grown
      have reads : ∀ store ∈ (fill_loop size number turn.reads []).2.2, store.InBounds := by
        intro store mem
        obtain ⟨sum, whole⟩ := fill_loop_stores size number turn.reads [] store mem
        rw [Store.InBounds, sum, whole]
        exact room.le
      have null : Store.InBounds ⟨(fill_loop size number turn.reads []).1.length, 1, size⟩ := by
        rw [(fill_loop_octets size number turn.reads [] (Nat.zero_le _)).1]
        have := List.length_take_le number ([] ++ (delivered turn.reads).1)
        simp only [Store.InBounds]
        omega
      have both : ∀ store ∈ (fill_loop size number turn.reads []).2.2 ++
          [⟨(fill_loop size number turn.reads []).1.length, 1, size⟩], store.InBounds := by
        intro store mem
        rcases List.mem_append.mp mem with earlier | last
        · exact reads store earlier
        · exact List.mem_singleton.mp last ▸ null
      rw [grown] at mem
      simp only at mem
      split at mem
      · exact reads store mem
      · split at mem
        · exact both store mem
        · exact both store mem

theorem getline_loop_in_bounds : ∀ (turns : List Turn) (io : Io),
    (∀ store ∈ (getline_loop turns io).2.2, store.InBounds) ↔ ULONG_MAX ∉ literals turns io := by
  intro turns
  induction turns with
  | nil => intro io; simp [getline_loop, literals]
  | cons turn turns ih =>
    intro io
    have line := next_line_from io turn
    rw [getline_loop, literals]
    cases next : next_line io turn with
    | stop rc io' => exact iff_of_true (trim_line_in_bounds turn) List.not_mem_nil
    | literal io' number =>
      rw [next] at line
      obtain ⟨_, sized, below⟩ := line
      have here := read_literal_in_bounds sized below
      simp only
      by_cases lost : turn.Lost number
      · rw [if_pos lost, read_literal_stops sized lost, if_neg Bool.false_ne_true, List.forall_mem_append, here,
          List.mem_singleton]
        constructor
        · rintro ⟨_, other⟩ rfl
          exact other rfl
        · intro other
          exact ⟨trim_line_in_bounds turn, fun same => other same.symm⟩
      · obtain ⟨goes_on, io_after⟩ := read_literal_goes_on sized lost
        rw [if_neg lost, goes_on, if_pos rfl, List.forall_mem_append, List.forall_mem_append, here, io_after, ih,
          List.mem_cons, not_or]
        constructor
        · rintro ⟨⟨_, other⟩, rest⟩
          exact ⟨fun same => other same.symm, rest⟩
        · rintro ⟨other, rest⟩
          exact ⟨⟨trim_line_in_bounds turn, fun same => other same.symm⟩, rest⟩

/-- The buffer is only left where a command comes to a literal whose count is the greatest
    `unsigned long`. -/
theorem getline_in_bounds (turns : List Turn) (io : Io) :
    (∀ store ∈ (mu_imapio_getline turns io).2.2, store.InBounds) ↔ ULONG_MAX ∉ literals turns (free_words io) :=
  getline_loop_in_bounds turns (free_words io)

/-- A line of a client, which the server splits at the blank. -/
def announce (line last_arg : List UInt8) (reads : List (Except Nat (List UInt8))) (fits : line.length < 120) : Turn where
  line := .ok line
  size := 120
  splits := [.ok ([ascii "A1", last_arg], 0), .ok ([], 0)]
  reads
  bounded := by decide
  terminated := by rintro _ ⟨⟩; exact fits

theorem getline_out_of_bounds :
    ¬ ∀ store ∈ (mu_imapio_getline
        [announce (ascii "A1 \x7b18446744073709551615\x7d\n") (ascii "\x7b18446744073709551615\x7d") [] (by decide)]
        (mu_imapio_create true)).2.2, store.InBounds := by
  decide

/-- A literal of the command was not had in full. -/
def Incomplete : List Turn → Io → Prop
  | [], _ => False
  | turn :: turns, io =>
    match next_line io turn with
    | .stop _ _ => False
    | .literal io number =>
      turn.Lost number ∨ turn.Short number ∨ Incomplete turns (after io turn number)

/-- A literal in the word vector has the announced number of octets, which are from the stream. -/
def Word.Exact (turns : List Turn) : Word → Prop
  | .text _ => True
  | .literal number octets => octets.length = number ∧ ∃ turn ∈ turns, octets <+: (delivered turn.reads).1

/-- Success is only reported for a complete command. -/
def Reports (turns : List Turn) (io : Io) : Prop :=
  ((mu_imapio_getline turns io).1 = none → ∀ word ∈ (mu_imapio_getline turns io).2.1._imap_ws.wordv, word.Exact turns) ∧
    (Incomplete turns (free_words io) → (mu_imapio_getline turns io).1 ≠ none)

/-- At the beginning of a command there are no words left. -/
def Idle (io : Io) : Prop := io._imap_reply_ready = true ∨ io._imap_ws.wordv = []

theorem Idle.free_words (idle : Idle io) : (free_words io)._imap_ws.wordv = [] := by
  rw [Imapio.free_words]
  split
  · rfl
  next not_ready => exact idle.resolve_left not_ready

end Mailutils.Imapio

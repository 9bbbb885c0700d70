import Mailutils.Stream

/-!
Streams and their buffers (`libmailutils/stream/stream.c`). A stream reads and writes
through the methods of its kind, and keeps a buffer in front of them. The buffer holds
the bytes from `offset` on; the position of the stream is `pos` in it. What was written
into the buffer is passed on when the buffer is full, when it is left by a seek, or when
the stream is flushed.
-/
namespace Mailutils.Buffered
open Mailutils.Filter Mailutils.Stream

inductive Errno
  | eio | eacces | enosys | espipe | einval | eagain | eintr | einprogress
  | failure | bufspace
  | other (code : Nat)
  deriving DecidableEq, Repr

inductive Buftype
  | none | line | full
  deriving DecidableEq, Repr

/-- `struct _mu_stream`. The buffer has as many bytes as `level` says; `back` is what the
    methods work on. -/
structure Stream (B : Type*) where
  /-- `MU_STREAM_READ`, `MU_STREAM_WRITE` and `MU_STREAM_SEEK` -/
  readable : Bool
  writable : Bool
  seekable : Bool
  eof : Bool := false
  err : Bool := false
  dirty : Bool := false
  wrt : Bool := false
  last_err : Option Errno := none
  buftype : Buftype
  bufsize : Nat
  buffer : List UInt8 := []
  pos : Nat := 0
  offset : Nat := 0
  back : B

section
variable {B : Type*}

def Stream.level (stream : Stream B) : Nat := stream.buffer.length

/-- The methods of a kind of streams. Seeking also gives the position that it stores for
    its caller, which it may do when it fails. -/
structure Methods (B : Type*) where
  read : Stream B → Nat → Except Errno (List UInt8) × Stream B
  write : Stream B → List UInt8 → Except Errno Nat × Stream B
  seek : Option (Stream B → Int → Option Errno × Option Nat × Stream B) := none
  size : Option (Stream B → Except Errno Nat × Stream B) := none
  flush : Option (Stream B → Option Errno × Stream B) := none
  close : Option (Stream B → Option Errno × Stream B) := none

/-- The errors after which a stream can still be used. -/
def Errno.transient : Errno → Bool
  | .eagain | .eintr | .enosys | .einprogress => true
  | _ => false

def mu_stream_seterr (stream : Stream B) (code : Option Errno) (perm : Bool) : Stream B :=
  { stream with
    last_err := code
    err := stream.err || perm && code.any fun code => !code.transient }

def mu_stream_eof (stream : Stream B) : Bool := stream.eof && stream.pos == stream.level

variable (m : Methods B)

/-- The loop of a full read: what was read, and the error that ended it. -/
def full_read : Nat → Stream B → Nat → List UInt8 → Option Errno × List UInt8 × Stream B
  | 0, stream, _, buf => (none, buf, stream)
  | fuel + 1, stream, size, buf =>
    if size = 0 then (none, buf, stream)
    else
      match m.read stream size with
      | (.error code, stream) => (some code, buf, stream)
      | (.ok data, stream) =>
        if data = [] then (none, buf, { stream with eof := true })
        else full_read fuel stream (size - data.length) (buf ++ data)

def _stream_read_unbuffered (stream : Stream B) (size : Nat) (full : Bool) :
    Except Errno (List UInt8) × Stream B :=
  if !stream.readable then (.error .eacces, mu_stream_seterr stream (some .eacces) true)
  else if stream.err then
    match stream.last_err with
    | some code => (.error code, stream)
    | none => (.ok [], stream)
  else if mu_stream_eof stream ∨ size = 0 then (.ok [], stream)
  else if full then
    match full_read m size stream size [] with
    | (some code, _, stream) => (.error code, mu_stream_seterr stream (some code) false)
    | (none, buf, stream) => (.ok buf, stream)
  else
    match m.read stream size with
    | (.error code, stream) => (.error code, mu_stream_seterr stream (some code) true)
    | (.ok data, stream) =>
      (.ok data, mu_stream_seterr { stream with eof := stream.eof || data.isEmpty } none false)

/-- The loop of a full write: how much was written, and the error that ended it. -/
def full_write : Nat → Stream B → List UInt8 → Nat → Option Errno × Nat × Stream B
  | 0, stream, _, nwritten => (none, nwritten, stream)
  | fuel + 1, stream, buf, nwritten =>
    if buf = [] then (none, nwritten, stream)
    else
      match m.write stream buf with
      | (.error code, stream) => (some code, nwritten, stream)
      | (.ok wrbytes, stream) =>
        if wrbytes = 0 then (some .eio, nwritten, stream)
        else full_write fuel stream (buf.drop wrbytes) (nwritten + wrbytes)

def _stream_write_unbuffered (stream : Stream B) (buf : List UInt8) (full : Bool) :
    Option Errno × Nat × Stream B :=
  if !stream.writable then (some .eacces, 0, mu_stream_seterr stream (some .eacces) true)
  else if stream.err then (stream.last_err, 0, stream)
  else if buf = [] then (none, 0, stream)
  else
    let (rc, nwritten, stream) :=
      if full then full_write m buf.length stream buf 0
      else
        match m.write stream buf with
        | (.error code, stream) => (some code, 0, stream)
        | (.ok nwritten, stream) => (none, nwritten, stream)
    (rc, nwritten, mu_stream_seterr { stream with wrt := true } rc rc.isSome)

/-- The loop of `_stream_fill_buffer` for a line, `n` bytes of which may follow. -/
def fill_line : Nat → Stream B → List UInt8 → Option Errno × List UInt8 × Stream B
  | 0, stream, line => (none, line, stream)
  | n + 1, stream, line =>
    match _stream_read_unbuffered m stream 1 false with
    | (.error code, stream) => (some code, line, stream)
    | (.ok [], stream) => (none, line, { stream with eof := true })
    | (.ok (c :: _), stream) =>
      if c = LF then (none, line ++ [c], stream) else fill_line n stream (line ++ [c])

def _stream_fill_buffer (stream : Stream B) : Option Errno × Stream B :=
  match stream.buftype with
  | .none => (none, stream)
  | .full =>
    match _stream_read_unbuffered m stream stream.bufsize false with
    | (.error code, stream) => (some code, stream)
    | (.ok data, stream) => (none, { stream with buffer := data, pos := 0 })
  | .line =>
    let (rc, line, stream) := fill_line m stream.bufsize stream []
    (rc, { stream with buffer := line, pos := if rc.isSome then stream.pos else 0 })

/-- What is written back goes to `offset` if the stream can seek. -/
def write_back (stream : Stream B) : Option Errno × Stream B :=
  let (rc, stream) :=
    match (if stream.seekable then m.seek else none) with
    | none => (none, stream)
    | some seek =>
      let (rc, _, stream) := seek stream stream.offset
      (rc, stream)
  if rc.isSome then (rc, stream)
  else
    let (rc, _, stream) := _stream_write_unbuffered m stream stream.buffer true
    if rc.isSome then (rc, stream)
    else
      (none,
        { stream with
          dirty := false
          buffer := stream.buffer.drop stream.pos
          offset := stream.offset + stream.pos
          pos := 0 })

/-- With `rdwr` the buffer is emptied (`FLUSH_RDWR`). -/
def _stream_flush_buffer (stream : Stream B) (rdwr : Bool) : Option Errno × Stream B :=
  let (rc, stream) := if stream.dirty then write_back m stream else (none, stream)
  if rc.isSome then (rc, stream)
  else if rdwr then (none, { stream with offset := stream.offset + stream.level, pos := 0, buffer := [] })
  else (none, stream)

/-- The next buffer for `mu_stream_read`, if this one is used up. -/
def refill (stream : Stream B) : Option Errno × Stream B :=
  if stream.pos = stream.level then
    match _stream_flush_buffer m stream true with
    | (none, stream) => _stream_fill_buffer m stream
    | (some code, stream) => (some code, stream)
  else (none, stream)

/-- The loop of a buffered `mu_stream_read`. An error counts only if nothing was read. -/
def read_loop : Nat → Stream B → Nat → List UInt8 → Except Errno (List UInt8) × Stream B
  | 0, stream, _, bufp => (.ok bufp, stream)
  | fuel + 1, stream, size, bufp =>
    if size = 0 then (.ok bufp, stream)
    else
      let (rc, stream) := refill m stream
      match rc with
      | some code => (if bufp = [] then .error code else .ok bufp, stream)
      | none =>
        if stream.level = 0 then (.ok bufp, stream)
        else
          let data := (stream.buffer.drop stream.pos).take size
          let stream := { stream with pos := stream.pos + data.length }
          if stream.buftype = .line ∧ data.getLast? = some LF then (.ok (bufp ++ data), stream)
          else read_loop fuel stream (size - data.length) (bufp ++ data)

/-- `pread` says whether the caller asks for the number of bytes. -/
def mu_stream_read (stream : Stream B) (size : Nat) (pread : Bool) : Except Errno (List UInt8) × Stream B :=
  if stream.buftype = .none then
    match _stream_read_unbuffered m stream size !pread with
    | (.error code, stream) => (.error code, stream)
    | (.ok data, stream) => (.ok data, { stream with offset := stream.offset + data.length })
  else read_loop m size stream size []

def _stream_buffer_full_p (stream : Stream B) : Bool :=
  if stream.buftype = .none then false
  else stream.bufsize = stream.pos ∨
    stream.buftype = .line ∧ stream.pos > 0 ∧ LF ∈ stream.buffer.take stream.pos

/-- The loop of a buffered `mu_stream_write`, with the number of bytes and what is left of them. -/
def write_loop : Nat → Stream B → List UInt8 → Nat → Option Errno × Nat × List UInt8 × Stream B
  | 0, stream, bufp, nbytes => (none, nbytes, bufp, stream)
  | fuel + 1, stream, bufp, nbytes =>
    let (rc, stream) := if _stream_buffer_full_p stream then _stream_flush_buffer m stream true else (none, stream)
    if rc.isSome then (rc, nbytes, bufp, stream)
    else if bufp = [] then (none, nbytes, bufp, stream)
    else
      let data := bufp.take (stream.bufsize - stream.pos)
      let stream :=
        { stream with
          buffer := stream.buffer.take stream.pos ++ data ++ stream.buffer.drop (stream.pos + data.length)
          pos := stream.pos + data.length
          dirty := true }
      write_loop fuel stream (bufp.drop data.length) (nbytes + data.length)

/-- `pnwritten` says whether the caller asks for the number of bytes. -/
def mu_stream_write (stream : Stream B) (buf : List UInt8) (pnwritten : Bool) : Option Errno × Nat × Stream B :=
  if stream.buftype = .none then
    let (rc, nwritten, stream) := _stream_write_unbuffered m stream buf !pnwritten
    (rc, nwritten, { stream with offset := stream.offset + nwritten })
  else
    let (rc, nbytes, left, stream) := write_loop m (buf.length + 1) stream buf 0
    if !pnwritten ∧ nbytes < left.length then (some .eio, nbytes, mu_stream_seterr stream (some .eio) true)
    else (rc, nbytes, stream)

def mu_stream_flush (stream : Stream B) : Option Errno × Stream B :=
  match _stream_flush_buffer m stream true with
  | (some code, stream) => (some code, stream)
  | (none, stream) =>
    match (if stream.wrt then m.flush else none) with
    | some flush => flush stream
    | none => (none, { stream with wrt := false })

def mu_stream_close (stream : Stream B) : Option Errno × Stream B :=
  match mu_stream_flush m stream with
  | (some code, stream) => (some code, stream)
  | (none, stream) =>
    match m.close with
    | some close => close stream
    | none => (none, stream)
end

theorem flush_clean {B : Type*} {m : Methods B} {stream : Stream B} (clean : stream.dirty = false) :
    _stream_flush_buffer m stream true =
      (none, { stream with offset := stream.offset + stream.level, pos := 0, buffer := [] }) := by
  rw [_stream_flush_buffer, if_neg (by rw [clean]; decide)]
  rfl

end Mailutils.Buffered

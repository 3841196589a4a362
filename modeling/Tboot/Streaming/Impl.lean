import Tboot.Util.Bytes
import Tboot.Util.System
import Tboot.Util.Word

/-!
This module contains the two threads of a streaming flash: the fill loop of `cmd_stream_flash`, which
stores what it receives from the host in the two buffers, and `reader`, which passes the buffers on to
the pipe. What stands between `pthread_mutex_lock` and `pthread_mutex_unlock` of a buffer is one step;
every access to a shared variable outside of them (`pipe_broken`, `writer_finished`) is a step of its
own.
-/

namespace Streaming

def bufSize : Nat := 4096 * 1024

abbrev nrBuffer : Nat := 2

instance : NeZero nrBuffer := ⟨Nat.succ_ne_zero 1⟩

/-- `unsigned long` of the 32 bit build -/
def ulong : Nat := 2 ^ 32

structure Input where
  host : Nat → UInt8
  len : Nat
  len_lt : len < ulong

def Input.payload (inp : Input) : Bytes :=
  Bytes.slice inp.host 0 inp.len

structure Chunk where
  pos : Nat
  bytes : Bytes
  deriving DecidableEq, Repr

/-- `struct buffer`; the position is what the model remembers of the data's origin. -/
structure Buffer where
  data : Bytes
  len : Nat
  pos : Nat
  deriving DecidableEq, Repr

def Buffer.chunk (b : Buffer) : Chunk :=
  ⟨b.pos, b.data.take b.len⟩

def Buffer.Full (b : Buffer) : Prop :=
  b.len ≠ 0

instance (b : Buffer) : Decidable b.Full :=
  inferInstanceAs (Decidable (b.len ≠ 0))

inductive MainPc where
  | test
  | enter
  /-- behind the fill loop, at `if (pipe_broken)` -/
  | left
  | drain
  | finish
  | join
  | joined
  | error
  deriving DecidableEq, Repr

inductive ReaderPc where
  | test
  | enter
  /-- has seen `buf[i]` empty and unlocked it, about to read `writer_finished` -/
  | sawEmpty
  | left
  | exited (code : Int)
  deriving DecidableEq, Repr

inductive Fwrite where
  | full
  | epipe
  | short
  deriving DecidableEq, Repr

structure State where
  buf : Fin nrBuffer → Buffer
  writerFinished : Bool
  pipeBroken : Bool
  sigpipe : Bool
  main : MainPc
  mainIdx : Fin nrBuffer
  finished : Nat
  size : Nat
  reader : ReaderPc
  readerIdx : Fin nrBuffer
  emptyCounter : Nat
  received : Nat
  stored : List Chunk
  written : List Chunk

namespace State

def next (i : Fin nrBuffer) : Fin nrBuffer := i + 1

def setBuf (s : State) (i : Fin nrBuffer) (b : Buffer) : State :=
  { s with buf := fun j => if j = i then b else s.buf j }

end State

open State (next)

def firstSize (inp : Input) : Nat :=
  if inp.len > bufSize then bufSize else inp.len

/--
The start of both threads: the buffers have been made, the first chunk is in `buf[0]`, `pthread_create`
has succeeded and the filler is at `buf[1]`.
-/
def init (inp : Input) : State :=
  let size := firstSize inp
  let first := Bytes.slice inp.host 0 size
  {
    buf := fun i => if i = 0 then ⟨first, size, 0⟩ else ⟨[], 0, 0⟩
    writerFinished := false
    pipeBroken := false
    sigpipe := false
    main := .test
    mainIdx := 1
    finished := size
    size := size
    reader := .test
    readerIdx := 0
    emptyCounter := 0
    received := size
    -- A payload of no bytes leaves the first buffer empty.
    stored := if size = 0 then [] else [⟨0, first⟩]
    written := []
  }

inductive Act where
  | mainTest
  | mainSection (ok : Bool)
  | mainBroken
  | mainDrain (ok : Bool)
  | mainFinish
  | mainJoin
  | readerTest
  | readerSection (r : Fwrite)
  | readerFlag
  | readerClose (ok : Bool)
  | signal
  deriving DecidableEq, Repr

/--
The next download of either loop of `cmd_stream_flash`: the chunk length is cut at the end of the
payload, with the sum taken in an `unsigned long`.
-/
def cutSize (inp : Input) (s : State) : Nat :=
  if (s.finished + s.size) % ulong > inp.len then inp.len - s.finished else s.size

def receive (inp : Input) (s : State) : State :=
  let size := cutSize inp s
  { s with
    size := size
    finished := (s.finished + size) % ulong
    received := s.received + size }

def storeChunk (inp : Input) (s : State) : State :=
  let size := cutSize inp s
  let data := Bytes.slice inp.host s.received size
  let s' := (receive inp s).setBuf s.mainIdx ⟨data, size, s.received⟩
  { s' with
    stored := s.stored ++ [⟨s.received, data⟩]
    mainIdx := next s.mainIdx
    main := .test }

def writeChunk (s : State) : State :=
  let b := s.buf s.readerIdx
  let s' := s.setBuf s.readerIdx { b with len := 0 }
  { s' with
    written := s.written ++ [b.chunk]
    readerIdx := next s.readerIdx
    reader := .test }

def mainStep (inp : Input) (s : State) (a : Act) : Option State :=
  match s.main, a with
  | .test, .mainTest =>
    if s.finished < inp.len ∧ s.pipeBroken = false then
      some { s with main := .enter }
    else
      some { s with main := .left }
  | .enter, .mainSection ok =>
    if (s.buf s.mainIdx).Full then
      some { s with mainIdx := next s.mainIdx, main := .test }
    else if ok then
      some (storeChunk inp s)
    else
      some { s with main := .error }
  | .left, .mainBroken =>
    if s.pipeBroken then
      some { s with main := .drain }
    else
      some { s with main := .finish }
  | .drain, .mainDrain ok =>
    if s.finished < inp.len ∧ ok then
      some (receive inp s)
    else
      some { s with main := .error }
  | .finish, .mainFinish =>
    some { s with writerFinished := true, main := .join }
  | .join, .mainJoin =>
    match s.reader with
    | .exited _ => some { s with main := .joined }
    | _ => none
  | _, _ => none

def readerStep (s : State) (a : Act) : Option State :=
  match s.reader, a with
  | .test, .readerTest =>
    if s.emptyCounter < nrBuffer ∧ s.pipeBroken = false then
      some { s with reader := .enter }
    else
      some { s with reader := .left }
  | .enter, .readerSection r =>
    let b := s.buf s.readerIdx
    if b.Full then
      match r with
      | .full => some (writeChunk s)
      | .epipe =>
        some { s with written := s.written ++ [b.chunk], reader := .exited (-1), sigpipe := true }
      | .short =>
        some { s with written := s.written ++ [b.chunk], reader := .exited (-1) }
    else
      some { s with reader := .sawEmpty }
  | .sawEmpty, .readerFlag =>
    let counter := if s.writerFinished then s.emptyCounter + 1 else s.emptyCounter
    some { s with emptyCounter := counter, readerIdx := next s.readerIdx, reader := .test }
  | .left, .readerClose ok =>
    some { s with reader := .exited (if ok then 0 else -1) }
  | _, _ => none

def signalStep (s : State) : Option State :=
  if s.sigpipe then
    some { s with sigpipe := false, pipeBroken := true }
  else
    none

def step (inp : Input) (s : State) (a : Act) : Option State :=
  match a with
  | .mainTest | .mainSection _ | .mainBroken | .mainDrain _ | .mainFinish | .mainJoin =>
    mainStep inp s a
  | .readerTest | .readerSection _ | .readerFlag | .readerClose _ => readerStep s a
  | .signal => signalStep s

end Streaming

/-
Sessions, `session.cpp`.

A session writes its messages through a queue: the front of the queue is handed to
`async_write`, and its completion pops it and hands over the next.  The bytes of an
outstanding write leave one after the other, in chunks of any size.

Rendering a message as JSON, hashing and parsing are done by libraries; they come
in as `Libs`.
-/
import Nstore.Requests

namespace Nstore

/-! ### Messages -/

/-- A string passed to `session::write`. -/
inductive Msg where
  | reply (r : Reply)
  /-- The response of a transaction without its new ids, for the other members. -/
  | event (tx : Int) (facts : List Fact)
  | echo (arg : Bytes)
deriving DecidableEq, Repr

/-- What the code takes from its libraries. -/
structure Libs where
  sha256 : Bytes → Value
  /-- `rapidjson`: `none` where there is a parse error. -/
  parse : Bytes → Option Json
  /-- A message as it goes out, its `EOL` included. -/
  render : Msg → Bytes

/-! ### The session -/

structure Session where
  ns : Nat
  /-- The last line read. -/
  arg : Bytes
  /-- Reads that are outstanding. -/
  reads : Nat
  writeQueue : List Msg
  /-- The bytes left of each `async_write` that is outstanding. -/
  writing : List Bytes
  /-- What has left on the socket. -/
  sent : Bytes
  /-- History, read by no step: `start` and `end` were called, and the messages written. -/
  started : Bool
  ended : Bool
  log : List Msg
deriving DecidableEq, Repr

namespace Session

/-- The constructor. -/
def new : Session :=
  { ns := 0, arg := [], reads := 0, writeQueue := [], writing := [], sent := [],
    started := false, ended := false, log := [] }

/-- Started and not ended. -/
def live (s : Session) : Bool := s.started && !s.ended

def selected (s : Session) : Nat := s.ns

def select (n : Nat) (s : Session) : Session := { s with ns := n }

/-- `arg.c_str() + 1`, up to the first NUL. -/
def argument (s : Session) : Bytes := (s.arg.drop 1).takeWhile (· ≠ 0)

/-- `do_write` on a queue that is not empty. -/
def doWrite (libs : Libs) (s : Session) : Session :=
  match s.writeQueue with
  | [] => s
  | m :: _ => { s with writing := s.writing ++ [libs.render m] }

def write (libs : Libs) (m : Msg) (s : Session) : Session :=
  let writeInProgress := !s.writeQueue.isEmpty
  let s := { s with writeQueue := s.writeQueue ++ [m], log := s.log ++ [m] }
  if writeInProgress then s else s.doWrite libs

/-- `async_read_until`. -/
def readRequest (s : Session) : Session := { s with reads := s.reads + 1 }

/-- Bytes of an outstanding write leave. -/
def send (k n : Nat) (s : Session) : Session :=
  match s.writing[k]? with
  | none => s
  | some rest =>
      { s with writing := s.writing.set k (rest.drop n), sent := s.sent ++ rest.take n }

/-- The completion of a write that has nothing left. -/
def wrote (libs : Libs) (k : Nat) (s : Session) : Session :=
  if s.writing[k]? = some [] then
    let s := { s with writing := s.writing.eraseIdx k, writeQueue := s.writeQueue.tail }
    if s.writeQueue.isEmpty then s else s.doWrite libs
  else s

/-- The completion of a write that failed: the queue stays as it is. -/
def dropWrite (k : Nat) (s : Session) : Session := { s with writing := s.writing.eraseIdx k }

end Session

end Nstore

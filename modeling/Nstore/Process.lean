/-
The process, `main` of `server.cpp`.

A signal stops the io thread.  The channels are cleared, and the queues of the writer and
of the readers are worked off before their threads are joined; what a handler posts to
the io thread meanwhile stays where it is.  Then the database is closed, and the next
process opens it again.
-/
import Nstore.Server
import Nstore.Lib.Run

namespace Nstore

open Machine

namespace Server

/-- `channel::clear`. -/
def clear (σ : Server) : Server := { σ with members := fun _ => [] }

/-- A step of a thread other than the io thread. -/
def Event.OffIo : Event → Prop
  | .runWriter _ => True
  | .postWriter => True
  | .runReader _ => True
  | .postReader _ => True
  | _ => False

instance : DecidablePred Event.OffIo := fun e => by
  cases e <;> unfold Event.OffIo <;> infer_instance

/-- `writer_thread.join` can return. -/
def WriterJoined (σ : Server) : Prop := σ.writerQueue = [] ∧ σ.writer = none

/-- So can the `join`s of the readers. -/
def ReadersJoined (σ : Server) : Prop := σ.readerQueue = [] ∧ σ.readers = []

end Server

/-- What happens until the signal, and what the other threads do from there on. -/
structure Life where
  running : List Server.Event
  stopping : List Server.Event
  offIo : ∀ e ∈ stopping, e.OffIo

namespace Life

variable (libs : Libs) (st : Store) (l : Life)

/-- The io thread has stopped. -/
def stopped : Server := (run (Server.step libs) (.init st) l.running).clear

/-- The other threads are where they are joined. -/
def ended : Server := run (Server.step libs) (l.stopped libs st) l.stopping

end Life

/-- The database a process leaves, from the one it finds. -/
def process (libs : Libs) (st : Store) (p : Oracle × Life) : Store :=
  (p.2.ended libs (dbOpen p.1 st)).store

end Nstore

/-
Framing, the read side of `session.cpp`.

The bytes of a client arrive at its socket in chunks.  While a read is outstanding
`async_read_until` moves them to the `data` of the session, as many as it likes at a
time, until `EOL` is in `data`; then it completes, and `std::getline` takes one line
out of `data`.  What follows that line stays there for the next read.

A `Wired` server is a server with the inboxes of its sessions.  It takes the lines of
its `receive` events from them and is otherwise the server.
-/
import Nstore.Server
import Nstore.Lib.Delimited
import Nstore.Lib.Run

namespace Nstore

open Machine

/-- `async_read_until` is done: `EOL` is in the buffer. -/
def hasEol (data : Bytes) : Bool := decide ([13, 10] <:+: data)

/-- `std::getline`: the line, and what is left in the buffer. -/
def getline (data : Bytes) : Bytes × Bytes :=
  (data.takeWhile (· ≠ 10), (data.dropWhile (· ≠ 10)).tail)

/-- What a session has not read yet. -/
structure Inbox where
  /-- Arrived, and not yet taken from the socket. -/
  socket : Bytes
  data : Bytes
deriving DecidableEq, Repr

structure Wired where
  server : Server
  inbox : Nat → Inbox

inductive WireEvent where
  /-- A chunk arrives. -/
  | arrive (s : Nat) (bs : Bytes)
  /-- The outstanding read takes up to `n` bytes. -/
  | readSome (s n : Nat)
  /-- The outstanding read completes. -/
  | complete (s : Nat)
  /-- Anything else. -/
  | other (e : Server.Event)

namespace Wired

def init (st : Store) : Wired :=
  { server := .init st, inbox := fun _ => { socket := [], data := [] } }

/-- A read of the session is outstanding and waits for more. -/
def waits (w : Wired) (s : Nat) : Bool :=
  (w.server.sessions s).reads ≠ 0 && !hasEol (w.inbox s).data

/-- A read of the session is outstanding and has what it waits for. -/
def completes (w : Wired) (s : Nat) : Bool :=
  (w.server.sessions s).reads ≠ 0 && hasEol (w.inbox s).data

/-- What an event is to the server.  A read only fails while it waits. -/
def events (w : Wired) : WireEvent → List Server.Event
  | .arrive _ _ => []
  | .readSome _ _ => []
  | .complete s => if w.completes s then [.receive s (getline (w.inbox s).data).1] else []
  | .other (.receive _ _) => []
  | .other (.readError s) => if w.waits s then [.readError s] else []
  | .other e => [e]

/-- What an event is to the inbox of a session. -/
def inboxAfter (w : Wired) (i : Nat) : WireEvent → Inbox
  | .arrive s bs =>
      if i = s then { w.inbox i with socket := (w.inbox i).socket ++ bs } else w.inbox i
  | .readSome s n =>
      if i = s ∧ w.waits i then
        { socket := (w.inbox i).socket.drop n,
          data := (w.inbox i).data ++ (w.inbox i).socket.take n }
      else w.inbox i
  | .complete s =>
      if i = s ∧ w.completes i then { w.inbox i with data := (getline (w.inbox i).data).2 }
      else w.inbox i
  | .other _ => w.inbox i

def step (libs : Libs) (w : Wired) (e : WireEvent) : Wired :=
  { server := run (Server.step libs) w.server (w.events e), inbox := fun i => w.inboxAfter i e }

/-- What the events of a run were to the server. -/
def serverRun (libs : Libs) (st : Store) (es : List WireEvent) : List Server.Event :=
  record (step libs) events (init st) es

end Wired

/-! ### Streams of requests -/

/-- The bytes an event brings to a session. -/
def WireEvent.bytes (s : Nat) : WireEvent → Bytes
  | .arrive i bs => if s = i then bs else []
  | _ => []

/-- The stream a session receives in a run. -/
def arrived (s : Nat) (es : List WireEvent) : Bytes := es.flatMap (WireEvent.bytes s)

/-- Without one trailing CR. -/
def stripCr (bs : Bytes) : Bytes := if bs.getLast? = some 13 then bs.dropLast else bs

/-- A command and its argument, which nothing looks at if the command is unknown. -/
def Command.withArgument (arg : Bytes) : Command → Command × Bytes
  | .unknown => (.unknown, [])
  | command => (command, arg)

/-- What a handler gets to see of a line: the case of the switch, and the argument. -/
def requestOf (line : Bytes) : Command × Bytes :=
  (Command.ofLine line).withArgument (stripCr { Session.new with arg := line }.argument)

/-- What the segments of a stream ask for: the first byte is the command, the rest its argument. -/
def requestsIn (stream : Bytes) : List (Command × Bytes) :=
  (Delimited.segments 13 10 stream).map fun seg => (Command.ofLine seg).withArgument (seg.drop 1)

end Nstore

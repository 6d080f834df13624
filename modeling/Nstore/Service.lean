/-
What the server is for: a service that takes one request at a time.

The service has a store, a namespace for every session, and for every session the
requests that have arrived and are not served yet.  It serves one request after the
other, the oldest of the session it picks, and nothing happens between.  It knows of
no threads, no queues of tasks and no sockets.
-/
import Nstore.Server

namespace Nstore

/-- A request with its argument parsed. -/
inductive ClientRequest where
  | ping (arg : Bytes)
  | newNamespace (arg : Option Json)
  | select (arg : Option Json)
  | facts (arg : Option Json)
  | transact (arg : Option Json)
  | unknown

namespace ClientRequest

/-- The request a line stands for. -/
def ofLine (libs : Libs) (line : Bytes) : ClientRequest :=
  let arg := { Session.new with arg := line }.argument
  match Command.ofLine line with
  | .ping => .ping arg
  | .newNamespace => .newNamespace (libs.parse arg)
  | .select => .select (libs.parse arg)
  | .facts => .facts (libs.parse arg)
  | .transact => .transact (libs.parse arg)
  | .unknown => .unknown

/-- The message that answers a request, and the store and the namespace it leaves. -/
def answer (sha256 : Bytes → Value) (o : Oracle) (store : Store) (ns : Nat) :
    ClientRequest → Msg × Store × Nat
  | .ping arg => (.echo arg, store, ns)
  | .newNamespace arg => (.reply (handleNamespace o store arg).1, (handleNamespace o store arg).2, ns)
  | .select arg =>
      match handleSelect o store arg with
      | some n => (.reply .ackOk, store, n)
      | none => (.reply .ackErr, store, ns)
  | .facts arg => (.reply (handleFacts o store ns arg), store, ns)
  | .transact arg =>
      (.reply (handleTransact sha256 o store ns arg).1, (handleTransact sha256 o store ns arg).2, ns)
  | .unknown => (.reply .ackErr, store, ns)

end ClientRequest

structure Service where
  store : Store
  /-- The namespace a session has selected. -/
  ns : Nat → Nat
  /-- What has arrived from a session and is not served yet, the oldest first. -/
  backlog : Nat → List ClientRequest
  /-- The answers to the requests of a session. -/
  replies : Nat → List Msg

namespace Service

def init (st : Store) : Service :=
  { store := st, ns := fun _ => 0, backlog := fun _ => [], replies := fun _ => [] }

inductive Input where
  | arrives (s : Nat) (ask : ClientRequest)
  | serves (s : Nat) (o : Oracle)

def arrive (s : Nat) (ask : ClientRequest) (S : Service) : Service :=
  { S with backlog := fun i => if i = s then S.backlog i ++ [ask] else S.backlog i }

/-- Serve the oldest request of a session. -/
def serve (sha256 : Bytes → Value) (o : Oracle) (s : Nat) (S : Service) : Service :=
  match S.backlog s with
  | [] => S
  | ask :: rest =>
      let (m, store, n) := ask.answer sha256 o S.store (S.ns s)
      { store := store
        ns := fun i => if i = s then n else S.ns i
        backlog := fun i => if i = s then rest else S.backlog i
        replies := fun i => if i = s then S.replies i ++ [m] else S.replies i }

def step (sha256 : Bytes → Value) (S : Service) : Input → Service
  | .arrives s ask => S.arrive s ask
  | .serves s o => S.serve sha256 o s

end Service

end Nstore

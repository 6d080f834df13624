/-
The server: `channel.cpp`, the dispatch of `session::read_request`, and the tasks
its threads pass to each other.

One io thread runs the completions of the sockets and the tasks posted to it, one
writer thread runs namespace and transact requests, and readers run the others.
Each of the three services is a queue.  A handler on another thread ends by
posting a task to the io thread; what it has computed and not posted yet is kept
in `writer` or `readers`.

An `Event` is a choice of the scheduler, of the network or of a client.  One that
is not possible in a state leaves it as it is.
-/
import Nstore.Session

namespace Nstore

/-- The cases of the switch on the first byte of a line. -/
inductive Command where
  | ping
  | newNamespace
  | select
  | facts
  | transact
  | unknown
deriving DecidableEq, Repr

def Command.ofLine (line : Bytes) : Command :=
  match line.head? with
  | some 112 => .ping
  | some 110 => .newNamespace
  | some 115 => .select
  | some 102 => .facts
  | some 116 => .transact
  | _ => .unknown

/-- What is posted to the io thread. -/
inductive IoTask where
  /-- Write a reply and read on. -/
  | answer (s : Nat) (r : Reply)
  /-- The completion of `handle_select`. -/
  | selected (s ns : Nat)
  /-- The completion of a committed transaction. -/
  | transacted (s ns : Nat) (tx : Int) (facts : List Fact) (newIds : List (Int × Int))
deriving DecidableEq, Repr

inductive WriterTask where
  | newNamespace (s : Nat)
  | transact (s : Nat)
deriving DecidableEq, Repr

inductive ReaderTask where
  | select (s : Nat)
  | facts (s : Nat)
deriving DecidableEq, Repr

structure Server where
  store : Store
  nextUid : Nat
  sessions : Nat → Session
  members : Nat → List Nat
  ioQueue : List IoTask
  writerQueue : List WriterTask
  readerQueue : List ReaderTask
  writer : Option IoTask
  readers : List IoTask

namespace Server

/-- A server on an opened database. -/
def init (s : Store) : Server :=
  { store := s, nextUid := 0, sessions := fun _ => .new, members := fun _ => [], ioQueue := [],
    writerQueue := [], readerQueue := [], writer := none, readers := [] }

def update (s : Nat) (f : Session → Session) (σ : Server) : Server :=
  { σ with sessions := fun i => if i = s then f (σ.sessions i) else σ.sessions i }

/-! ### Channels -/

def join (ns s : Nat) (σ : Server) : Server :=
  { σ with members := fun c =>
      if c = ns then (if s ∈ σ.members c then σ.members c else σ.members c ++ [s])
      else σ.members c }

def leave (ns s : Nat) (σ : Server) : Server :=
  { σ with members := fun c => if c = ns then (σ.members c).filter (· ≠ s) else σ.members c }

def publish (libs : Libs) (ns sender : Nat) (m : Msg) (σ : Server) : Server :=
  (σ.members ns).foldl (fun σ s => if s ≠ sender then σ.update s (.write libs m) else σ) σ

/-! ### The io thread -/

/-- `session::start` on a new session. -/
def start (σ : Server) : Server :=
  let s := σ.nextUid
  (({ σ with nextUid := s + 1 }).join 0 s).update s fun x => { x with started := true }.readRequest

/-- `session::end`. -/
def endSession (s : Nat) (σ : Server) : Server :=
  (σ.leave (σ.sessions s).ns s).update s fun x => { x with ended := true }

/-- What is done with a request: answered at once, or posted to a handler. -/
def dispatch (libs : Libs) (s : Nat) (c : Command) (σ : Server) : Server :=
  match c with
  | .ping => σ.update s fun x => (x.write libs (.echo x.argument)).readRequest
  | .newNamespace => { σ with writerQueue := σ.writerQueue ++ [.newNamespace s] }
  | .select => { σ with readerQueue := σ.readerQueue ++ [.select s] }
  | .facts => { σ with readerQueue := σ.readerQueue ++ [.facts s] }
  | .transact => { σ with writerQueue := σ.writerQueue ++ [.transact s] }
  | .unknown => σ.update s fun x => (x.write libs (.reply .ackErr)).readRequest

/-- The completion of a read. -/
def receive (libs : Libs) (s : Nat) (line : Bytes) (σ : Server) : Server :=
  if (σ.sessions s).reads = 0 then σ
  else (σ.update s fun x => { x with reads := x.reads - 1, arg := line }).dispatch libs s
    (.ofLine line)

def runIoTask (libs : Libs) (σ : Server) : IoTask → Server
  | .answer s r => σ.update s fun x => (x.write libs (.reply r)).readRequest
  | .selected s ns =>
      (σ.leave ns s).update s fun x => (x.write libs (.reply .ackOk)).readRequest
  | .transacted s ns tx facts newIds =>
      let σ := σ.update s (.write libs (.reply (.response tx facts newIds)))
      let σ := σ.publish libs ns s (.event tx facts)
      σ.update s .readRequest

/-! ### The other threads -/

/-- A handler of the writer thread: the store it leaves and what it posts. -/
def runWriterTask (libs : Libs) (o : Oracle) (σ : Server) : WriterTask → Store × IoTask
  | .newNamespace s =>
      let (r, store) := handleNamespace o σ.store (libs.parse (σ.sessions s).argument)
      (store, .answer s r)
  | .transact s =>
      let ns := (σ.sessions s).selected
      match handleTransact libs.sha256 o σ.store ns (libs.parse (σ.sessions s).argument) with
      | (.response tx facts newIds, store) => (store, .transacted s ns tx facts newIds)
      | (r, store) => (store, .answer s r)

/-- A handler of a reader: what it will post. -/
def runReaderTask (libs : Libs) (o : Oracle) (σ : Server) : ReaderTask → IoTask
  | .select s =>
      match handleSelect o σ.store (libs.parse (σ.sessions s).argument) with
      | some ns => .selected s ns
      | none => .answer s .ackErr
  | .facts s =>
      .answer s (handleFacts o σ.store (σ.sessions s).selected (libs.parse (σ.sessions s).argument))

/-- A reader posts; `self->select(ns)` comes right before. -/
def postReader (σ : Server) : IoTask → Server
  | .selected s ns => { σ.update s (.select ns) with ioQueue := σ.ioQueue ++ [.selected s ns] }
  | t => { σ with ioQueue := σ.ioQueue ++ [t] }

/-! ### Steps -/

inductive Event where
  | accept
  | receive (s : Nat) (line : Bytes)
  | readError (s : Nat)
  | send (s k n : Nat)
  | wrote (s k : Nat)
  | writeError (s k : Nat)
  | runIo
  | runWriter (o : Oracle)
  | postWriter
  | runReader (o : Oracle)
  | postReader (k : Nat)

def step (libs : Libs) (σ : Server) : Event → Server
  | .accept => σ.start
  | .receive s line => σ.receive libs s line
  | .readError s =>
      if (σ.sessions s).reads = 0 then σ
      else (σ.update s fun x => { x with reads := x.reads - 1 }).endSession s
  | .send s k n => σ.update s (.send k n)
  | .wrote s k => σ.update s (.wrote libs k)
  | .writeError s k =>
      if ((σ.sessions s).writing[k]?).isNone then σ
      else (σ.update s (.dropWrite k)).endSession s
  | .runIo =>
      match σ.ioQueue with
      | [] => σ
      | t :: rest => ({ σ with ioQueue := rest }).runIoTask libs t
  | .runWriter o =>
      match σ.writer, σ.writerQueue with
      | none, t :: rest =>
          let (store, post) := σ.runWriterTask libs o t
          { σ with store := store, writerQueue := rest, writer := some post }
      | _, _ => σ
  | .postWriter =>
      match σ.writer with
      | none => σ
      | some t => { σ with ioQueue := σ.ioQueue ++ [t], writer := none }
  | .runReader o =>
      match σ.readerQueue with
      | [] => σ
      | t :: rest => { σ with readerQueue := rest, readers := σ.readers ++ [σ.runReaderTask libs o t] }
  | .postReader k =>
      match σ.readers[k]? with
      | none => σ
      | some t => { σ with readers := σ.readers.eraseIdx k }.postReader t

end Server

end Nstore

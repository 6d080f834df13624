/-
Requests, and runs of them.

The writer thread takes one request at a time: it begins a write transaction,
commits it or drops it, and answers.  So a run of the database is a list of
requests served one after the other from the store that `db::open` leaves.  Facts
requests are served on reader threads, from a committed store, and change nothing.

Each request comes with its oracle, which says what may go wrong in it.
-/
import Nstore.Handler
import Nstore.Lib.Run

namespace Nstore

/-- A command with its parsed argument, and the namespace its session has selected. -/
inductive Request where
  | newNamespace (arg : Option Json)
  | transact (ns : Nat) (arg : Option Json)
  | facts (ns : Nat) (arg : Option Json)

def serve (sha256 : Bytes → Value) (o : Oracle) (s : Store) : Request → Reply × Store
  | .newNamespace arg => handleNamespace o s arg
  | .transact ns arg => handleTransact sha256 o s ns arg
  | .facts ns arg => (handleFacts o s ns arg, s)

/-- A request and what goes wrong in it. -/
abbrev Input := Oracle × Request

/-- The requests to create a namespace. -/
def Request.creates (n : Nat) : Request → Bool
  | .newNamespace (some (.int64 m)) => toNamespace m.toInt = n
  | _ => false

/-- The requests on a namespace. -/
def Request.on (n : Nat) : Request → Bool
  | .newNamespace arg => (Request.newNamespace arg).creates n
  | .transact ns _ => ns = n
  | .facts ns _ => ns = n

/-- The store after a request. -/
def step (sha256 : Bytes → Value) (s : Store) (i : Input) : Store := (serve sha256 i.1 s i.2).2

/-- The reply to a request. -/
def reply (sha256 : Bytes → Value) (s : Store) (i : Input) : Reply := (serve sha256 i.1 s i.2).1

/-- `db::open`: what `setup` returns is not looked at. -/
def dbOpen (o : Oracle) (s : Store) : Store := (setup o s 0).2

/-- A transaction on a namespace that was committed. -/
def isCommit (sha256 : Bytes → Value) (n : Nat) (s : Store) (i : Input) : Bool :=
  match i.2, reply sha256 s i with
  | .transact ns _, .response _ _ _ => ns = n
  | _, _ => false

/-- The number of transactions a run commits on a namespace. -/
def commits (sha256 : Bytes → Value) (n : Nat) : Store → List Input → Nat
  | _, [] => 0
  | s, i :: is => (if isCommit sha256 n s i then 1 else 0) + commits sha256 n (step sha256 s i) is

/-! ### The range of the numbers -/

/-- An integer argument lies in [-2^29, 2^29). -/
def Json.InRange : Json → Prop
  | .int64 i => -2 ^ 29 ≤ i.toInt ∧ i.toInt < 2 ^ 29
  | _ => True

instance : DecidablePred Json.InRange
  | .int64 _ => inferInstanceAs (Decidable (_ ∧ _))
  | .null | .bool _ | .number | .string _ | .array _ | .object => isTrue trivial

/-- A length that, where LMDB takes it for write flags, does not change what is stored. -/
def HarmlessFlags (n : Nat) : Prop :=
  n ≠ mdbCurrent ∧ n ≠ mdbCurrent + mdbNoSpill ∧ hasFlag n mdbReserve = false

instance (n : Nat) : Decidable (HarmlessFlags n) := inferInstanceAs (Decidable (_ ∧ _ ∧ _))

/--
A string that is stored as it is, if it is stored: `cursor_put_padded` passes its
length as flags only if it is long and needs no padding.  Of the lengths over 32 that are
multiples of 8, this leaves out 64, 64 + 0x8000 and those with the bit 0x10000.
-/
def Json.StoredAsIs : Json → Prop
  | .string s => s.length ≤ 32 ∨ s.length % 8 ≠ 0 ∨ HarmlessFlags s.length
  | _ => True

instance : DecidablePred Json.StoredAsIs
  | .string _ => inferInstanceAs (Decidable (_ ∨ _ ∨ _))
  | .null | .bool _ | .int64 _ | .number | .array _ | .object => isTrue trivial

/--
An element of a transaction with its numbers in range, and with no string whose length,
taken for write flags, changes what is stored.
-/
def Json.FactInRange : Json → Prop
  | .array [je, ja, jv, _] => je.InRange ∧ ja.InRange ∧ jv.InRange ∧ jv.StoredAsIs
  | _ => True

instance : DecidablePred Json.FactInRange
  | .array [_, _, _, _] => inferInstanceAs (Decidable (_ ∧ _ ∧ _ ∧ _))
  | .array [] | .array [_] | .array [_, _] | .array [_, _, _] | .array (_ :: _ :: _ :: _ :: _ :: _)
  | .null | .bool _ | .int64 _ | .number | .string _ | .object => isTrue trivial

/-- An element whose value, if it is a string, is put without its length as flags. -/
def Json.FactPlain : Json → Prop
  | .array [_, _, .string s, _] => s.length ≤ 32 ∨ s.length % 8 ≠ 0
  | _ => True

/-- A namespace whose difference from any other fits in 32 bits. -/
def NsInRange (ns : Nat) : Prop := ns < 2 ^ 31

/-- No call of `setup` fails. -/
def Oracle.SetupFaultless (o : Oracle) : Prop :=
  (∀ i, o.fails (.setupMeta i) = false) ∧ (∀ i, o.fails (.setupPut i) = false) ∧
    o.fails .cursorOpen = false

theorem Oracle.Faultless.setup {o : Oracle} (h : o.Faultless) : o.SetupFaultless :=
  ⟨fun _ => h _, fun _ => h _, h _⟩

/-- A counter of a namespace has not passed 2^29. -/
def CounterInRange (s : Store) (ns : Nat) (id : Int) : Prop :=
  ∀ x, getMeta s ns id = some x → x ≤ 2 ^ 29

/--
A request whose namespace and numbers are in range, after which the counters it
advances, hence every id it gives out and every transaction it stores, still are.  Its
strings are all stored as they are, and a namespace is set up without a failure.
-/
def InputInRange (sha256 : Bytes → Value) (s : Store) (i : Input) : Prop :=
  match i.2 with
  | .newNamespace arg =>
      i.1.SetupFaultless ∧ ∀ m, arg = some (.int64 m) → NsInRange (toNamespace m.toInt)
  | .transact ns arg =>
      NsInRange ns ∧ (∀ fs, arg = some (.array fs) → ∀ v ∈ fs, v.FactInRange) ∧
        CounterInRange (step sha256 s i) ns metaTx ∧ CounterInRange (step sha256 s i) ns metaId
  | .facts _ _ => True

end Nstore

import Nstore.Lib.Lex
import Nstore.Lib.OrderedMap
import Nstore.Lib.BatchScan
import Nstore.Lib.Run
import Nstore.Lib.Delimited
import Nstore.Lib.FirstSeen
import Nstore.Key
import Nstore.Db
import Nstore.Handler
import Nstore.Requests
import Nstore.Codec
import Nstore.Proofs.Codec
import Nstore.Proofs.KeyOrder
import Nstore.Proofs.Equality
import Nstore.Proofs.Store
import Nstore.Proofs.Padded
import Nstore.Proofs.Scan
import Nstore.Proofs.Setup
import Nstore.Proofs.Element
import Nstore.Proofs.Transact
import Nstore.Proofs.Sound
import Nstore.Proofs.Keys
import Nstore.Proofs.Typed
import Nstore.Proofs.Frame
import Nstore.Proofs.Snapshot
import Nstore.Proofs.Creation
import Nstore.Proofs.Invariant
import Nstore.Proofs.History
import Nstore.Proofs.AllOrNothing
import Nstore.Proofs.Tempids
import Nstore.Proofs.Fresh
import Nstore.Proofs.Future
import Nstore.Proofs.Refs
import Nstore.Proofs.Release
import Nstore.Proofs.Permutation
import Nstore.Lib.Overwrite
import Nstore.Proofs.Latest
import Nstore.Proofs.Retraction
import Nstore.Proofs.Replica
import Nstore.Proofs.Index
import Nstore.Proofs.LastDatom
import Nstore.Proofs.Unique
import Nstore.Proofs.Holders
import Nstore.Proofs.Schema
import Nstore.Proofs.Query
import Nstore.Proofs.Refusal
import Nstore.Proofs.Isolation
import Nstore.Lib.Handles
import Nstore.Calls
import Nstore.Proofs.Calls
import Nstore.Proofs.Handles
import Nstore.Session
import Nstore.Server
import Nstore.Framing
import Nstore.Proofs.Server
import Nstore.Proofs.Channel
import Nstore.Proofs.Delivery
import Nstore.Proofs.Exchange
import Nstore.Proofs.Framing
import Nstore.Proofs.Selection
import Nstore.Service
import Nstore.Proofs.Service
import Nstore.Proofs.Log
import Nstore.Lib.Decimal
import Nstore.Writer
import Nstore.Proofs.Writer
import Nstore.Reader
import Nstore.Proofs.Reader
import Nstore.Proofs.RoundTrip
import Nstore.Lib.Scanner
import Nstore.Proofs.Trailing
import Nstore.Proofs.Accepted
import Nstore.Proofs.Lifetime
import Nstore.Proofs.Numbers
import Nstore.Proofs.Wire
import Nstore.Process
import Nstore.Proofs.Process
import Nstore.Proofs.Audience
import Nstore.Proofs.Mirror

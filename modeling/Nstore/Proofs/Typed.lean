/-
What the schema decisions read.

`handle_transact` and `handle_facts` compare the integer field of the datoms that
`query_a` returns for `db_unique`, `db_cardinality` and `db_type`.  The string
constructor of `datom` leaves that field unset, and nothing keeps a transaction
from asserting a string for one of these attributes.  As long as none does, every
datom they read is an integer, and no decision depends on what the field held.
-/
import Nstore.Proofs.Keys

namespace Nstore

open Machine

/-! ### Which values are integers -/

/-- The attributes whose values are read as integers. -/
def readAttributes : List Int := [dbType, dbCardinality, dbUnique]

/-- An element that asserts a string for one of them. -/
def Json.assertsString : Json → Bool
  | .array [_, .int64 a, .string _, r] => a.toInt ∈ readAttributes && !retractFlag r
  | _ => false

/-- A key that is an integer if it asserts a value of one of them in the order `query_a` reads. -/
def ReadAsInt (k : CustomKey) : Prop :=
  k.a ∈ readAttributes → k.sort = sortAETV → k.t % 2 ≠ 1 → k.type = .keyInteger

/-- A request that, if it is a transaction and commits, asserts no such string. -/
def InputTyped (sha256 : Bytes → Value) (s : Store) (i : Input) : Prop :=
  ∀ n fs, i.2 = .transact n (some (.array fs)) → isCommit sha256 n s i = true →
    ∀ v ∈ fs, v.assertsString = false

/-- The retraction bit is the parity of the time, whether or not the number overflows. -/
theorem datomT_odd (tx : Int) (retract : Bool) : datomT tx retract % 2 = 1 ↔ retract = true := by
  obtain ⟨_, _, q, hq⟩ := toInt64_cases (2 * tx)
  unfold datomT
  cases retract with
  | true => simp only [if_true, iff_true]; omega
  | false => simp only [Bool.false_eq_true, if_false, iff_false]; omega

/-- An element that asserts no string asks for no such key. -/
theorem writesMeet_readAsInt {sha256 : Bytes → Value} {v : Json} (hv : v.assertsString = false) :
    WritesMeet sha256 ReadAsInt v := by
  intro txn ids ids' w hr sort ha _ ht
  have ha : w.a ∈ readAttributes := ha
  have hretract : w.retract = false := by
    cases hw : w.retract with
    | false => rfl
    | true =>
        have hodd := (datomT_odd txn.tx w.retract).mpr hw
        exact absurd hodd ht
  unfold readElement at hr
  split at hr
  · rename_i e a jv jr
    obtain ⟨⟨e', ids₁⟩, -, hr⟩ := Option.map_eq_some_iff.mp hr
    cases jv with
    | int64 x =>
        simp only [readValue, Prod.mk.injEq, Option.some.injEq] at hr
        obtain ⟨-, rfl⟩ := hr
        rfl
    | string str =>
        simp only [readValue, Prod.mk.injEq, Option.some.injEq] at hr
        obtain ⟨-, rfl⟩ := hr
        have hjr : retractFlag jr = false := hretract
        simp [Json.assertsString, ha, hjr] at hv
    | _ => exact absurd hr (by simp [readValue])
  · exact absurd hr (by simp)

private theorem setupWrites_zero_readAsInt : ∀ x ∈ setupWrites 0,
    x.1.a ∈ readAttributes → x.1.sort = sortAETV → x.1.type = .keyInteger := by
  decide +kernel

theorem setupWrites_readAsInt (n : Nat) : ∀ x ∈ setupWrites n, ReadAsInt x.1 := by
  intro x hx ha hsort _
  obtain ⟨y, hy, rfl⟩ := mem_setupWrites.mp hx
  exact setupWrites_zero_readAsInt y hy ha hsort

/-! ### Runs -/

section Runs

variable {sha256 : Bytes → Value} {s : Store}

theorem readAsInt_plain (q : CustomKey) (h : q.sort = 0) : ReadAsInt q := by
  intro _ hsort
  rw [h] at hsort
  exact absurd hsort (by decide)

theorem readAsInt_step {i : Input} (hs : ∀ q ∈ storedKeys s, ReadAsInt q)
    (hi : InputTyped sha256 s i) : ∀ q ∈ storedKeys (step sha256 s i), ReadAsInt q :=
  storedKeys_step readAsInt_plain setupWrites_readAsInt
    (fun n fs hr hc v hv => writesMeet_readAsInt (hi n fs hr hc v hv)) hs

theorem readAsInt_dbOpen (o : Oracle) : ∀ q ∈ storedKeys (dbOpen o []), ReadAsInt q :=
  storedKeys_setup readAsInt_plain (setupWrites_readAsInt 0) fun _ hq => absurd hq List.not_mem_nil

theorem readAsInt_run {is : List Input} (hs : ∀ q ∈ storedKeys s, ReadAsInt q)
    (his : Along (step sha256) (InputTyped sha256) s is) :
    ∀ q ∈ storedKeys (run (step sha256) s is), ReadAsInt q :=
  Along.invariant (fun s => ∀ q ∈ storedKeys s, ReadAsInt q) (fun _ _ hs hi => readAsInt_step hs hi)
    hs his

/-- Where no key asserts a string, `query_a` returns integers. -/
theorem queryA_readAsInt (hs : ∀ q ∈ storedKeys s, ReadAsInt q) {n : Nat} {tx a : Int}
    (ha : a ∈ readAttributes) : ∀ d ∈ queryA s n tx a, ∃ i, d.v = .int i := by
  intro d hd
  obtain ⟨x, hx, hxa, hxsort, hxt, hv⟩ := mem_queryA hd
  have htype := hs x.1 (mem_storedKeys hx) (hxa ▸ ha) hxsort hxt
  exact ⟨x.1.v.i, by rw [hv, decode, htype]⟩

/-- A set of entities chosen by an integer that is there does not depend on the unset field. -/
theorem chosen_eq {ds : List Datom} (hds : ∀ d ∈ ds, ∃ i, d.v = .int i) (u u' : Int → Int → Int)
    (x : Int) :
    (ds.filter fun d => d.i u = x).map (·.e) = (ds.filter fun d => d.i u' = x).map (·.e) := by
  refine congrArg _ (List.filter_congr fun d hd => ?_)
  obtain ⟨i, hi⟩ := hds d hd
  simp only [Datom.i, hi]

/--
**Schema decisions read integers.**  In every state of every run whose transactions assert
no string for `db_type`, `db_cardinality` or `db_unique`, each datom `query_a` returns for
one of them is an integer, and what a handler decides from them does not depend on the
field the string constructor leaves unset.
-/
theorem run_reads_ints {o : Oracle} {is : List Input}
    (his : Along (step sha256) (InputTyped sha256) (dbOpen o []) is) (n : Nat) (tx : Int) :
    (∀ a ∈ readAttributes, ∀ d ∈ queryA (run (step sha256) (dbOpen o []) is) n tx a,
      ∃ i, d.v = .int i) ∧
    ∀ q q' : Oracle, q.fails = q'.fails →
      uniqueSet q (run (step sha256) (dbOpen o []) is) n tx =
        uniqueSet q' (run (step sha256) (dbOpen o []) is) n tx ∧
      manySet q (run (step sha256) (dbOpen o []) is) n tx =
        manySet q' (run (step sha256) (dbOpen o []) is) n tx := by
  have hs := readAsInt_run (readAsInt_dbOpen o) his
  have hread : ∀ a ∈ readAttributes,
      ∀ d ∈ queryA (run (step sha256) (dbOpen o []) is) n tx a, ∃ i, d.v = .int i := fun a ha =>
    queryA_readAsInt hs ha
  refine ⟨hread, fun q q' hfails => ?_⟩
  have hquery : ∀ a ∈ readAttributes,
      ∀ d ∈ queryOr q (run (step sha256) (dbOpen o []) is) n tx a, ∃ i, d.v = .int i := by
    intro a ha d hd
    unfold queryOr at hd
    split at hd
    · exact absurd hd List.not_mem_nil
    · exact hread a ha d hd
  have hsame : ∀ s a, queryOr q' s n tx a = queryOr q s n tx a := by
    intro s a
    unfold queryOr
    rw [hfails]
  unfold uniqueSet manySet
  rw [hsame, hsame]
  exact ⟨chosen_eq (hquery dbUnique (by decide)) _ _ _,
    chosen_eq (hquery dbCardinality (by decide)) _ _ _⟩

end Runs

/-- An attribute is declared unique, and of cardinality many. -/
def typedRequests : List Input :=
  [(.calm, .transact 0 (some (.array [.array [.int64 50, .int64 4, .int64 10, .int64 0],
    .array [.int64 50, .int64 3, .int64 8, .int64 0]])))]

theorem typedRequests_reads_ints :
    (∀ a ∈ readAttributes, ∀ d ∈ queryA (run (step .ofBytes) (dbOpen .calm []) typedRequests) 0 2 a,
      ∃ i, d.v = .int i) ∧
    ∀ q q' : Oracle, q.fails = q'.fails →
      uniqueSet q (run (step .ofBytes) (dbOpen .calm []) typedRequests) 0 2 =
        uniqueSet q' (run (step .ofBytes) (dbOpen .calm []) typedRequests) 0 2 ∧
      manySet q (run (step .ofBytes) (dbOpen .calm []) typedRequests) 0 2 =
        manySet q' (run (step .ofBytes) (dbOpen .calm []) typedRequests) 0 2 := by
  have his : Along (step .ofBytes) (InputTyped .ofBytes) (dbOpen .calm []) typedRequests := by
    refine ⟨fun n fs hr _ => ?_, trivial⟩
    simp only [Request.transact.injEq, Option.some.injEq, Json.array.injEq] at hr
    obtain ⟨-, rfl⟩ := hr
    simp [Json.assertsString]
  exact run_reads_ints his 0 2

/-- The cardinality of an attribute is given as a string. -/
def untypedRequests : List Input :=
  [(.calm, .transact 0 (some (.array [.array [.int64 50, .int64 3, .string [120], .int64 0]])))]

/-- It is accepted, and what was in the unset field decides whether the attribute is many. -/
theorem untypedRequests_reads_string :
    (∃ d ∈ queryA (run (step .ofBytes) (dbOpen .calm []) untypedRequests) 0 2 dbCardinality,
      d.v = .str [120]) ∧
    50 ∈ manySet { Oracle.calm with uninit := fun _ _ => dbCardinalityMany }
      (run (step .ofBytes) (dbOpen .calm []) untypedRequests) 0 2 ∧
    50 ∉ manySet Oracle.calm (run (step .ofBytes) (dbOpen .calm []) untypedRequests) 0 2 := by
  decide +kernel

end Nstore

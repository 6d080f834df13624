/-
What `query_a` returns, and what it looks at.

The uniqueness, reference and cardinality decisions all rest on one scan: from the
first key of an attribute in the `AETV` order up to the first key that is none.
It returns one datom for each entity and payload whose greatest key up to the
transaction asserts, and the only key of another attribute, namespace or order it
ever looks at is the one that stops it.
-/
import Nstore.Proofs.Schema

namespace Nstore

open BatchScan

/-! ### The keys a loop looks at -/

/-- The keys the cursor loop hands to its visitor, the one it breaks at included. -/
def visited {σ : Type} (visitor : σ → Entry → Option σ) : σ → List Entry → List Entry
  | _, [] => []
  | st, x :: rest =>
      match visitor st x with
      | none => [x]
      | some st => x :: visited visitor st rest

/-- A visitor with a fixed break sees what comes before it, and the key it breaks at. -/
theorem visited_eq {σ : Type} {visitor : σ → Entry → Option σ} {stop : Entry → Bool}
    (hv : ∀ st x, visitor st x = none ↔ stop x = true) :
    ∀ (xs : List Entry) (st : σ), visited visitor st xs =
      (xs.takeWhile fun x => !stop x) ++ (xs.dropWhile fun x => !stop x).take 1 := by
  intro xs
  induction xs with
  | nil => intro st; rfl
  | cons x rest ih =>
      intro st
      cases hx : visitor st x with
      | none =>
          have hstop := (hv st x).mp hx
          simp [visited, hx, hstop]
      | some st' =>
          have hstop : stop x = false := by
            rw [← Bool.not_eq_true, ← hv st x, hx]
            simp
          simp [visited, hx, hstop, ih]

private theorem queryVisit_eq_none {ns : Nat} {tx a : Int} (st : Scan Int Current Datom)
    (x : Entry) :
    queryVisit ns tx a st x = none ↔ (!inAETV ns a x) = true := by
  unfold queryVisit inAETV
  split
  · rename_i h
    simp [h]
  · rename_i h
    split <;> simp [h]

/-- The keys `query_a` looks at. -/
def queryVisited (s : Store) (ns : Nat) (tx a : Int) : List Entry :=
  visited (queryVisit ns (txBound tx) a) ⟨-1, [], []⟩ (mdbSetRange s (queryMinKey ns a))

/-- The greatest `AETV` key of an entity, attribute and payload up to a transaction. -/
structure GreatestA (s : Store) (n : Nat) (tx a e : Int) (p : Value) (x : Entry) : Prop where
  inGroup : InGroupA s n tx e a x
  payload : x.1.v = p
  greatest : ∀ y, InGroupA s n tx e a y → y.1.v = p → customKeyCompare y.1 x.1 ≤ 0

section Query

variable {s : Store} {n : Nat} {tx a : Int}

theorem compare_le_iff {x y : CustomKey} (hx : InRange x) (hy : InRange y) :
    customKeyCompare x y ≤ 0 ↔ x.coords ≤ y.coords := by
  rw [← not_lt, ← not_lt, OrderedMap.Agrees.pos_iff agrees_inRange hx hy]

/-- The keys left of a scan are the greatest of their entity and payload, where these assert. -/
theorem mem_queryKeys_iff (hs : StoreOk s) (h0 : 0 ≤ tx) (h1 : tx < 2 ^ 62) (x : Entry) :
    x ∈ queryKeys (visibleA s n a (txBound tx)) ↔
      GreatestA s n tx a x.1.e x.1.v x ∧ x.1.t % 2 = 0 := by
  rw [mem_queryKeys (visibleA_grouped hs _ _ _) (visibleA_sorted hs _ _ _), mem_visibleA,
    txBound_eq h0 h1]
  constructor
  · rintro ⟨⟨hxs, hxa, hxn, hxsort, hxt⟩, hodd, hmax⟩
    refine ⟨⟨⟨hxs, hxn, hxsort, rfl, hxa, hxt⟩, rfl, fun y hy hv => ?_⟩, by omega⟩
    obtain ⟨hys, hyn, hysort, hye, hya, hyt⟩ := hy
    rw [compare_le_iff (hs.keys y hys) (hs.keys x hxs)]
    exact hmax y (mem_visibleA.mpr ⟨hys, hya, hyn, hysort, hyt⟩) hye hv
  · rintro ⟨⟨⟨hxs, hxn, hxsort, -, hxa, hxt⟩, -, hmax⟩, heven⟩
    refine ⟨⟨hxs, hxa, hxn, hxsort, hxt⟩, by omega, fun y hy hye hv => ?_⟩
    obtain ⟨hys, hya, hyn, hysort, hyt⟩ := mem_visibleA.mp hy
    rw [← compare_le_iff (hs.keys y hys) (hs.keys x hxs)]
    exact hmax y ⟨hys, hyn, hysort, hye, hya, hyt⟩ hv

/-- The loop looks at every key of the attribute, and then at no more than one. -/
theorem queryVisited_eq (hs : StoreOk s) (hpos : Positive s) (hn : n < 2 ^ 31) (tx a : Int) :
    ∃ stop, queryVisited s n tx a = s.filter (inAETV n a) ++ stop ∧ stop.length ≤ 1 := by
  refine ⟨((mdbSetRange s (queryMinKey n a)).dropWhile fun x => !!inAETV n a x).take 1, ?_, ?_⟩
  · rw [← takeWhile_AETV hs hpos hn a, queryVisited, visited_eq queryVisit_eq_none]
    simp only [Bool.not_not]
  · exact List.length_take_le 1 _

/--
**What `query_a` returns.**  In a store in range, one datom for each entity and payload
whose greatest key up to the transaction exists and asserts, with the value that key
decodes to and its transaction, and no other.  The keys it looks at are those of the
attribute, and after them at most one.
-/
theorem queryA_correct (hs : StoreOk s) (hpos : Positive s) (hn : n < 2 ^ 31) (h0 : 0 ≤ tx)
    (h1 : tx < 2 ^ 29) (a : Int) :
    ∃ ks stop : List Entry,
      queryA s n tx a = ks.map (fun x => ⟨x.1.e, a, decode x, x.1.t / 2⟩) ∧
      (∀ x, x ∈ ks ↔ GreatestA s n tx a x.1.e x.1.v x ∧ x.1.t % 2 = 0) ∧
      ks.Pairwise (fun x y => ¬ (x.1.e = y.1.e ∧ x.1.v = y.1.v)) ∧
      queryVisited s n tx a =
        (s.filter fun x => x.1.a = a ∧ x.1.ns = n ∧ x.1.sort = sortAETV) ++ stop ∧
      stop.length ≤ 1 := by
  obtain ⟨stop, hvisited, hstop⟩ := queryVisited_eq hs hpos hn tx a
  have hgrouped := visibleA_grouped hs n a (txBound tx)
  refine ⟨queryKeys (visibleA s n a (txBound tx)), stop, ?_,
    mem_queryKeys_iff hs h0 (by omega), ?_, ?_, hstop⟩
  · rw [queryA_eq hs hpos hn, datomsOf_eq hgrouped]
    rfl
  · refine (queryKeys_pairwise hgrouped).imp ?_
    intro x y hne hc
    exact hne hc.1 hc.2
  · rw [hvisited]
    congr 2
    funext x
    rw [Bool.eq_iff_iff, inAETV_iff, decide_eq_true_eq]

end Query

theorem queryA_correct_dbOpen :
    ∃ ks stop : List Entry,
      queryA (dbOpen .calm []) 0 1 dbType = ks.map (fun x => ⟨x.1.e, dbType, decode x, x.1.t / 2⟩) ∧
      (∀ x, x ∈ ks ↔ GreatestA (dbOpen .calm []) 0 1 dbType x.1.e x.1.v x ∧ x.1.t % 2 = 0) ∧
      ks.Pairwise (fun x y => ¬ (x.1.e = y.1.e ∧ x.1.v = y.1.v)) ∧
      queryVisited (dbOpen .calm []) 0 1 dbType =
        ((dbOpen .calm []).filter fun x =>
          x.1.a = dbType ∧ x.1.ns = 0 ∧ x.1.sort = sortAETV) ++ stop ∧
      stop.length ≤ 1 :=
  queryA_correct (sound_dbOpen .calm).ok (sound_dbOpen .calm).positive (by norm_num) (by norm_num)
    (by norm_num) dbType

end Nstore

/-
Where the keys of a store come from.

The other results about stores need keys in range, where the comparator is an order.
This file says what holds without that: whatever the comparator makes of a key and
whichever calls fail, a put adds the key it is given and no other, and a deletion
adds none.  So a condition on keys that everything written meets is met by every
key of every store.
-/
import Nstore.Proofs.Sound

namespace Nstore

/-- The keys of a store. -/
def storedKeys (s : Store) : List CustomKey := s.map (·.1)

/-! ### The LMDB calls -/

section Calls

variable {s s' : Store} {k q : CustomKey} {d : Item}

theorem mem_storedKeys {x : Entry} (h : x ∈ s) : x.1 ∈ storedKeys s := List.mem_map_of_mem h

theorem storedKeys_mdbPut (h : q ∈ storedKeys (mdbPut s k d)) : q = k ∨ q ∈ storedKeys s := by
  obtain ⟨x, hx, rfl⟩ := List.mem_map.mp h
  rcases OrderedMap.mem_of_mem_put hx with rfl | hx
  · exact Or.inl rfl
  · exact Or.inr (mem_storedKeys hx)

theorem storedKeys_mdbDel (hdel : mdbDel s k = some s') (h : q ∈ storedKeys s') :
    q ∈ storedKeys s :=
  ((OrderedMap.del_sublist hdel).map _).subset h

private theorem storedKeys_putCurrent {mc : CustomKey} (h : q ∈ storedKeys (putCurrent s mc k d)) :
    q = k ∨ q ∈ storedKeys s := by
  obtain ⟨y, hy, rfl⟩ := List.mem_map.mp h
  obtain ⟨x, hx, rfl⟩ := List.mem_map.mp hy
  split
  · dsimp only
    split
    · exact Or.inr (mem_storedKeys hx)
    · exact Or.inl rfl
  · exact Or.inr (mem_storedKeys hx)

private theorem storedKeys_append (h : q ∈ storedKeys (s ++ [(k, d)])) :
    q = k ∨ q ∈ storedKeys s := by
  rw [storedKeys, List.map_append, List.mem_append] at h
  rcases h with h | h
  · exact Or.inr h
  · exact Or.inl (by simpa using h)

/-- Whatever flags a cursor put is given, it adds no key but its own. -/
theorem storedKeys_mdbCursorPut {mc : Cursor} {flags : Nat} {sm : Store × Cursor}
    (hput : mdbCursorPut s mc k d flags = some sm) (h : q ∈ storedKeys sm.1) :
    q = k ∨ q ∈ storedKeys s := by
  rcases mdbCursorPut_cases hput with ⟨c, -, -, hsm, -⟩ | ⟨item, -, -, ⟨-, hsm⟩ | hsm⟩
  · exact storedKeys_putCurrent (hsm ▸ h)
  · exact storedKeys_append (hsm ▸ h)
  · exact storedKeys_mdbPut (hsm ▸ h)

private theorem storedKeys_cursorPutPadded {mc : Cursor} {data : Bytes} {sm : Store × Cursor}
    (hput : cursorPutPadded s mc k data = some sm) (h : q ∈ storedKeys sm.1) :
    q = k ∨ q ∈ storedKeys s := by
  by_cases hneg : k.pad < 0
  · rw [cursorPutPadded_of_neg hneg, Option.some.injEq] at hput
    subst hput
    exact storedKeys_mdbPut h
  · rw [cursorPutPadded_of_nonneg hneg] at hput
    exact storedKeys_mdbCursorPut hput h

end Calls

/-! ### A write -/

section Writes

variable {o : Oracle} {i : Nat} {txn : Txn} {w : Write} {q : CustomKey}

/-- The constraint check adds no key but one of the index, which has no sort order. -/
theorem storedKeys_checkUnique {s s' : Store} {ck : CustomKey} {retract : Bool}
    (hcheck : checkUnique o i txn s ck retract = some s') (h : q ∈ storedKeys s') :
    q.sort = 0 ∨ q ∈ storedKeys s := by
  rcases checkUnique_cases hcheck with ⟨-, rfl⟩ | ⟨-, -, hdel⟩ | ⟨-, -, s₁, hlast, rfl⟩
  · exact Or.inr h
  · exact Or.inr (storedKeys_mdbDel hdel h)
  · rcases storedKeys_mdbPut h with rfl | h
    · exact Or.inl rfl
    · rcases hlast with rfl | ⟨last, -, hdel⟩
      · exact Or.inr h
      · exact Or.inr (storedKeys_mdbDel hdel h)

private theorem storedKeys_putDatom {st sm : Store × Cursor} {k : CustomKey} {data : Bytes}
    (hput : putDatom o i st k data = some sm) (h : q ∈ storedKeys sm.1) :
    (∃ sort, (sort = sortEATV ∨ sort = sortAETV) ∧ q = { k with sort := sort }) ∨
      q ∈ storedKeys st.1 := by
  have hsorted : ∀ {sort : Nat} {st sm : Store × Cursor},
      putSorted o i sort st k data = some sm → q ∈ storedKeys sm.1 →
      q = { k with sort := sort } ∨ q ∈ storedKeys st.1 := by
    intro sort st sm hput h
    unfold putSorted at hput
    split at hput
    · exact absurd hput (by simp)
    · exact storedKeys_cursorPutPadded hput h
  obtain ⟨st₁, h1, h2⟩ := Option.bind_eq_some_iff.mp hput
  have hfirst : q ∈ storedKeys st₁.1 → _ := fun h => (hsorted h1 h).imp (fun h =>
    (⟨sortEATV, Or.inl rfl, h⟩ : ∃ sort, (sort = sortEATV ∨ sort = sortAETV) ∧
      q = { k with sort := sort })) id
  split at h2
  · rcases hsorted h2 h with h | h
    · exact Or.inl ⟨sortAETV, Or.inr rfl, h⟩
    · exact hfirst h
  · rw [Option.some.injEq] at h2
    exact hfirst (h2 ▸ h)

/-- **What a write adds**: keys of the index, and its datom in the two orders. -/
theorem storedKeys_insertWrite {st st' : TxnState} (hins : insertWrite o i txn st w = some st')
    (h : q ∈ storedKeys st'.store) :
    q.sort = 0 ∨ (∃ sort, (sort = sortEATV ∨ sort = sortAETV) ∧ q = w.key txn sort) ∨
      q ∈ storedKeys st.store := by
  obtain ⟨s₁, sm, hcheck, hput, rfl⟩ := insertWrite_inv hins
  rcases storedKeys_putDatom hput h with h | h
  · exact Or.inr (Or.inl h)
  · exact (storedKeys_checkUnique hcheck h).imp id Or.inr

end Writes

/-! ### Counters and index entries

A counter is found among the counters, and a write leaves these as they are: a key of
another type never compares equal to one, and a cursor that writes where it stands is
at a datom.  The same goes for the entries of the unique index, except for what the
constraint check does to them.
-/

/-- The entries of a store that are of one type. -/
def ofType (t : KeyType) (s : Store) : Store := s.filter fun x => x.1.type = t

section OfType

variable {t : KeyType} (ht : t.code < KeyType.keyMinSentinel.code)
  {s s' : Store} {k : CustomKey} {d : Item}

theorem getMeta_ofType (s : Store) (n : Nat) (id : Int) :
    getMeta (ofType .keyMeta s) n id = getMeta s n id := by
  unfold getMeta mdbGet OrderedMap.find? ofType
  rw [List.find?_filter]
  congr 3
  funext x
  rw [Bool.eq_iff_iff]
  simp only [decide_eq_true_eq, beq_iff_eq, and_iff_right_iff_imp]
  exact fun h => ((compare_metaKey x.1).mp h).2.1

include ht

theorem type_ne_of_compare {y : CustomKey} (hk : k.type ≠ t) (h : customKeyCompare k y = 0) :
    y.type ≠ t := by
  intro hy
  exact hk ((type_of_compare (Or.inr (hy ▸ ht)) h).1.symm.trans hy)

theorem ofType_mdbPut (hk : k.type ≠ t) : ∀ s, ofType t (mdbPut s k d) = ofType t s := by
  intro s
  unfold mdbPut ofType
  induction s with
  | nil => simp [OrderedMap.put, hk]
  | cons x rest ih =>
      rw [OrderedMap.put]
      split
      · simp [hk]
      · split
        · rename_i hx
          simp [hk, type_ne_of_compare ht hk hx]
        · simp only [List.filter_cons, ih]

theorem ofType_mdbDel (hk : k.type ≠ t) :
    ∀ {s s' : Store}, mdbDel s k = some s' → ofType t s' = ofType t s := by
  intro s
  unfold mdbDel ofType
  induction s with
  | nil => intro s' h; exact absurd h (by simp [OrderedMap.del])
  | cons x rest ih =>
      intro s' h
      rw [OrderedMap.del] at h
      split at h
      · rename_i hx
        rw [Option.some.injEq] at h
        simp [← h, type_ne_of_compare ht hk hx]
      · obtain ⟨s₁, h1, rfl⟩ := Option.map_eq_some_iff.mp h
        simp only [List.filter_cons, ih h1]

omit ht in
private theorem ofType_putCurrent {mc : CustomKey} (hk : k.type ≠ t) (hmc : mc.type ≠ t) :
    ofType t (putCurrent s mc k d) = ofType t s := by
  unfold putCurrent ofType
  induction s with
  | nil => rfl
  | cons x rest ih =>
      rw [List.map_cons, List.filter_cons, List.filter_cons, ih]
      by_cases hx : x.1 = mc
      · have hxt : x.1.type ≠ t := hx ▸ hmc
        have hnew : (if d.overwrites x.2 then x.1 else k).type ≠ t := by
          split
          · exact hxt
          · exact hk
        rw [if_pos hx, if_neg (by simpa using hnew), if_neg (by simpa using hxt)]
      · rw [if_neg hx]

/-- A cursor that is not at an entry of the type. -/
def Cursor.Off (t : KeyType) (mc : Cursor) : Prop := ∀ c ∈ mc, c.type ≠ t

/-- A change of store and cursor that leaves the entries of the type as they are. -/
def Keeps (t : KeyType) (s : Store) (sm : Store × Cursor) : Prop :=
  ofType t sm.1 = ofType t s ∧ Cursor.Off t sm.2

omit ht in
theorem off_some (hk : k.type ≠ t) : Cursor.Off t (some k) := by
  intro c hc
  rw [Option.mem_def, Option.some.injEq] at hc
  exact hc ▸ hk

theorem keeps_mdbPut (hk : k.type ≠ t) : Keeps t s (mdbPut s k d, some k) :=
  ⟨ofType_mdbPut ht hk s, off_some hk⟩

private theorem keeps_mdbCursorPut {mc : Cursor} {flags : Nat} {sm : Store × Cursor}
    (hk : k.type ≠ t) (hmc : mc.Off t) (h : mdbCursorPut s mc k d flags = some sm) :
    Keeps t s sm := by
  rcases mdbCursorPut_cases h with ⟨c, hc, -, hs, hcur⟩ | ⟨item, -, hcur, ⟨-, hs⟩ | hs⟩
  · have hct := hmc c hc
    refine ⟨hs ▸ ofType_putCurrent hk hct, ?_⟩
    rcases hcur with hcur | hcur
    · exact hcur ▸ off_some hct
    · exact hcur ▸ off_some hk
  · exact ⟨by simp [hs, ofType, hk], hcur ▸ off_some hk⟩
  · exact ⟨hs ▸ ofType_mdbPut ht hk s, hcur ▸ off_some hk⟩

private theorem keeps_cursorPutPadded {mc : Cursor} {data : Bytes} {sm : Store × Cursor}
    (hk : k.type ≠ t) (hmc : mc.Off t) (h : cursorPutPadded s mc k data = some sm) :
    Keeps t s sm := by
  by_cases hneg : k.pad < 0
  · rw [cursorPutPadded_of_neg hneg, Option.some.injEq] at h
    subst h
    exact keeps_mdbPut ht hk
  · rw [cursorPutPadded_of_nonneg hneg] at h
    exact keeps_mdbCursorPut ht hk hmc h

theorem keeps_putSorted {o : Oracle} {i sort : Nat} {st sm : Store × Cursor} {data : Bytes}
    (hk : k.type ≠ t) (hmc : Cursor.Off t st.2)
    (h : putSorted o i sort st k data = some sm) : Keeps t st.1 sm := by
  have hsort : ({ k with sort := sort } : CustomKey).type ≠ t := hk
  unfold putSorted at h
  split at h
  · cases h
  · exact keeps_cursorPutPadded ht hsort hmc h

private theorem keeps_putDatom {o : Oracle} {i : Nat} {st sm : Store × Cursor} {data : Bytes}
    (hk : k.type ≠ t) (hmc : Cursor.Off t st.2) (h : putDatom o i st k data = some sm) :
    Keeps t st.1 sm := by
  obtain ⟨st₁, h1, h2⟩ := Option.bind_eq_some_iff.mp h
  have hfirst := keeps_putSorted ht hk hmc h1
  split at h2
  · have hsecond := keeps_putSorted ht hk hfirst.2 h2
    exact ⟨hsecond.1.trans hfirst.1, hsecond.2⟩
  · rw [Option.some.injEq] at h2
    exact h2 ▸ hfirst

private theorem ofType_checkUnique {o : Oracle} {i : Nat} {txn : Txn} {ck : CustomKey}
    {retract : Bool} (hu : KeyType.keyUnique ≠ t) (h : checkUnique o i txn s ck retract = some s') :
    ofType t s' = ofType t s := by
  have hunique : ∀ k, (uniqueKey txn.ns k).type ≠ t := fun _ => hu
  rcases checkUnique_cases h with ⟨-, rfl⟩ | ⟨-, -, hdel⟩ | ⟨-, -, s₁, hlast, rfl⟩
  · rfl
  · exact ofType_mdbDel ht (hunique _) hdel
  · rw [ofType_mdbPut ht (hunique _)]
    rcases hlast with rfl | ⟨last, -, hdel⟩
    · rfl
    · exact ofType_mdbDel ht (hunique _) hdel

theorem readElement_type {sha256 : Bytes → Value} {eRef : List Int} {ids ids' : Ids} {v : Json}
    {w : Write} (hr : readElement sha256 eRef ids v = some (ids', some w)) : w.enc.type ≠ t := by
  have hne : ¬ KeyType.keyInteger.code < KeyType.keyMinSentinel.code ∧
      ¬ KeyType.keyBlob.code < KeyType.keyMinSentinel.code := by decide
  unfold readElement at hr
  split at hr
  · rename_i e a jv jr
    obtain ⟨⟨e', ids₁⟩, -, hr⟩ := Option.map_eq_some_iff.mp hr
    cases jv with
    | int64 x =>
        simp only [readValue, Prod.mk.injEq, Option.some.injEq] at hr
        obtain ⟨-, rfl⟩ := hr
        rintro rfl
        exact hne.1 ht
    | string str =>
        simp only [readValue, Prod.mk.injEq, Option.some.injEq] at hr
        obtain ⟨-, rfl⟩ := hr
        rw [encodeStr_type]
        rintro rfl
        exact hne.2 ht
    | _ => exact absurd hr (by simp [readValue])
  · exact absurd hr (by simp)

/-- What an insertion does to index entries is done by the check. -/
theorem insertWrite_keeps {o : Oracle} {i : Nat} {txn : Txn} {w : Write} {st st' : TxnState}
    (hw : w.enc.type ≠ t) (hmc : st.mc.Off t) (h : insertWrite o i txn st w = some st') :
    ∃ s₁, checkUnique o i txn st.store (w.key txn sortEATV) w.retract = some s₁ ∧
      Keeps t s₁ (st'.store, st'.mc) := by
  obtain ⟨s₁, sm, hcheck, hput, rfl⟩ := insertWrite_inv h
  exact ⟨s₁, hcheck, keeps_putDatom ht (k := datomKey txn w.e w.a w.enc w.retract) hw hmc hput⟩

/-- The cursor of a transaction stays off index entries. -/
theorem off_transactLoop {sha256 : Bytes → Value} {o : Oracle} {txn : Txn} :
    ∀ {vs : List Json} {i : Nat} {st st' : TxnState}, st.mc.Off t →
      transactLoop sha256 o txn i st vs = some st' → st'.mc.Off t := by
  intro vs
  induction vs with
  | nil =>
      intro i st st' hmc h
      rw [transactLoop, Option.some.injEq] at h
      exact h ▸ hmc
  | cons v rest ih =>
      intro i st st' hmc h
      rw [transactLoop, Option.bind_eq_some_iff] at h
      obtain ⟨st₁, h1, h2⟩ := h
      refine ih ?_ h2
      obtain ⟨ids, ⟨-, rfl⟩ | ⟨w, hr, hw⟩⟩ := transactFact_cases h1
      · exact hmc
      · obtain ⟨s₁, -, hkeeps⟩ := insertWrite_keeps ht (readElement_type ht hr) (by exact hmc) hw
        exact hkeeps.2

private theorem ofType_transactLoop {sha256 : Bytes → Value} {o : Oracle} {txn : Txn}
    (hu : KeyType.keyUnique ≠ t) :
    ∀ {vs : List Json} {i : Nat} {st st' : TxnState}, st.mc.Off t →
      transactLoop sha256 o txn i st vs = some st' → ofType t st'.store = ofType t st.store := by
  intro vs
  induction vs with
  | nil =>
      intro i st st' hmc h
      rw [transactLoop, Option.some.injEq] at h
      rw [h]
  | cons v rest ih =>
      intro i st st' hmc h
      rw [transactLoop, Option.bind_eq_some_iff] at h
      obtain ⟨st₁, h1, h2⟩ := h
      obtain ⟨ids, ⟨-, rfl⟩ | ⟨w, hr, hw⟩⟩ := transactFact_cases h1
      · rw [ih (by exact hmc) h2]
      · obtain ⟨s₁, hcheck, hkeeps⟩ :=
          insertWrite_keeps ht (readElement_type ht hr) (by exact hmc) hw
        rw [ih hkeeps.2 h2, hkeeps.1, ofType_checkUnique ht hu hcheck]

omit ht in
theorem off_beginState (s : Store) (id : Int) : (beginState s id).mc.Off t :=
  fun c hc => absurd hc (by simp [beginState])

end OfType

/-- **The loop of a transaction leaves every counter as it was.** -/
theorem getMeta_transactLoop {sha256 : Bytes → Value} {o : Oracle} {txn : Txn} {vs : List Json}
    {s : Store} {id : Int} {st : TxnState}
    (h : transactLoop sha256 o txn 0 (beginState s id) vs = some st) (n : Nat) (c : Int) :
    getMeta st.store n c = getMeta s n c := by
  rw [← getMeta_ofType st.store, ofType_transactLoop (by decide) (by decide) (off_beginState s id) h,
    getMeta_ofType]
  rfl

/-- A commit leaves the counters of other namespaces as they were. -/
theorem getMeta_commitStore_ne {n m : Nat} {tx c : Int} {st : TxnState} (hn : n < 2 ^ 32)
    (hm : m < 2 ^ 32) (hne : n ≠ m) (hc : 0 ≤ c ∧ c < 5) :
    getMeta (commitStore m tx st) n c = getMeta st.store n c := by
  unfold commitStore
  rw [getMeta_putMeta_ne hm hn (by decide) hc (Or.inl hne),
    getMeta_putMeta_ne hm hn (by decide) hc (Or.inl hne)]

/-! ### Loops and steps -/

section Steps

variable {sha256 : Bytes → Value} {P : CustomKey → Prop}

/-- Every datom key an element can ask for meets the condition, whatever ids it is read with. -/
def WritesMeet (sha256 : Bytes → Value) (P : CustomKey → Prop) (v : Json) : Prop :=
  ∀ (txn : Txn) (ids ids' : Ids) (w : Write), readElement sha256 txn.eRef ids v = some (ids', some w) →
    ∀ sort, P (w.key txn sort)

private theorem storedKeys_transactLoop {o : Oracle} {txn : Txn} (hplain : ∀ q, q.sort = 0 → P q) :
    ∀ {vs : List Json} {i : Nat} {st st' : TxnState}, (∀ v ∈ vs, WritesMeet sha256 P v) →
      (∀ q ∈ storedKeys st.store, P q) → transactLoop sha256 o txn i st vs = some st' →
      ∀ q ∈ storedKeys st'.store, P q := by
  intro vs
  induction vs with
  | nil =>
      intro i st st' _ hst h
      rw [transactLoop, Option.some.injEq] at h
      exact h ▸ hst
  | cons v rest ih =>
      intro i st st' hvs hst h
      rw [transactLoop, Option.bind_eq_some_iff] at h
      obtain ⟨st₁, h1, h2⟩ := h
      refine ih (fun x hx => hvs x (by simp [hx])) ?_ h2
      obtain ⟨ids, ⟨-, rfl⟩ | ⟨w, hr, hw⟩⟩ := transactFact_cases h1
      · exact hst
      · intro q hq
        rcases storedKeys_insertWrite hw hq with hq | ⟨sort, -, rfl⟩ | hq
        · exact hplain q hq
        · exact hvs v (by simp) txn _ _ w hr sort
        · exact hst q hq

/-- The commit adds no key but the counters'. -/
theorem storedKeys_commitStore {n : Nat} {tx : Int} {st : TxnState} {q : CustomKey}
    (h : q ∈ storedKeys (commitStore n tx st)) : q.sort = 0 ∨ q ∈ storedKeys st.store := by
  rcases storedKeys_mdbPut h with rfl | h
  · exact Or.inl rfl
  · rcases storedKeys_mdbPut h with rfl | h
    · exact Or.inl rfl
    · exact Or.inr h

theorem storedKeys_setup {o : Oracle} {s : Store} {n : Nat} (hplain : ∀ q, q.sort = 0 → P q)
    (hbase : ∀ x ∈ setupWrites n, P x.1) (hs : ∀ q ∈ storedKeys s, P q) :
    ∀ q ∈ storedKeys (setup o s n).2, P q := by
  intro q hq
  cases hex : nsExists s n with
  | true =>
      rw [setup, if_pos hex] at hq
      exact hs q hq
  | false =>
      obtain ⟨ys, hys, hputs, -⟩ := setup_puts o s n hex
      rw [hputs] at hq
      obtain ⟨x, hx, rfl⟩ := List.mem_map.mp hq
      rcases OrderedMap.mem_of_mem_puts hx with hx | hx
      · exact hs _ (mem_storedKeys hx)
      · rcases List.mem_append.mp (hys.subset hx) with hx | hx
        · obtain ⟨m, -, rfl⟩ := List.mem_map.mp hx
          exact hplain _ rfl
        · exact hbase x hx

/-- A transaction is refused and changes nothing, or answers with a response and commits. -/
theorem step_transact_cases (sha256 : Bytes → Value) (o : Oracle) (s : Store) (n : Nat)
    (arg : Option Json) :
    (step sha256 s (o, .transact n arg) = s ∧ reply sha256 s (o, .transact n arg) = .ackErr) ∨
    ∃ fs tx facts newIds, arg = some (.array fs) ∧
      transact sha256 o s n fs =
        some (.response tx facts newIds, step sha256 s (o, .transact n arg)) ∧
      reply sha256 s (o, .transact n arg) = .response tx facts newIds := by
  rcases handleTransact_cases sha256 o s n arg with h | ⟨fs, p, rfl, -, htr, h⟩
  · exact Or.inl ⟨congrArg Prod.snd h, congrArg Prod.fst h⟩
  · have hstep : step sha256 s (o, .transact n (some (.array fs))) = p.2 := congrArg Prod.snd h
    have hrep : reply sha256 s (o, .transact n (some (.array fs))) = p.1 := congrArg Prod.fst h
    obtain ⟨tx, id, st, -, -, -, -, hr⟩ := transact_cases htr
    refine Or.inr ⟨fs, tx, st.newFacts, st.ids.newIds, rfl, ?_, hrep.trans hr⟩
    rw [htr, hstep, ← hr]

/-- A request answered with a response is a transaction that has committed. -/
theorem response_transact {s : Store} {i : Input} {n : Nat} {arg : Option Json} {tx : Int}
    {facts : List Fact} {newIds : List (Int × Int)} (hreq : i.2 = .transact n arg)
    (hrep : reply sha256 s i = .response tx facts newIds) :
    ∃ fs, arg = some (.array fs) ∧
      transact sha256 i.1 s n fs = some (.response tx facts newIds, step sha256 s i) := by
  obtain ⟨o, r⟩ := i
  have hreq : r = .transact n arg := hreq
  subst hreq
  rcases step_transact_cases sha256 o s n arg with ⟨-, h⟩ | ⟨fs, tx', facts', newIds', harg, htr, h⟩
  · exact absurd (h.symm.trans hrep) (by simp)
  · rw [← h, hrep] at htr
    exact ⟨fs, harg, htr⟩

/-- **What everything written meets, every key of the next store meets.** -/
theorem storedKeys_step {s : Store} {i : Input} (hplain : ∀ q, q.sort = 0 → P q)
    (hbase : ∀ n, ∀ x ∈ setupWrites n, P x.1)
    (hwrites : ∀ n fs, i.2 = .transact n (some (.array fs)) → isCommit sha256 n s i = true →
      ∀ v ∈ fs, WritesMeet sha256 P v)
    (hs : ∀ q ∈ storedKeys s, P q) : ∀ q ∈ storedKeys (step sha256 s i), P q := by
  obtain ⟨o, r⟩ := i
  cases r with
  | newNamespace arg =>
      rcases step_newNamespace_cases sha256 o s arg with h | ⟨m, -, h⟩
      · rw [h]
        exact hs
      · rw [h]
        exact storedKeys_setup hplain (hbase _) hs
  | transact n arg =>
      rcases step_transact_cases sha256 o s n arg with ⟨h, -⟩ | ⟨fs, tx, facts, newIds, rfl, htr, hrep⟩
      · rw [h]
        exact hs
      · have hcommit : isCommit sha256 n s (o, .transact n (some (.array fs))) = true := by
          simp only [isCommit, hrep, decide_true]
        obtain ⟨tx', id, st, -, -, hloop, hs', -⟩ := transact_cases htr
        rw [hs']
        intro q hq
        rcases storedKeys_commitStore hq with hq | hq
        · exact hplain q hq
        · exact storedKeys_transactLoop hplain (hwrites n fs rfl hcommit) hs hloop q hq
  | facts n arg => exact hs

/-- A request on a namespace that `namespace_t` can hold. -/
def InputNs (i : Input) : Prop := ∀ n arg, i.2 = .transact n arg → n < 2 ^ 32

/--
**What a request does to the counters of a namespace that exists**: it commits a
transaction there, or leaves them as they were.
-/
theorem step_counters {s : Store} {i : Input} (hi : InputNs i) {n : Nat} (hn : n < 2 ^ 32)
    (hex : nsExists s n = true) (hc : isCommit sha256 n s i = false) {c : Int}
    (hrange : 0 ≤ c ∧ c < 5) : getMeta (step sha256 s i) n c = getMeta s n c := by
  obtain ⟨o, r⟩ := i
  cases r with
  | newNamespace arg =>
      rcases step_newNamespace_cases sha256 o s arg with h | ⟨m, -, h⟩
      · rw [h]
      · rw [h, getMeta_setup_of_exists hn (toNamespace_lt _) hrange hex]
  | transact m arg =>
      rcases step_transact_cases sha256 o s m arg with ⟨h, -⟩ | ⟨fs, tx, facts, newIds, rfl, htr, hrep⟩
      · rw [h]
      · have hne : n ≠ m := by
          rintro rfl
          simp only [isCommit, hrep, decide_true, reduceCtorEq] at hc
        obtain ⟨tx', id, st, -, -, hloop, hs', -⟩ := transact_cases htr
        rw [hs', getMeta_commitStore_ne hn (hi m _ rfl) hne hrange, getMeta_transactLoop hloop]
  | facts m arg => rfl

end Steps

end Nstore

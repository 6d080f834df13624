/-
Namespaces do not interfere.

What a request on a namespace reads and writes are keys of that namespace, so two
stores that agree on them give the same reply and agree on them afterwards; a
request on another namespace does not touch them.

The one exception is `last_datom`, which looks for a key beyond its group and
misses the group if there is none: whether there is one may depend on other
namespaces.  `FindsLast` says that it is not asked for such a group.
-/
import Nstore.Proofs.AllOrNothing
import Nstore.Proofs.History
import Nstore.Proofs.Index

namespace Nstore

open Machine

/-! ### Stores that agree on a namespace -/

/-- Two stores with the same keys and items of a namespace. -/
structure Alike (n : Nat) (s s' : Store) : Prop where
  ok : StoreOk s
  ok' : StoreOk s'
  same : ∀ x : Entry, x.1.ns = n → (x ∈ s' ↔ x ∈ s)

section Alike

variable {n : Nat} {s s' s₁ : Store} {k : CustomKey} {d : Item}

theorem Alike.symm (h : Alike n s s') : Alike n s' s :=
  ⟨h.ok', h.ok, fun x hx => (h.same x hx).symm⟩

theorem Alike.trans_left (h : Alike n s s') (hok : StoreOk s₁)
    (hs : ∀ x : Entry, x.1.ns = n → (x ∈ s₁ ↔ x ∈ s)) : Alike n s₁ s' :=
  ⟨hok, h.ok', fun x hx => (h.same x hx).trans (hs x hx).symm⟩

theorem Alike.put (h : Alike n s s') (hk : InRange k) : Alike n (mdbPut s k d) (mdbPut s' k d) := by
  refine ⟨mdbPut_ok h.ok hk, mdbPut_ok h.ok' hk, fun x hx => ?_⟩
  rw [mem_mdbPut h.ok hk, mem_mdbPut h.ok' hk, h.same x hx]

theorem Alike.get (h : Alike n s s') (hk : InRange k) (hn : k.ns = n) :
    mdbGet s' k = mdbGet s k := by
  refine Option.ext fun d => ?_
  rw [mdbGet_eq_some h.ok hk, mdbGet_eq_some h.ok' hk]
  have hns : ∀ k' : CustomKey, k'.coords = k.coords → k'.ns = n := fun k' hc =>
    (coords_family hc).1.trans hn
  constructor
  · rintro ⟨k', hk', hc⟩
    exact ⟨k', (h.same _ (hns k' hc)).mp hk', hc⟩
  · rintro ⟨k', hk', hc⟩
    exact ⟨k', (h.same _ (hns k' hc)).mpr hk', hc⟩

theorem Alike.del (h : Alike n s s') (hk : InRange k) (hn : k.ns = n) :
    Option.Rel (Alike n) (mdbDel s k) (mdbDel s' k) := by
  have hget := h.get hk hn
  have h1 := mdbDel_isSome h.ok hk
  have h2 := mdbDel_isSome h.ok' hk
  rw [hget, ← h1] at h2
  cases hd : mdbDel s k with
  | none =>
      cases hd' : mdbDel s' k with
      | none => exact .none
      | some t' => rw [hd, hd'] at h2; exact absurd h2 (by simp)
  | some t =>
      cases hd' : mdbDel s' k with
      | none => rw [hd, hd'] at h2; exact absurd h2 (by simp)
      | some t' =>
          refine .some ⟨mdbDel_ok h.ok hd, mdbDel_ok h.ok' hd', fun x hx => ?_⟩
          rw [mem_mdbDel h.ok hk hd, mem_mdbDel h.ok' hk hd', h.same x hx]

theorem Alike.counter (h : Alike n s s') (hn : n < 2 ^ 31) {id : Int} (hid : 0 ≤ id ∧ id < 5) :
    getMeta s' n id = getMeta s n id :=
  getMeta_congr h.ok h.ok' hn hid fun x hx _ => h.same x hx

theorem Alike.live (h : Alike n s s') (hn : n < 2 ^ 31) : nsExists s' n = nsExists s n := by
  unfold nsExists
  rw [h.counter hn (by decide)]

theorem Alike.samePast (h : Alike n s s') (tx : Int) : SamePast n tx s s' := fun x _ hx _ =>
  h.same x hx

theorem Alike.seen (h : Alike n s s') (a bound : Int) :
    visibleA s' n a bound = visibleA s n a bound := by
  refine ((h.ok'.filter _).filter _).ext ((h.ok.filter _).filter _) fun x => ?_
  show x ∈ visibleA s' n a _ ↔ x ∈ visibleA s n a _
  rw [mem_visibleA, mem_visibleA]
  constructor
  · rintro ⟨hx, ha, hn, h'⟩
    exact ⟨(h.same x hn).mp hx, ha, hn, h'⟩
  · rintro ⟨hx, ha, hn, h'⟩
    exact ⟨(h.same x hn).mpr hx, ha, hn, h'⟩

theorem Alike.query (h : Alike n s s') (hpos : Positive s) (hpos' : Positive s')
    (hn : n < 2 ^ 31) (tx a : Int) :
    queryA s' n tx a = queryA s n tx a := by
  rw [queryA_eq h.ok hpos hn, queryA_eq h.ok' hpos' hn, h.seen]

/-- The schema a transaction reads. -/
theorem Alike.schema {o o' : Oracle} (h : Alike n s s') (ho : o.Faultless) (ho' : o'.Faultless)
    (hpos : Positive s) (hpos' : Positive s') (hn : n < 2 ^ 31) (hint : SchemaInt s n dbUnique)
    (tx : Int) : beginTxn o' s' n tx = beginTxn o s n tx := by
  have hquery : ∀ a : Int, queryOr o' s' n tx a = queryOr o s n tx a := by
    intro a
    unfold queryOr
    rw [ho, ho', h.query hpos hpos' hn]
  have hunique : uniqueSet o' s' n tx = uniqueSet o s n tx := by
    unfold uniqueSet
    rw [hquery]
    refine congrArg _ (List.filter_congr fun d hd => ?_)
    unfold queryOr at hd
    rw [ho, if_neg (by simp)] at hd
    obtain ⟨i, hi⟩ := queryA_int h.ok hpos hn hint tx d hd
    simp only [Datom.i, hi]
  unfold beginTxn refSet
  rw [hunique, hquery]

theorem Alike.last (h : Alike n s s') (hk : Searchable k) (hn : k.ns = n)
    (hbase : ∀ x ∈ setupWrites n, x.1.IsDatom → x ∈ s)
    (hf : ∀ x ∈ s, SameGroup k x → BeyondGroup s x)
    (hf' : ∀ x ∈ s', SameGroup k x → BeyondGroup s' x) : lastDatom s' k = lastDatom s k := by
  have hbase' : ∀ x ∈ setupWrites n, x.1.IsDatom → x ∈ s' := by
    intro x hx hd
    obtain ⟨y, -, rfl⟩ := mem_setupWrites.mp hx
    exact (h.same _ rfl).mpr (hbase _ hx hd)
  refine Option.ext fun last => ?_
  rw [lastDatom_iff h.ok (hn ▸ hbase) hk, lastDatom_iff h.ok' (hn ▸ hbase') hk]
  constructor
  · rintro ⟨d, hmem, hg, hlast, -⟩
    have hmem := (h.same _ (hg.2.1.trans hn)).mp hmem
    refine ⟨d, hmem, hg, fun y hy hy' => ?_, hf _ hmem hg⟩
    exact hlast y ((h.same y (hy'.2.1.trans (hg.2.1.trans hn))).mpr hy) hy'
  · rintro ⟨d, hmem, hg, hlast, -⟩
    have hmem := (h.same _ (hg.2.1.trans hn)).mpr hmem
    refine ⟨d, hmem, hg, fun y hy hy' => ?_, hf' _ hmem hg⟩
    exact hlast y ((h.same y (hy'.2.1.trans (hg.2.1.trans hn))).mp hy) hy'

end Alike

/-! ### Insertions -/

/-- `last_datom` is only asked for a group that has a key beyond it. -/
def FindsLast (txn : Txn) (s : Store) (w : Write) : Prop :=
  w.a ∈ txn.eUnique → w.retract = false →
    mdbGet s (uniqueKey txn.ns (w.key txn sortEATV)) = none →
    ∀ x ∈ s, SameGroup (w.key txn sortEATV) x → BeyondGroup s x

section Insertion

variable {sha256 : Bytes → Value} {o o' : Oracle} {txn : Txn} {w : Write} {s s' : Store} {i : Nat}

theorem Alike.check (ho : o.Faultless) (ho' : o'.Faultless) (htx : txn.Ok) (hw : w.Ok sha256)
    (h : Alike txn.ns s s') (hbase : ∀ x ∈ setupWrites txn.ns, x.1.IsDatom → x ∈ s)
    (hf : FindsLast txn s w) (hf' : FindsLast txn s' w) :
    Option.Rel (Alike txn.ns) (checkUnique o i txn s (w.key txn sortEATV) w.retract)
      (checkUnique o' i txn s' (w.key txn sortEATV) w.retract) := by
  have huk : ∀ {k : CustomKey}, k.a = w.a → InRange (uniqueKey txn.ns k) := fun hk =>
    uniqueKey_inRange htx.ns_lt (by rw [hk]; exact hw.a_range)
  unfold checkUnique removeLast
  by_cases ha : w.a ∈ txn.eUnique
  · have hget := h.get (huk (k := w.key txn sortEATV) rfl) rfl
    have hnot : ¬ (w.key txn sortEATV).a ∉ txn.eUnique := not_not.mpr ha
    simp only [ho _, ho' _, if_neg hnot, Bool.false_eq_true, if_false]
    cases hr : w.retract with
    | true =>
        simp only [if_true]
        exact h.del (huk rfl) rfl
    | false =>
        simp only [Bool.false_eq_true, if_false, hget]
        cases hg : mdbGet s (uniqueKey txn.ns (w.key txn sortEATV)) with
        | some d =>
            simp only
            split
            · exact .none
            · exact .some (h.put (huk rfl))
        | none =>
            rw [h.last (Write.searchable htx hw) rfl hbase (hf ha hr hg)
              (hf' ha hr (hget.trans hg))]
            cases hl : lastDatom s (w.key txn sortEATV) with
            | none => exact .some (h.put (huk rfl))
            | some last =>
                have hdel := h.del (huk (k := last) (lastDatom_fields hl).2.1) rfl
                simp only
                generalize mdbDel s (uniqueKey txn.ns last) = d at hdel ⊢
                generalize mdbDel s' (uniqueKey txn.ns last) = d' at hdel ⊢
                cases hdel with
                | none => exact .none
                | some h₁ => exact .some (h₁.put (huk rfl))
  · have hnot : (w.key txn sortEATV).a ∉ txn.eUnique := ha
    rw [if_pos hnot, if_pos hnot]
    exact .some h

theorem Alike.putBoth (htx : txn.Ok) (hw : w.Ok sha256) (h : Alike txn.ns s s') :
    Alike txn.ns (putBoth s (datomKey txn w.e w.a w.enc w.retract) w.enc.item)
      (putBoth s' (datomKey txn w.e w.a w.enc w.retract) w.enc.item) := by
  have hE := h.put (d := w.enc.item) (Write.key_inRange htx hw (Or.inl rfl))
  rw [putBoth_eq, putBoth_eq]
  split
  · exact hE.put (Write.key_inRange htx hw (Or.inr rfl))
  · exact hE

/-- Two transactions that have done the same so far. -/
structure Sim (txn : Txn) (st st' : TxnState) : Prop where
  alike : Alike txn.ns st.store st'.store
  based : ∀ x ∈ setupWrites txn.ns, x.1.IsDatom → x ∈ st.store
  ids : st'.ids = st.ids
  newFacts : st'.newFacts = st.newFacts

theorem Sim.insertWrite {st st' : TxnState} (ho : o.Faultless) (ho' : o'.Faultless) (htx : txn.Ok)
    (hw : w.Ok sha256) (hp : w.enc.Plain) (h : Sim txn st st') (hf : FindsLast txn st.store w)
    (hf' : FindsLast txn st'.store w) :
    Option.Rel (Sim txn) (insertWrite o i txn st w) (insertWrite o' i txn st' w) := by
  have hcheck := h.alike.check (i := i) ho ho' htx hw h.based hf hf'
  obtain ⟨hnone, hsome⟩ := insertWrite_plain ho hp i txn st
  obtain ⟨hnone', hsome'⟩ := insertWrite_plain ho' hp i txn st'
  cases hc : checkUnique o i txn st.store (w.key txn sortEATV) w.retract with
  | none =>
      cases hc' : checkUnique o' i txn st'.store (w.key txn sortEATV) w.retract with
      | none => rw [hnone hc, hnone' hc']; exact .none
      | some s₁' => rw [hc, hc'] at hcheck; exact absurd hcheck (by rintro ⟨⟩)
  | some s₁ =>
      cases hc' : checkUnique o' i txn st'.store (w.key txn sortEATV) w.retract with
      | none => rw [hc, hc'] at hcheck; exact absurd hcheck (by rintro ⟨⟩)
      | some s₁' =>
          rw [hc, hc'] at hcheck
          obtain ⟨h₁⟩ := hcheck
          obtain ⟨mc, hins⟩ := hsome s₁ hc
          obtain ⟨mc', hins'⟩ := hsome' s₁' hc'
          have hframe := (insertWrite_inserted htx hw h.alike.ok hins).frame htx hw
          rw [hins, hins']
          refine .some ⟨h₁.putBoth htx hw, fun x hx hd => ?_, h.ids, by rw [h.newFacts]⟩
          exact (hframe.base x hd (setupWrites_datom hx hd).2.1).mpr (h.based x hx hd)

end Insertion

/-! ### The loop -/

section Loop

variable {sha256 : Bytes → Value} {o o' : Oracle} {txn : Txn}

theorem Sim.transactFact {i : Nat} {st st' : TxnState} {v : Json} (ho : o.Faultless)
    (ho' : o'.Faultless) (htx : txn.Ok) (hv : v.FactInRange) (hp : v.FactPlain) (hids : st.ids.Ok)
    (hbound : st.ids.id + 2 ≤ 2 ^ 29) (h : Sim txn st st')
    (hf : ∀ ids w, readElement sha256 txn.eRef st.ids v = some (ids, some w) →
      FindsLast txn st.store w)
    (hf' : ∀ ids w, readElement sha256 txn.eRef st'.ids v = some (ids, some w) →
      FindsLast txn st'.store w) :
    Option.Rel (Sim txn) (transactFact sha256 o i txn st v) (transactFact sha256 o' i txn st' v) := by
  rw [transactFact_eq, transactFact_eq, h.ids]
  rw [h.ids] at hf'
  cases hr : readElement sha256 txn.eRef st.ids v with
  | none => exact .none
  | some p =>
      obtain ⟨ids, w⟩ := p
      have hle := (readElement_answers hr txn.tx).2.1
      cases w with
      | none => exact .some ⟨h.alike, h.based, rfl, h.newFacts⟩
      | some w =>
          have hw := (readElement_spec hids hr).2.2 hv (by omega) w rfl
          have hsim : Sim txn { st with ids := ids } { st' with ids := ids } :=
            ⟨h.alike, h.based, rfl, h.newFacts⟩
          exact hsim.insertWrite ho ho' htx hw (readElement_plain hp hr) (hf ids w hr) (hf' ids w hr)

/-- **Two transactions on stores that agree do the same.** -/
theorem Sim.transactLoop (ho : o.Faultless) (ho' : o'.Faultless) (htx : txn.Ok) :
    ∀ {vs : List Json} {i : Nat} {st st' : TxnState}, (∀ v ∈ vs, v.FactInRange) →
      (∀ v ∈ vs, v.FactPlain) → st.ids.Ok → st.ids.id + 2 * vs.length ≤ 2 ^ 29 → Sim txn st st' →
      LoopMeets sha256 o txn (FindsLast txn) i st vs →
      LoopMeets sha256 o' txn (FindsLast txn) i st' vs →
      Option.Rel (Sim txn) (transactLoop sha256 o txn i st vs) (transactLoop sha256 o' txn i st' vs) := by
  intro vs
  induction vs with
  | nil => intro i st st' _ _ _ _ h _ _; exact .some h
  | cons v rest ih =>
      intro i st st' hv hp hids hbound h hf hf'
      rw [List.length_cons] at hbound
      push_cast at hbound
      have hfact := h.transactFact ho ho' htx (hv v (by simp)) (hp v (by simp)) hids (by omega)
        hf.1 hf'.1 (i := i)
      rw [Nstore.transactLoop, Nstore.transactLoop]
      cases h1 : Nstore.transactFact sha256 o i txn st v with
      | none =>
          cases h1' : Nstore.transactFact sha256 o' i txn st' v with
          | none => exact .none
          | some st₁' => rw [h1, h1'] at hfact; exact absurd hfact (by rintro ⟨⟩)
      | some st₁ =>
          cases h1' : Nstore.transactFact sha256 o' i txn st' v with
          | none => rw [h1, h1'] at hfact; exact absurd hfact (by rintro ⟨⟩)
          | some st₁' =>
              rw [h1, h1'] at hfact
              obtain ⟨h₁⟩ := hfact
              have hle := transactFact_ids_le h1
              exact ih (fun x hx => hv x (by simp [hx])) (fun x hx => hp x (by simp [hx]))
                (transactFact_ids hids h1).1 (by omega) h₁ (hf.2 st₁ h1) (hf'.2 st₁' h1')

end Loop

/-! ### Requests -/

section Requests

variable {sha256 : Bytes → Value} {o o' : Oracle} {n : Nat} {s s' : Store}

theorem Alike.commitStore {txn : Txn} {tx : Int} {st st' : TxnState} (hn : txn.ns < 2 ^ 31)
    (h : Sim txn st st') : Alike txn.ns (commitStore txn.ns tx st) (commitStore txn.ns tx st') := by
  unfold Nstore.commitStore putMeta
  rw [h.ids]
  exact (h.alike.put (metaKey_inRange hn (by decide) (by decide))).put
    (metaKey_inRange hn (by decide) (by decide))

/-- A transaction for which `last_datom` is only asked for groups that it finds. -/
def TransactFinds (sha256 : Bytes → Value) (o : Oracle) (s : Store) (n : Nat) (facts : List Json) :
    Prop :=
  ∀ tx id, getMeta s n metaTx = some tx → getMeta s n metaId = some id →
    LoopMeets sha256 o (beginTxn o s n tx) (FindsLast (beginTxn o s n tx)) 0 (beginState s id) facts

theorem Alike.transact {facts : List Json} (ho : o.Faultless) (ho' : o'.Faultless)
    (hr : RepInv sha256 s) (hr' : RepInv sha256 s') (h : Alike n s s') (hn : n < 2 ^ 31)
    (hex : nsExists s n = true) (hint : SchemaInt s n dbUnique)
    (hroom : Ready s n facts.length) (hv : ∀ v ∈ facts, v.FactInRange)
    (hp : ∀ v ∈ facts, v.FactPlain) (hf : TransactFinds sha256 o s n facts)
    (hf' : TransactFinds sha256 o' s' n facts) :
    Option.Rel (fun p p' => p'.1 = p.1 ∧ Alike n p.2 p'.2) (transact sha256 o s n facts)
      (transact sha256 o' s' n facts) := by
  obtain ⟨tx, htx⟩ := Option.isSome_iff_exists.mp hex
  obtain ⟨x, hx, hxn, -⟩ := hr.exists_eatv hn hex
  obtain ⟨-, id, -, hid⟩ := hr.known x hx
  rw [hxn] at hid
  have htx' : getMeta s' n metaTx = some tx := (h.counter hn (by decide)).trans htx
  have hid' : getMeta s' n metaId = some id := (h.counter hn (by decide)).trans hid
  have hschema := h.schema ho ho' hr.positive hr'.positive hn hint tx
  have hf' := hf' tx id htx' hid'
  rw [transact_faultless ho htx hid, transact_faultless ho' htx' hid']
  rw [hschema] at hf' ⊢
  have hsim : Sim (beginTxn o s n tx) (beginState s id) (beginState s' id) :=
    ⟨h, hr.based n hn hex, rfl, rfl⟩
  have hloop := Sim.transactLoop ho ho' ⟨hn, hroom.tx_range tx htx⟩ hv hp
    (beginState_ids_ok hr.sound hn hid) (hroom.id_range id hid).2 hsim (hf tx id htx hid) hf'
  generalize transactLoop sha256 o (beginTxn o s n tx) 0 (beginState s id) facts = r at hloop ⊢
  generalize transactLoop sha256 o' (beginTxn o s n tx) 0 (beginState s' id) facts = r' at hloop ⊢
  cases hloop with
  | none => exact .none
  | some h₁ => exact .some ⟨by simp only [h₁.ids, h₁.newFacts], Alike.commitStore hn h₁⟩

theorem Alike.facts (ho : o.Faultless) (ho' : o'.Faultless) (hr : RepInv sha256 s)
    (hr' : RepInv sha256 s') (h : Alike n s s') (hn : n < 2 ^ 31) (hex : nsExists s n = true)
    (hint : SchemaInt s n dbCardinality) (arg : Option Json) :
    handleFacts o' s' n arg = handleFacts o s n arg := by
  have hex' : nsExists s' n = true := (h.live hn).trans hex
  have hat : ∀ tx, 0 ≤ tx → handleFactsAt o' s' n tx = handleFactsAt o s n tx := fun tx h0 =>
    (h.samePast tx).handleFactsAt_eq_of_faultless hr.sound hr'.sound hn h0 ho ho' hint
      (iff_of_false (hr'.setRange_ne_nil hn hex') (hr.setRange_ne_nil hn hex))
  obtain ⟨tx, htx⟩ := Option.isSome_iff_exists.mp hex
  have htx' : getMeta s' n metaTx = some tx := (h.counter hn (by decide)).trans htx
  have hpos := (hr.tx_range n tx hn htx).1
  unfold handleFacts
  split
  · rename_i i
    simp only [ho _, ho' _, Bool.false_eq_true, if_false, htx, htx']
    split
    · exact hat tx (by omega)
    · exact hat i.toInt (by omega)
  · rfl

theorem Alike.setup (ho : o.SetupFaultless) (ho' : o'.SetupFaultless) (hr : RepInv sha256 s)
    (hr' : RepInv sha256 s') (h : Alike n s s') (hn : n < 2 ^ 31) :
    Alike n (setup o s n).2 (setup o' s' n).2 := by
  have hlive := h.live hn
  rw [setup_eq ho, setup_eq ho', hlive]
  split
  · exact h
  · rename_i hex
    have hex : nsExists s n = false := by simpa using hex
    refine ⟨OrderedMap.puts_ok agrees_inRange (setupEntries_inRange hn) hr.ok,
      OrderedMap.puts_ok agrees_inRange (setupEntries_inRange hn) hr'.ok, fun x hx => ?_⟩
    rw [mem_puts_setup hr.ok hn (hr.fresh hex), mem_puts_setup hr'.ok hn (hr'.fresh (hlive.trans hex)),
      h.same x hx]

end Requests

/-! ### Runs -/

/-- What a request on the namespace must do for its reply not to depend on others. -/
structure OwnStep (sha256 : Bytes → Value) (n : Nat) (s : Store) (i : Input) : Prop where
  faultless : i.1.Faultless
  live : (∀ arg, i.2 ≠ .newNamespace arg) → nsExists s n = true
  unique : SchemaInt s n dbUnique
  cardinality : SchemaInt s n dbCardinality
  room : ∀ facts, i.2 = .transact n (some (.array facts)) → Ready s n facts.length
  plain : ∀ facts, i.2 = .transact n (some (.array facts)) → ∀ v ∈ facts, v.FactPlain
  finds : ∀ facts, i.2 = .transact n (some (.array facts)) → TransactFinds sha256 i.1 s n facts

/-- A request in range that, if it is on the namespace, behaves. -/
def IsolatedStep (sha256 : Bytes → Value) (n : Nat) (s : Store) (i : Input) : Prop :=
  InputInRange sha256 s i ∧ (i.2.on n = true → OwnStep sha256 n s i)

/-- Two stores of runs that agree on a namespace. -/
structure BothInv (sha256 : Bytes → Value) (n : Nat) (s s' : Store) : Prop where
  left : RepInv sha256 s
  right : RepInv sha256 s'
  alike : Alike n s s'

section Runs

variable {sha256 : Bytes → Value} {n : Nat} {s s' : Store}

/-- **A request on the namespace is answered alike by stores that agree on it.** -/
theorem BothInv.step {i j : Input} (hn : n < 2 ^ 31) (h : BothInv sha256 n s s')
    (hi : IsolatedStep sha256 n s i) (hj : IsolatedStep sha256 n s' j) (hon : i.2.on n = true)
    (hreq : i.2 = j.2) :
    reply sha256 s i = reply sha256 s' j ∧ BothInv sha256 n (step sha256 s i) (step sha256 s' j) := by
  have hsteps : RepInv sha256 (Nstore.step sha256 s i) ∧ RepInv sha256 (Nstore.step sha256 s' j) :=
    ⟨repInv_step h.left hi.1, repInv_step h.right hj.1⟩
  have hown := hi.2 hon
  have hown' := hj.2 (hreq ▸ hon)
  suffices hboth : reply sha256 s i = reply sha256 s' j ∧
      Alike n (Nstore.step sha256 s i) (Nstore.step sha256 s' j) from
    ⟨hboth.1, hsteps.1, hsteps.2, hboth.2⟩
  obtain ⟨o, q⟩ := i
  obtain ⟨o', q'⟩ := j
  simp only at hreq
  subst hreq
  have ho := hown.faultless
  have ho' := hown'.faultless
  cases q with
  | newNamespace arg =>
      cases arg with
      | none => exact absurd hon (by simp [Request.on, Request.creates])
      | some j =>
          cases j with
          | int64 m =>
              have hm : toNamespace m.toInt = n := by simpa [Request.on, Request.creates] using hon
              have hserve : ∀ {o : Oracle} (s : Store), o.Faultless →
                  serve sha256 o s (.newNamespace (some (.int64 m))) = (.ackOk, (setup o s n).2) := by
                intro o s ho
                simp only [serve, handleNamespace, ho _, Bool.false_eq_true, if_false, hm]
              unfold reply Nstore.step
              rw [hserve s ho, hserve s' ho']
              exact ⟨rfl, h.alike.setup ho.setup ho'.setup h.left h.right hn⟩
          | _ => exact absurd hon (by simp [Request.on, Request.creates])
  | transact m arg =>
      have hm : m = n := by simpa [Request.on] using hon
      subst hm
      unfold reply Nstore.step serve handleTransact
      cases arg with
      | none => exact ⟨rfl, h.alike⟩
      | some j =>
          cases j with
          | array facts =>
              have htr := h.alike.transact ho ho' h.left h.right hn
                (hown.live fun _ hc => Request.noConfusion hc) hown.unique (hown.room facts rfl)
                (hi.1.2.1 facts rfl) (hown.plain facts rfl) (hown.finds facts rfl)
                (hown'.finds facts rfl)
              simp only
              split
              · exact ⟨rfl, h.alike⟩
              · generalize transact sha256 o s m facts = r at htr ⊢
                generalize transact sha256 o' s' m facts = r' at htr ⊢
                cases htr with
                | none => exact ⟨rfl, h.alike⟩
                | some h₁ => exact ⟨h₁.1.symm, h₁.2⟩
          | _ => exact ⟨rfl, h.alike⟩
  | facts m arg =>
      have hm : m = n := by simpa [Request.on] using hon
      subst hm
      refine ⟨?_, h.alike⟩
      exact (h.alike.facts ho ho' h.left h.right hn (hown.live fun _ hc => Request.noConfusion hc)
        hown.cardinality arg).symm

/--
**Namespaces do not interfere.**  Two runs with the same requests on a namespace,
and any others, give the same replies to them.
-/
theorem replies_eq {o o' : Oracle} (ho : o.SetupFaultless) (ho' : o'.SetupFaultless)
    (hn : n < 2 ^ 31) {is js : List Input}
    (his : Along (Nstore.step sha256) (IsolatedStep sha256 n) (dbOpen o []) is)
    (hjs : Along (Nstore.step sha256) (IsolatedStep sha256 n) (dbOpen o' []) js)
    (hreq : (is.filter fun i => i.2.on n).map Prod.snd = (js.filter fun i => i.2.on n).map Prod.snd) :
    outputs (Nstore.step sha256) (reply sha256) (fun i => i.2.on n) (dbOpen o []) is =
      outputs (Nstore.step sha256) (reply sha256) (fun i => i.2.on n) (dbOpen o' []) js := by
  have hopen : BothInv sha256 n (dbOpen o []) (dbOpen o' []) := by
    have hr : RepInv sha256 (dbOpen o []) := repInv_dbOpen ho
    have heq : dbOpen o' [] = dbOpen o [] := by
      unfold dbOpen
      rw [setup_eq ho, setup_eq ho']
    rw [heq]
    exact ⟨hr, hr, hr.ok, hr.ok, fun _ _ => Iff.rfl⟩
  have hskip : ∀ (s t : Store) (i : Input), BothInv sha256 n s t → IsolatedStep sha256 n s i →
      i.2.on n = false → BothInv sha256 n (Nstore.step sha256 s i) t := by
    intro s t i h hi hown
    have hr := repInv_step h.left hi.1
    exact ⟨hr, h.right, h.alike.trans_left hr.ok fun x hx =>
      mem_step_foreign h.left.sound hi.1.bounded hown x hx⟩
  have hmatch : ∀ (s t : Store) (i j : Input), BothInv sha256 n s t → IsolatedStep sha256 n s i →
      IsolatedStep sha256 n t j → i.2.on n = true → j.2.on n = true → i.2 = j.2 →
      reply sha256 s i = reply sha256 t j ∧
        BothInv sha256 n (Nstore.step sha256 s i) (Nstore.step sha256 t j) :=
    fun s t i j h hi hj hon _ hreq => h.step hn hi hj hon hreq
  exact outputs_eq Prod.snd (BothInv sha256 n)
    (fun s t h => ⟨h.right, h.left, h.alike.symm⟩) hskip hmatch hopen his hjs hreq

end Runs

/-- A transaction on a new database does not look for a last datom. -/
theorem ownStep_sample {s : Store} (hr : RepInv .ofBytes s)
    (hnew : (getMeta s 0 metaTx = some 1 ∧ getMeta s 0 metaId = some 11) ∧
      (∀ x ∈ s, x.1.ns = 0 → x.1.IsDatom → x.1.a ≠ dbIdent → x.1.type = .keyInteger) ∧
      100 ∉ uniqueSet .calm s 0 1) :
    OwnStep .ofBytes 0 s
      (.calm, .transact 0 (some (.array [.array [.int64 (-1), .int64 100, .int64 5, .int64 0]]))) := by
  obtain ⟨hget, hint, hunique⟩ := hnew
  refine ⟨Oracle.calm_faultless, fun _ => by simp [nsExists, hget.1], fun x hx hn hd ha => ?_,
    fun x hx hn hd ha => ?_, fun facts hfacts => ?_, fun facts hfacts v hv => ?_,
    fun facts hfacts tx id htx hid => ?_⟩
  · exact hint x hx hn hd (by rw [ha]; decide)
  · exact hint x hx hn hd (by rw [ha]; decide)
  · cases hfacts
    refine ⟨hr.ok, by norm_num, fun tx htx => ?_, fun id hid => ?_⟩
    · cases hget.1.symm.trans htx
      norm_num
    · cases hget.2.symm.trans hid
      simp [dbInitialId]
  · cases hfacts
    rw [List.mem_singleton.mp hv]
    trivial
  · cases hfacts
    cases hget.1.symm.trans htx
    refine ⟨fun ids w hw ha => ?_, fun _ _ => trivial⟩
    have h1 : (-1 : Int64).toInt < 0 := by decide
    simp only [readElement, resolveEntity, if_pos h1, Option.map_some, readValue,
      Option.some.injEq, Prod.mk.injEq] at hw
    rw [← hw.2] at ha
    exact absurd ha hunique

/-- The sample run, and its requests on namespace 0 alone. -/
theorem replies_eq_sample :
    outputs (step .ofBytes) (reply .ofBytes) (fun i => i.2.on 0) (dbOpen .calm []) sampleRun =
      outputs (step .ofBytes) (reply .ofBytes) (fun i => i.2.on 0) (dbOpen .calm [])
        (sampleRun.drop 1) := by
  have hopen : RepInv .ofBytes (dbOpen .calm []) := repInv_dbOpen Oracle.calm_faultless.setup
  obtain ⟨hrange, hrange', -⟩ := sampleRun_along
  refine replies_eq Oracle.calm_faultless.setup Oracle.calm_faultless.setup (by norm_num)
    ⟨⟨hrange, fun hon => absurd hon (by decide)⟩, ⟨hrange', fun _ => ?_⟩, trivial⟩
    ⟨⟨?_, fun _ => ?_⟩, trivial⟩ rfl
  · exact ownStep_sample (repInv_step hopen hrange) (by decide +kernel)
  · have hget : getMeta (run (step .ofBytes) (dbOpen .calm []) (sampleRun.drop 1)) 0 metaTx = some 2 ∧
        getMeta (run (step .ofBytes) (dbOpen .calm []) (sampleRun.drop 1)) 0 metaId = some 12 := by
      decide +kernel
    exact inputInRange_of_counters (by norm_num) (hrange'.2.1 _ rfl) hget (by norm_num)
  · exact ownStep_sample hopen (by decide +kernel)

/-- A unique attribute is declared, given two values by one entity, and the first by another. -/
def reuseRun : List Input :=
  [[.int64 50, .int64 4, .int64 10, .int64 0], [.int64 60, .int64 50, .int64 7, .int64 0],
    [.int64 60, .int64 50, .int64 8, .int64 0], [.int64 61, .int64 50, .int64 7, .int64 0]].map
      fun fact => (.calm, .transact 0 (some (.array [.array fact])))

/-- Another namespace makes the difference between a refusal and a commit. -/
theorem replies_ne_with_namespace :
    ((((.calm, .newNamespace (some (.int64 1))) :: reuseRun).filter fun i => i.2.on 0).map Prod.snd =
      (reuseRun.filter fun i => i.2.on 0).map Prod.snd) ∧
    outputs (step .ofBytes) (reply .ofBytes) (fun i => i.2.on 0) (dbOpen .calm [])
        ((.calm, .newNamespace (some (.int64 1))) :: reuseRun) ≠
      outputs (step .ofBytes) (reply .ofBytes) (fun i => i.2.on 0) (dbOpen .calm []) reuseRun := by
  refine ⟨rfl, ?_⟩
  decide +kernel

end Nstore

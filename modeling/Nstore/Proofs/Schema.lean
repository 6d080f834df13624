/-
The two readers of schema facts.

A transaction learns what its attributes are from `query_a`, and a client from
`handle_facts`.  Both take what is left of the keys of an entity and attribute, but
`handle_facts` forgets all that came before with every key of an attribute that is
not of cardinality many, and `query_a` never does.  So they agree exactly as long as
no entity has a value that was not retracted and is not its last.

The base facts are stored in both sort orders by separate puts whose codes are
dropped, and each reader sees one of the two.
-/
import Nstore.Proofs.Frame
import Nstore.Proofs.Holders
import Mathlib.Data.Set.Basic

namespace Nstore

open Machine

/-! ### The datoms of a store, whatever fails -/

/-- Where the datoms of a store come from, and which are there in both orders. -/
structure DatomLayout (sha256 : Bytes → Value) (s : Store) : Prop where
  ok : StoreOk s
  copies : ∀ (k : CustomKey) (d : Item), dbInitialId ≤ k.e →
    (({ k with sort := sortAETV }, d) ∈ s ↔
      k.a < dbInitialId ∧ ({ k with sort := sortEATV }, d) ∈ s)
  base : ∀ x ∈ s, x.1.IsDatom → x.1.e < dbInitialId → x ∈ setupWrites x.1.ns
  written : ∀ x ∈ s, x.1.IsDatom → dbInitialId ≤ x.1.e → WrittenAs sha256 x

/-- What every store keeps of its datoms. -/
structure DatomInv (sha256 : Bytes → Value) (s : Store) : Prop extends
  Sound s, DatomLayout sha256 s

section Invariant

variable {sha256 : Bytes → Value} {s s' : Store} {ns : Nat}

theorem PartlySetUp.datomInv (h : PartlySetUp ns s s') (hex : nsExists s ns = false)
    (hr : DatomInv sha256 s) : DatomInv sha256 s' := by
  -- all datoms of the namespace are new
  have hown : ∀ x ∈ s', x.1.IsDatom → x.1.ns = ns → x ∈ setupWrites ns := by
    intro x hx hd hn
    have hmeta : x.1.type ≠ .keyMeta := fun hc => not_isDatom_of_meta hc hd
    rcases h.added x hx with hx | hx
    · have := hr.known x hx (Or.inl hmeta)
      rw [hn, hex] at this
      exact absurd this (by simp)
    · exact (mem_setupEntries hmeta).mp hx
  refine ⟨h.sound hex hr.toSound, fun k d he => ?_, fun x hx hd he => ?_, fun x hx hd he => ?_⟩
  · by_cases hn : k.ns = ns
    · have hnot : ∀ sort, sort = sortEATV ∨ sort = sortAETV → ({ k with sort := sort }, d) ∉ s' := by
        intro sort hsort hx
        have hd := isDatom_of_sort (h.ok.keys _ hx) hsort
        have := (setupWrites_datom (hown _ hx hd hn) hd).2.1
        exact absurd he (not_le.mpr this)
      exact ⟨fun hc => absurd hc (hnot _ (Or.inr rfl)), fun hc => absurd hc.2 (hnot _ (Or.inl rfl))⟩
    · rw [h.foreign _ hn, h.foreign _ hn]
      exact hr.copies k d he
  · by_cases hn : x.1.ns = ns
    · rw [hn]
      exact hown x hx hd hn
    · exact hr.base x ((h.foreign x hn).mp hx) hd he
  · by_cases hn : x.1.ns = ns
    · have := (setupWrites_datom (hown x hx hd hn) hd).2.1
      exact absurd he (not_le.mpr this)
    · exact hr.written x ((h.foreign x hn).mp hx) hd he

theorem Inserted.datomLayout {txn : Txn} {w : Write} (htx : txn.Ok) (hw : w.Ok sha256)
    (hl : DatomLayout sha256 s) (h : Inserted txn w s s') : DatomLayout sha256 s' := by
  refine ⟨h.ok, fun k d he => h.copies k d (hl.copies k d he), fun x hx hd he => ?_,
    fun x hx hd he => ?_⟩
  · rw [(h.frame htx hw).base x hd he] at hx
    exact hl.base x hx hd he
  · exact (h.written hw hx hd).elim (fun hxs => hl.written x hxs hd he) id

theorem Commits.datomInv {i : Input} {n : Nat} {tx : Int} {fs : List Json} {st : TxnState}
    (h : Commits sha256 i s n tx fs st) (hr : DatomInv sha256 s) :
    DatomInv sha256 (step sha256 s i) := by
  obtain ⟨id₀, hid, hloop⟩ := h.loop
  have htxn : (beginTxn i.1 s n tx).Ok :=
    transact_txn_ok hr.toSound h.ns_lt h.transacted.exists_before
      (by have := h.transacted.tx_le; omega)
  have hl : DatomLayout sha256 st.store :=
    transactLoop_invariant htxn (DatomLayout sha256) (fun s hs => hs.ok)
      (fun s s' w hs hw hins => hins.datomLayout htxn hw hs) h.facts
      (beginState_ids_ok hr.toSound h.ns_lt hid) hr.toDatomLayout hloop h.bound
  have hmem : ∀ {x : Entry}, x.1.IsDatom → (x ∈ step sha256 s i ↔ x ∈ st.store) := fun hd => by
    rw [h.store]
    exact mem_commitStore hl.ok h.ns_lt fun hc => not_isDatom_of_meta hc hd
  have hsound := h.transacted.sound h.ns_lt hr.toSound
  refine ⟨hsound, fun k d he => ?_, fun x hx hd => hl.base x ((hmem hd).mp hx) hd,
    fun x hx hd => hl.written x ((hmem hd).mp hx) hd⟩
  by_cases hk : k.type = .keyInteger ∨ k.type = .keyBlob
  · rw [hmem ⟨hk, Or.inr rfl⟩, hmem ⟨hk, Or.inl rfl⟩]
    exact hl.copies k d he
  · exact ⟨fun hc => absurd hc (not_mem_of_type hsound.ok hk (Or.inr rfl)),
      fun hc => absurd hc.2 (not_mem_of_type hsound.ok hk (Or.inl rfl))⟩

theorem datomInv_step {i : Input} (hr : DatomInv sha256 s) (hi : InputBounded sha256 s i) :
    DatomInv sha256 (step sha256 s i) := by
  rcases sound_step_cases hr.toSound hi with ⟨h, -⟩ | ⟨n, -, -, hex, h, -⟩ |
    ⟨n, tx, fs, st, h⟩
  · rw [h]
    exact hr
  · exact h.datomInv hex hr
  · exact h.datomInv hr

theorem datomInv_dbOpen (o : Oracle) : DatomInv sha256 (dbOpen o []) := by
  have hnil : DatomInv sha256 [] :=
    ⟨sound_nil, fun k d _ => by simp, fun x hx => absurd hx List.not_mem_nil,
      fun x hx => absurd hx List.not_mem_nil⟩
  unfold dbOpen
  rcases setup_cases_partly (o := o) sound_nil.ok (by decide : 0 < 2 ^ 31) with ⟨-, h⟩ | ⟨hex, h⟩
  · rw [h]
    exact hnil
  · exact h.datomInv hex hnil

theorem datomInv_run {is : List Input} (hr : DatomInv sha256 s)
    (h : Along (step sha256) (InputBounded sha256) s is) :
    DatomInv sha256 (run (step sha256) s is) :=
  Along.invariant (DatomInv sha256) (fun _ _ hr hi => datomInv_step hr hi) hr h

end Invariant

/-! ### What each reader sees -/

/-- What `query_a` returns, as entity, value and transaction. -/
def queried (s : Store) (n : Nat) (tx a : Int) : Set (Int × FactValue × Int) :=
  { p | ∃ d ∈ queryA s n tx a, p = (d.e, d.v, d.t) }

/-- What `handle_facts` reports with an attribute. -/
def reported (q : Oracle) (s : Store) (n : Nat) (t : Int64) (a : Int) :
    Set (Int × FactValue × Int) :=
  { p | ∃ f ∈ (handleFacts q s n (some (.int64 t))).factList, f.a = a ∧ p = (f.e, f.v, f.tx) }

/-- The `AETV` keys of a namespace, entity and attribute up to a transaction. -/
def InGroupA (s : Store) (n : Nat) (tx e a : Int) (x : Entry) : Prop :=
  x ∈ s ∧ x.1.ns = n ∧ x.1.sort = sortAETV ∧ x.1.e = e ∧ x.1.a = a ∧ x.1.t ≤ 2 * tx + 1

section Readers

variable {sha256 : Bytes → Value} {s : Store} {n : Nat} {tx a : Int}

theorem coords_le_AETV {x y : CustomKey} (hx : x.IsDatom) (hy : y.IsDatom)
    (hxs : x.sort = sortAETV) (hys : y.sort = sortAETV) (hns : x.ns = y.ns)
    (he : x.e = y.e) (ha : x.a = y.a) : x.coords ≤ y.coords ↔ x.tv ≤ y.tv := by
  rw [← not_lt, ← not_lt, coords_AETV hx hxs, coords_AETV hy hys, hns, he, ha]
  simp

/-- `query_a` returns the last key of every payload, if it asserts. -/
theorem mem_queried (hr : Sound s) (hn : n < 2 ^ 31)
    (h0 : 0 ≤ tx) (h1 : tx < 2 ^ 62) {p : Int × FactValue × Int} :
    p ∈ queried s n tx a ↔ ∃ x : Entry, InGroupA s n tx x.1.e a x ∧ x.1.t % 2 = 0 ∧
      (∀ y, InGroupA s n tx x.1.e a y → y.1.v = x.1.v → y.1.tv ≤ x.1.tv) ∧
      p = (x.1.e, decode x, x.1.t / 2) := by
  have hdatom : ∀ y ∈ s, y.1.sort = sortAETV → y.1.IsDatom := fun y hy hsort =>
    isDatom_of_sort (hr.ok.keys y hy) (Or.inr hsort)
  have hquery : queryA s n tx a = datomsOf a (visibleA s n a (2 * tx + 1)) := by
    rw [queryA_eq hr.ok hr.positive hn, txBound_eq h0 h1]
  have hmem : ∀ {d : Datom}, d ∈ datomsOf a (visibleA s n a (2 * tx + 1)) ↔ _ :=
    mem_datomsOf (visibleA_grouped hr.ok n a _) (visibleA_sorted hr.ok n a _)
  unfold queried
  rw [hquery]
  constructor
  · rintro ⟨d, hd, rfl⟩
    obtain ⟨x, hx, rfl, hodd, hmax⟩ := hmem.mp hd
    obtain ⟨hxs, hxa, hxn, hxsort, hxt⟩ := mem_visibleA.mp hx
    refine ⟨x, ⟨hxs, hxn, hxsort, rfl, hxa, hxt⟩, by omega, fun y hy hv => ?_, rfl⟩
    obtain ⟨hys, hyn, hysort, hye, hya, hyt⟩ := hy
    have hle := hmax y (mem_visibleA.mpr ⟨hys, hya, hyn, hysort, hyt⟩) hye hv
    rwa [coords_le_AETV (hdatom y hys hysort) (hdatom x hxs hxsort) hysort hxsort
      (hyn.trans hxn.symm) hye (hya.trans hxa.symm)] at hle
  · rintro ⟨x, ⟨hxs, hxn, hxsort, -, hxa, hxt⟩, heven, hmax, rfl⟩
    refine ⟨⟨x.1.e, a, decode x, x.1.t / 2⟩, hmem.mpr ?_, rfl⟩
    refine ⟨x, mem_visibleA.mpr ⟨hxs, hxa, hxn, hxsort, hxt⟩, rfl, by omega, fun y hy hye hv => ?_⟩
    obtain ⟨hys, hya, hyn, hysort, hyt⟩ := mem_visibleA.mp hy
    rw [coords_le_AETV (hdatom y hys hysort) (hdatom x hxs hxsort) hysort hxsort
      (hyn.trans hxn.symm) hye (hya.trans hxa.symm)]
    exact hmax y ⟨hys, hyn, hysort, hye, hya, hyt⟩ hv

/-- None of the calls fails without which there is no answer. -/
def Oracle.Answers (q : Oracle) : Prop :=
  ∀ c ∈ [Call.txnRenew, .cursorOpen, .setRange], q.fails c = false

/-- `handle_facts` reports the last key of an entity, if it asserts. -/
theorem mem_reported {q : Oracle} (hq : q.Answers) (hr : Sound s) (hn : n < 2 ^ 31) {t : Int64}
    (ht : t.toInt = tx) (h0 : 0 ≤ tx) (h1 : tx < 2 ^ 62) (hmany : a ∉ manySet q s n tx)
    {p : Int × FactValue × Int} :
    p ∈ reported q s n t a ↔ ∃ x : Entry, InGroup s n tx x.1.e a x ∧ x.1.t % 2 = 0 ∧
      (∀ y, InGroup s n tx x.1.e a y → y.1.tv ≤ x.1.tv) ∧ p = (x.1.e, decode x, x.1.t / 2) := by
  have hdatom : ∀ y ∈ s, y.1.sort = sortEATV → y.1.IsDatom := fun y hy hsort =>
    isDatom_of_sort (hr.ok.keys y hy) (Or.inl hsort)
  have hat : handleFacts q s n (some (.int64 t)) = handleFactsAt q s n tx := by
    simp only [handleFacts, hq .txnRenew (by simp), ht, if_neg (not_lt.mpr h0),
      Bool.false_eq_true, if_false]
  have hlist : (handleFacts q s n (some (.int64 t))).factList =
      (factsKeys (manySet q s n tx) (visible s n (2 * tx + 1))).map factOf := by
    rw [hat, factList_handleFactsAt q hr.ok hr.positive hn, hq .cursorOpen (by simp),
      hq .setRange (by simp), if_neg (by simp), factsOf_eq,
      txBound_eq h0 h1]
  have hmem : ∀ x, x ∈ factsKeys (manySet q s n tx) (visible s n (2 * tx + 1)) ↔ _ :=
    mem_factsKeys (visible_grouped hr.ok n (2 * tx + 1)) (visible_sorted hr.ok n (2 * tx + 1))
  unfold reported
  rw [hlist]
  constructor
  · rintro ⟨f, hf, hfa, rfl⟩
    obtain ⟨x, hx, rfl⟩ := List.mem_map.mp hf
    have hxa : x.1.a = a := hfa
    obtain ⟨hvis, hodd, hmax⟩ := (hmem x).mp hx
    obtain ⟨hxs, hxn, hxsort, hxt⟩ := mem_visible.mp hvis
    refine ⟨x, ⟨hxs, hxn, hxsort, rfl, hxa, hxt⟩, by omega, fun y hy => ?_, rfl⟩
    obtain ⟨hys, hyn, hysort, hye, hya, hyt⟩ := hy
    have hle := hmax y (mem_visible.mpr ⟨hys, hyn, hysort, hyt⟩)
      (by simp [groupOf, hye, hya, hxa]) fun hc => absurd (hxa ▸ hc) hmany
    rwa [coords_le_EATV (hdatom y hys hysort) (hdatom x hxs hxsort) hysort hxsort
      (hyn.trans hxn.symm) hye (hya.trans hxa.symm)] at hle
  · rintro ⟨x, ⟨hxs, hxn, hxsort, -, hxa, hxt⟩, heven, hmax, rfl⟩
    refine ⟨factOf x, List.mem_map.mpr ⟨x, (hmem x).mpr ?_, rfl⟩, hxa, rfl⟩
    refine ⟨mem_visible.mpr ⟨hxs, hxn, hxsort, hxt⟩, by omega, fun y hy hgy _ => ?_⟩
    obtain ⟨hys, hyn, hysort, hyt⟩ := mem_visible.mp hy
    obtain ⟨hye, hya⟩ : y.1.e = x.1.e ∧ y.1.a = x.1.a := by simpa [groupOf] using hgy
    rw [coords_le_EATV (hdatom y hys hysort) (hdatom x hxs hxsort) hysort hxsort
      (hyn.trans hxn.symm) hye hya]
    exact hmax y ⟨hys, hyn, hysort, hye, hya.trans hxa, hyt⟩

end Readers

/-! ### When they agree -/

/-- The same datom in another order. -/
def Entry.inOrder (sort : Nat) (x : Entry) : Entry := ({ x.1 with sort := sort }, x.2)

theorem Entry.inOrder_self {sort : Nat} {x : Entry} (h : x.1.sort = sort) : x.inOrder sort = x := by
  rw [Entry.inOrder, ← h]

/--
The schema facts of an attribute as both readers show them: the base facts are stored in
both orders or in neither, and a value that is not the last of its entity was retracted.
-/
structure SchemaKept (s : Store) (n : Nat) (tx a : Int) : Prop where
  mirrored : ∀ x : Entry, x.1.ns = n → x.1.a = a → x.1.e < dbInitialId →
    (x.inOrder sortAETV ∈ s ↔ x.inOrder sortEATV ∈ s)
  retracted : ∀ e y, InGroup s n tx e a y → y.1.t % 2 = 0 →
    (∀ z, InGroup s n tx e a z → z.1.v = y.1.v → z.1.tv ≤ y.1.tv) →
    ∀ z, InGroup s n tx e a z → z.1.tv ≤ y.1.tv

/-- The attributes a schema is made of. -/
def schemaAttributes : List Int := [dbIdent, dbType, dbCardinality, dbUnique]

theorem schemaAttributes_lt : ∀ a ∈ schemaAttributes, a < dbInitialId := by
  decide

/-- A base entity has one base fact of an attribute. -/
theorem setupWrites_zero_one : ∀ x ∈ setupWrites 0, x.1.IsDatom → ∀ y ∈ setupWrites 0,
    y.1.IsDatom → x.1.e = y.1.e → x.1.a = y.1.a → x = Entry.inOrder x.1.sort y := by
  decide +kernel

/-- The base attributes are all of cardinality one. -/
theorem setupWrites_zero_cardinality : ∀ x ∈ setupWrites 0, x.1.IsDatom →
    x.1.a = dbCardinality → decode x = .int dbCardinalityOne := by
  decide +kernel

section Agree

variable {sha256 : Bytes → Value} {s : Store} {n : Nat} {tx a e : Int}

theorem DatomInv.base_eq (hr : DatomInv sha256 s) {x y : Entry} (hx : x ∈ s) (hxd : x.1.IsDatom)
    (hxe : x.1.e < dbInitialId) (hy : y ∈ s) (hyd : y.1.IsDatom) (hns : x.1.ns = y.1.ns)
    (he : x.1.e = y.1.e) (ha : x.1.a = y.1.a) : x = Entry.inOrder x.1.sort y := by
  obtain ⟨x₀, hx₀, hxx⟩ := mem_setupWrites.mp (hr.base x hx hxd hxe)
  obtain ⟨y₀, hy₀, hyy⟩ := mem_setupWrites.mp (hr.base y hy hyd (he ▸ hxe))
  rw [← hns] at hyy
  rw [← hxx] at hxd he ha
  rw [← hyy] at hyd he ha
  have := setupWrites_zero_one x₀ hx₀ hxd y₀ hy₀ hyd he ha
  rw [← hxx, ← hyy]
  exact congrArg (setNs x.1.ns) this

/-- No base attribute is ever read as cardinality many. -/
theorem DatomInv.not_many (hr : DatomInv sha256 s) (hn : n < 2 ^ 31) (ha : a < dbInitialId)
    (q : Oracle) (tx : Int) : a ∉ manySet q s n tx := by
  intro hmem
  unfold manySet at hmem
  obtain ⟨d, hd, hda⟩ := List.mem_map.mp hmem
  obtain ⟨hd, hi⟩ := List.mem_filter.mp hd
  have hd : d ∈ queryA s n tx dbCardinality := by
    unfold queryOr at hd
    split at hd
    · exact absurd hd List.not_mem_nil
    · exact hd
  rw [queryA_eq hr.ok hr.positive hn, mem_datomsOf (visibleA_grouped hr.ok _ _ _)
    (visibleA_sorted hr.ok _ _ _)] at hd
  obtain ⟨x, hx, rfl, -⟩ := hd
  obtain ⟨hxs, hxa, -, hxsort, -⟩ := mem_visibleA.mp hx
  have hdatom := isDatom_of_sort (hr.ok.keys x hxs) (Or.inr hxsort)
  have hxe : x.1.e = a := hda
  obtain ⟨y, hy, hyx⟩ := mem_setupWrites.mp (hr.base x hxs hdatom (hxe ▸ ha))
  have hval : decode x = .int dbCardinalityOne := by
    rw [← hyx] at hdatom hxa ⊢
    exact setupWrites_zero_cardinality y hy hdatom hxa
  simp only [Datom.i, hval, decide_eq_true_eq] at hi
  exact absurd hi (by decide)

/-- Where the copies of an entity go together, so do the keys the readers look at. -/
theorem inGroupA_iff (hcopy : ∀ x : Entry, x.1.ns = n → x.1.a = a → x.1.e = e →
      (x.inOrder sortAETV ∈ s ↔ x.inOrder sortEATV ∈ s)) (x : Entry) :
    InGroupA s n tx e a (x.inOrder sortAETV) ↔ InGroup s n tx e a (x.inOrder sortEATV) := by
  constructor
  · intro h
    obtain ⟨hx, hns, -, he, ha, ht⟩ := h
    exact ⟨(hcopy x hns ha he).mp hx, hns, rfl, he, ha, ht⟩
  · intro h
    obtain ⟨hx, hns, -, he, ha, ht⟩ := h
    exact ⟨(hcopy x hns ha he).mpr hx, hns, rfl, he, ha, ht⟩

/-- What `query_a` shows, in terms of the keys `handle_facts` looks at. -/
theorem mem_queried_of_copies (hr : DatomInv sha256 s) (hn : n < 2 ^ 31)
    (h0 : 0 ≤ tx) (h1 : tx < 2 ^ 62)
    (hcopy : ∀ x : Entry, x.1.ns = n → x.1.a = a → x.1.e = e →
      (x.inOrder sortAETV ∈ s ↔ x.inOrder sortEATV ∈ s)) {v : FactValue} {t : Int} :
    (e, v, t) ∈ queried s n tx a ↔ ∃ x : Entry, InGroup s n tx e a x ∧ x.1.t % 2 = 0 ∧
      (∀ y, InGroup s n tx e a y → y.1.v = x.1.v → y.1.tv ≤ x.1.tv) ∧
      v = decode x ∧ t = x.1.t / 2 := by
  rw [mem_queried hr.toSound hn h0 h1]
  constructor
  · intro h
    obtain ⟨x, hx, heven, hmax, hp⟩ := h
    simp only [Prod.mk.injEq] at hp
    obtain ⟨he, hv, ht⟩ := hp
    rw [← he] at hx hmax
    rw [← Entry.inOrder_self hx.2.2.1] at hx
    refine ⟨x.inOrder sortEATV, (inGroupA_iff hcopy x).mp hx, heven, fun y hy hyv => ?_, hv, ht⟩
    rw [← Entry.inOrder_self hy.2.2.1] at hy
    exact hmax (y.inOrder sortAETV) ((inGroupA_iff hcopy y).mpr hy) hyv
  · intro h
    obtain ⟨x, hx, heven, hmax, rfl, rfl⟩ := h
    have he : x.1.e = e := hx.2.2.2.1
    rw [← Entry.inOrder_self hx.2.2.1] at hx
    refine ⟨x.inOrder sortAETV, ?_, heven, fun y hy hyv => ?_, ?_⟩
    · show InGroupA s n tx x.1.e a _
      rw [he]
      exact (inGroupA_iff hcopy x).mpr hx
    · have hy : InGroupA s n tx e a y := he ▸ hy
      rw [← Entry.inOrder_self hy.2.2.1] at hy
      exact hmax (y.inOrder sortEATV) ((inGroupA_iff hcopy y).mp hy) hyv
    · rw [← he]
      rfl

theorem DatomInv.copies_iff (hr : DatomInv sha256 s) (ha : a < dbInitialId) (he : dbInitialId ≤ e) :
    ∀ x : Entry, x.1.ns = n → x.1.a = a → x.1.e = e →
      (x.inOrder sortAETV ∈ s ↔ x.inOrder sortEATV ∈ s) := by
  intro x _ hxa hxe
  have hcopies := hr.copies x.1 x.2 (hxe ▸ he)
  exact hcopies.trans (and_iff_right (hxa ▸ ha))

theorem SchemaKept.copies_iff (h : SchemaKept s n tx a) (hr : DatomInv sha256 s)
    (ha : a < dbInitialId) : ∀ x : Entry, x.1.ns = n → x.1.a = a → x.1.e = e →
      (x.inOrder sortAETV ∈ s ↔ x.inOrder sortEATV ∈ s) := by
  by_cases he : e < dbInitialId
  · intro x hns hxa hxe
    exact h.mirrored x hns hxa (hxe ▸ he)
  · exact hr.copies_iff ha (not_lt.mp he)

/-- What two values of an entity have in common if they are shown as one. -/
theorem DatomInv.v_eq (hr : DatomInv sha256 s) {x y : Entry} (hx : InGroup s n tx e a x)
    (hy : InGroup s n tx e a y) (he : dbInitialId ≤ e) (hxy : decode x = decode y) :
    x.1.v = y.1.v := by
  have hfaithful : ∀ z, InGroup s n tx e a z → Faithful sha256 z := by
    intro z hz
    obtain ⟨hzs, -, hzsort, hze, -⟩ := hz
    have hd := isDatom_of_sort (hr.ok.keys z hzs) (Or.inl hzsort)
    exact (hr.written z hzs hd (hze ▸ he)).faithful
  rw [hfaithful x hx, hfaithful y hy, hxy]

variable {q : Oracle} {t : Int64}

/-- The readers agree where the schema was kept. -/
theorem SchemaKept.queried_eq (h : SchemaKept s n tx a) (hr : DatomInv sha256 s) (hn : n < 2 ^ 31)
    (ha : a ∈ schemaAttributes) (hq : q.Answers) (ht : t.toInt = tx) (h0 : 0 ≤ tx)
    (h1 : tx < 2 ^ 62) : queried s n tx a = reported q s n t a := by
  have ha := schemaAttributes_lt a ha
  ext ⟨e, v, r⟩
  rw [mem_queried_of_copies hr hn h0 h1 (h.copies_iff hr ha),
    mem_reported hq hr.toSound hn ht h0 h1 (hr.not_many hn ha q tx)]
  constructor
  · intro hx
    obtain ⟨x, hx, heven, hmax, rfl, rfl⟩ := hx
    have he : x.1.e = e := hx.2.2.2.1
    have hlast := h.retracted e x hx heven hmax
    rw [← he] at hx hlast ⊢
    exact ⟨x, hx, heven, hlast, rfl⟩
  · intro hx
    obtain ⟨x, hx, heven, hmax, hp⟩ := hx
    simp only [Prod.mk.injEq] at hp
    obtain ⟨rfl, hv, hr⟩ := hp
    exact ⟨x, hx, heven, fun y hy _ => hmax y hy, hv, hr⟩

/-- A key of an entity and attribute in one order. -/
def HasKey (s : Store) (n sort : Nat) (e a : Int) (x : Entry) : Prop :=
  x ∈ s ∧ x.1.ns = n ∧ x.1.sort = sort ∧ x.1.e = e ∧ x.1.a = a

theorem HasKey.isDatom {sort : Nat} {x : Entry} (hx : HasKey s n sort e a x)
    (hr : DatomInv sha256 s) (hsort : sort = sortEATV ∨ sort = sortAETV) : x.1.IsDatom :=
  isDatom_of_sort (hr.ok.keys x hx.1) (hx.2.2.1 ▸ hsort)

/-- There is at most one base key of an entity and attribute, apart from the order. -/
theorem HasKey.eq_inOrder {sort sort' : Nat} {x y : Entry} (hx : HasKey s n sort e a x)
    (hy : HasKey s n sort' e a y) (hr : DatomInv sha256 s)
    (hsort : sort = sortEATV ∨ sort = sortAETV) (hsort' : sort' = sortEATV ∨ sort' = sortAETV)
    (he : e < dbInitialId) : x = y.inOrder sort := by
  obtain ⟨hxs, hxn, hxsort, hxe, hxa⟩ := id hx
  obtain ⟨hys, hyn, -, hye, hya⟩ := id hy
  have h := hr.base_eq hxs (hx.isDatom hr hsort) (hxe ▸ he) hys (hy.isDatom hr hsort')
    (hxn.trans hyn.symm) (hxe.trans hye.symm) (hxa.trans hya.symm)
  rwa [hxsort] at h

theorem HasKey.t_eq {sort : Nat} {x : Entry} (hx : HasKey s n sort e a x) (hr : DatomInv sha256 s)
    (hsort : sort = sortEATV ∨ sort = sortAETV) (he : e < dbInitialId) : x.1.t = 0 := by
  have hd := hx.isDatom hr hsort
  obtain ⟨hxs, -, -, hxe, -⟩ := hx
  exact (setupWrites_datom (hr.base x hxs hd (hxe ▸ he)) hd).2.2.1

theorem HasKey.tv_le {sort : Nat} {x y : Entry} (hx : HasKey s n sort e a x)
    (hy : HasKey s n sort e a y) (hr : DatomInv sha256 s)
    (hsort : sort = sortEATV ∨ sort = sortAETV) (he : e < dbInitialId) : y.1.tv ≤ x.1.tv := by
  rw [hy.eq_inOrder hx hr hsort hsort he]
  exact le_refl _

/-- `query_a` shows something of a base entity if there is a key of it. -/
theorem queried_base (hr : DatomInv sha256 s) (hn : n < 2 ^ 31)
    (h0 : 0 ≤ tx) (h1 : tx < 2 ^ 62) (he : e < dbInitialId) :
    (∃ p ∈ queried s n tx a, p.1 = e) ↔ ∃ x, HasKey s n sortAETV e a x := by
  constructor
  · intro h
    obtain ⟨p, hp, hpe⟩ := h
    obtain ⟨x, ⟨hxs, hxn, hxsort, -, hxa, -⟩, -, -, rfl⟩ :=
      (mem_queried hr.toSound hn h0 h1).mp hp
    exact ⟨x, hxs, hxn, hxsort, hpe, hxa⟩
  · intro h
    obtain ⟨x, hx⟩ := h
    have ht := hx.t_eq hr (Or.inr rfl) he
    obtain ⟨hxs, hxn, hxsort, rfl, hxa⟩ := id hx
    refine ⟨_, (mem_queried hr.toSound hn h0 h1).mpr
      ⟨x, ⟨hxs, hxn, hxsort, rfl, hxa, by omega⟩, by omega, fun y hy _ => ?_, rfl⟩, rfl⟩
    obtain ⟨hys, hyn, hysort, hye, hya, -⟩ := hy
    exact hx.tv_le ⟨hys, hyn, hysort, hye, hya⟩ hr (Or.inr rfl) he

/-- And so does `handle_facts`. -/
theorem reported_base (hr : DatomInv sha256 s) (hn : n < 2 ^ 31) (ha : a < dbInitialId)
    (hq : q.Answers) (ht : t.toInt = tx) (h0 : 0 ≤ tx) (h1 : tx < 2 ^ 62) (he : e < dbInitialId) :
    (∃ p ∈ reported q s n t a, p.1 = e) ↔ ∃ x, HasKey s n sortEATV e a x := by
  have hmem : ∀ {p}, p ∈ reported q s n t a ↔ _ :=
    mem_reported hq hr.toSound hn ht h0 h1 (hr.not_many hn ha q tx)
  constructor
  · intro h
    obtain ⟨p, hp, hpe⟩ := h
    obtain ⟨x, ⟨hxs, hxn, hxsort, -, hxa, -⟩, -, -, rfl⟩ := hmem.mp hp
    exact ⟨x, hxs, hxn, hxsort, hpe, hxa⟩
  · intro h
    obtain ⟨x, hx⟩ := h
    have ht := hx.t_eq hr (Or.inl rfl) he
    obtain ⟨hxs, hxn, hxsort, rfl, hxa⟩ := id hx
    refine ⟨_, hmem.mpr
      ⟨x, ⟨hxs, hxn, hxsort, rfl, hxa, by omega⟩, by omega, fun y hy => ?_, rfl⟩, rfl⟩
    obtain ⟨hys, hyn, hysort, hye, hya, -⟩ := hy
    exact hx.tv_le ⟨hys, hyn, hysort, hye, hya⟩ hr (Or.inl rfl) he

/-- The readers agree only where the schema was kept. -/
theorem schemaKept_of_queried_eq (hr : DatomInv sha256 s) (hn : n < 2 ^ 31)
    (ha : a ∈ schemaAttributes) (hq : q.Answers) (ht : t.toInt = tx) (h0 : 0 ≤ tx)
    (h1 : tx < 2 ^ 62) (heq : queried s n tx a = reported q s n t a) : SchemaKept s n tx a := by
  have ha := schemaAttributes_lt a ha
  have hbase : ∀ e < dbInitialId,
      ((∃ x, HasKey s n sortAETV e a x) ↔ ∃ x, HasKey s n sortEATV e a x) := by
    intro e he
    rw [← queried_base hr hn h0 h1 he, ← reported_base hr hn ha hq ht h0 h1 he, heq]
  refine ⟨fun x hns hxa hxe => ?_, fun e y hy heven hmax z hz => ?_⟩
  · constructor
    · intro hx
      have hkey : HasKey s n sortAETV x.1.e a (x.inOrder sortAETV) := ⟨hx, hns, rfl, rfl, hxa⟩
      obtain ⟨y, hy⟩ := (hbase _ hxe).mp ⟨_, hkey⟩
      have hyx := hy.eq_inOrder hkey hr (Or.inl rfl) (Or.inr rfl) hxe
      exact hyx ▸ hy.1
    · intro hx
      have hkey : HasKey s n sortEATV x.1.e a (x.inOrder sortEATV) := ⟨hx, hns, rfl, rfl, hxa⟩
      obtain ⟨y, hy⟩ := (hbase _ hxe).mpr ⟨_, hkey⟩
      have hyx := hy.eq_inOrder hkey hr (Or.inr rfl) (Or.inl rfl) hxe
      exact hyx ▸ hy.1
  · by_cases he : e < dbInitialId
    · obtain ⟨hys, hyn, hysort, hye, hya, -⟩ := hy
      obtain ⟨hzs, hzn, hzsort, hze, hza, -⟩ := hz
      exact HasKey.tv_le ⟨hys, hyn, hysort, hye, hya⟩ ⟨hzs, hzn, hzsort, hze, hza⟩ hr (Or.inl rfl) he
    · -- the key is shown by `query_a`, so it is shown by `handle_facts`
      have he := not_lt.mp he
      have hmem : (e, decode y, y.1.t / 2) ∈ queried s n tx a :=
        (mem_queried_of_copies hr hn h0 h1 (hr.copies_iff ha he)).mpr
          ⟨y, hy, heven, hmax, rfl, rfl⟩
      rw [heq, mem_reported hq hr.toSound hn ht h0 h1 (hr.not_many hn ha q tx)] at hmem
      obtain ⟨x, hx, -, hlast, hp⟩ := hmem
      simp only [Prod.mk.injEq] at hp
      obtain ⟨rfl, hv, -⟩ := hp
      calc z.1.tv ≤ x.1.tv := hlast z hz
        _ ≤ y.1.tv := hmax x hx (hr.v_eq hx hy he hv.symm)

/--
**The two readers of schema facts.**  In every state reached by requests in range, and
for every transaction up to the counter, `query_a` and `handle_facts` show the same of a
schema attribute exactly if its base facts are there in both orders or in neither, and no
entity has a value that was neither retracted nor its last.
-/
theorem run_readers_agree {o : Oracle} {is : List Input}
    (his : Along (step sha256) (InputBounded sha256) (dbOpen o []) is) (hn : n < 2 ^ 31)
    {next : Int} (hnext : getMeta (run (step sha256) (dbOpen o []) is) n metaTx = some next)
    (h0 : 0 ≤ t.toInt) (hle : t.toInt ≤ next) (hq : q.Answers) (ha : a ∈ schemaAttributes) :
    queried (run (step sha256) (dbOpen o []) is) n t.toInt a =
        reported q (run (step sha256) (dbOpen o []) is) n t a ↔
      SchemaKept (run (step sha256) (dbOpen o []) is) n t.toInt a := by
  set s := run (step sha256) (dbOpen o []) is
  have hr : DatomInv sha256 s := datomInv_run (datomInv_dbOpen o) his
  have h1 : t.toInt < 2 ^ 62 := by
    have := (hr.tx_range n next hn hnext).2
    omega
  constructor
  · intro heq
    exact schemaKept_of_queried_eq hr hn ha hq rfl h0 h1 heq
  · intro hkept
    exact hkept.queried_eq hr hn ha hq rfl h0 h1

end Agree

private theorem dbOpen_schemaKept : SchemaKept (dbOpen .calm []) 0 1 dbType := by
  have hcopies : (∀ y ∈ dbOpen .calm [], y.1.sort = sortAETV →
        y.inOrder sortEATV ∈ dbOpen .calm []) ∧
      ∀ y ∈ dbOpen .calm [], y.1.sort = sortEATV → y.inOrder sortAETV ∈ dbOpen .calm [] := by
    decide +kernel
  have hone : ∀ y ∈ dbOpen .calm [], y.1.sort = sortEATV → ∀ z ∈ dbOpen .calm [],
      z.1.sort = sortEATV → z.1.e = y.1.e → z.1.a = y.1.a → z = y := by
    decide +kernel
  refine ⟨fun x _ _ _ => ⟨fun hx => hcopies.1 (x.inOrder sortAETV) hx rfl,
      fun hx => hcopies.2 (x.inOrder sortEATV) hx rfl⟩, fun e y hy _ _ z hz => ?_⟩
  obtain ⟨hys, -, hysort, rfl, hya, -⟩ := hy
  obtain ⟨hzs, -, hzsort, hze, hza, -⟩ := hz
  rw [hone y hys hysort z hzs hzsort hze (hza.trans hya.symm)]

theorem dbOpen_readers_agree :
    queried (dbOpen .calm []) 0 (1 : Int64).toInt dbType =
      reported .calm (dbOpen .calm []) 0 1 dbType := by
  have hnext : getMeta (run (step .ofBytes) (dbOpen .calm []) []) 0 metaTx = some 1 := by
    decide +kernel
  have his : Along (step .ofBytes) (InputBounded .ofBytes) (dbOpen .calm []) [] := trivial
  exact (run_readers_agree his (by norm_num) hnext (by decide) (by decide)
    (fun c _ => Oracle.calm_faultless c) (by decide)).mpr dbOpen_schemaKept

/-- The type of an attribute is given, and then given again. -/
def retypeRequests : List Input :=
  [(.calm, .transact 0 (some (.array [.array [.int64 60, .int64 2, .int64 5, .int64 0]]))),
   (.calm, .transact 0 (some (.array [.array [.int64 60, .int64 2, .int64 6, .int64 0]])))]

/-- `query_a` still returns the first type, which `handle_facts` no longer reports. -/
theorem retyped_readers_differ :
    getMeta (run (step .ofBytes) (dbOpen .calm []) retypeRequests) 0 metaTx = some 3 ∧
    queried (run (step .ofBytes) (dbOpen .calm []) retypeRequests) 0 (2 : Int64).toInt dbType ≠
      reported .calm (run (step .ofBytes) (dbOpen .calm []) retypeRequests) 0 2 dbType := by
  have hstate : getMeta (run (step .ofBytes) (dbOpen .calm []) retypeRequests) 0 metaTx = some 3 ∧
      ⟨60, 2, .int 5, 1⟩ ∈ queryA (run (step .ofBytes) (dbOpen .calm []) retypeRequests) 0
        (2 : Int64).toInt dbType ∧
      ∀ f ∈ (handleFacts .calm (run (step .ofBytes) (dbOpen .calm []) retypeRequests) 0
        (some (.int64 2))).factList, f.e = 60 → f.v ≠ .int 5 := by
    decide +kernel
  obtain ⟨hnext, hquery, hfacts⟩ := hstate
  refine ⟨hnext, fun heq => ?_⟩
  have hmem : (60, .int 5, 1) ∈
      queried (run (step .ofBytes) (dbOpen .calm []) retypeRequests) 0 (2 : Int64).toInt dbType :=
    ⟨_, hquery, rfl⟩
  rw [heq] at hmem
  obtain ⟨f, hf, -, hp⟩ := hmem
  simp only [Prod.mk.injEq] at hp
  exact hfacts f hf hp.1.symm hp.2.1.symm

end Nstore

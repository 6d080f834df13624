/-
The representation invariant of the store.

Four kinds of key describe one set of facts: the counters, the datoms in `EATV`
order, their copies in `AETV` order for schema attributes, and the unique index.
`Layout` says how the last three fit together; every insertion keeps it, whatever
comes after it in its transaction.  `RepInv` adds the counters, and every request
in range keeps that.
-/
import Nstore.Proofs.Sound

namespace Nstore

/-! ### The invariant -/

/-- A datom written by a transaction: its value is one that `handle_transact` encodes. -/
def WrittenAs (sha256 : Bytes → Value) (x : Entry) : Prop :=
  ∃ enc : Encoded, enc.Ok sha256 ∧ x.1.type = enc.type ∧ x.1.pad = enc.pad ∧ x.1.v = enc.v ∧
    x.2 = enc.item

/-- An assertion that an index entry stands for. -/
structure Backs (x y : Entry) : Prop where
  isDatom : y.1.IsDatom
  sort : y.1.sort = sortEATV
  ns : y.1.ns = x.1.ns
  a : y.1.a = x.1.a
  v : y.1.v = x.1.v
  even : y.1.t % 2 = 0
  e : x.2 = .num y.1.e

/-- How the datoms, their copies and the index fit together. -/
structure Layout (sha256 : Bytes → Value) (s : Store) : Prop where
  ok : StoreOk s
  copies : ∀ (k : CustomKey) (d : Item), ({ k with sort := sortAETV }, d) ∈ s ↔
    k.a < dbInitialId ∧ ({ k with sort := sortEATV }, d) ∈ s
  backed : ∀ x ∈ s, x.1.type = .keyUnique → ∃ y ∈ s, Backs x y
  base : ∀ x ∈ s, x.1.IsDatom → x.1.e < dbInitialId → x ∈ setupWrites x.1.ns
  written : ∀ x ∈ s, x.1.IsDatom → dbInitialId ≤ x.1.e → WrittenAs sha256 x

/-- The layout, with the counters of every namespace that has a key. -/
structure RepInv (sha256 : Bytes → Value) (s : Store) : Prop extends Layout sha256 s where
  known : ∀ x ∈ s, ∃ tx id, getMeta s x.1.ns metaTx = some tx ∧ getMeta s x.1.ns metaId = some id
  tx_range : ∀ ns tx, ns < 2 ^ 31 → getMeta s ns metaTx = some tx → 1 ≤ tx ∧ tx ≤ 2 ^ 29
  id_pos : ∀ ns id, ns < 2 ^ 31 → getMeta s ns metaId = some id → dbInitialId ≤ id
  times : ∀ x ∈ s, x.1.IsDatom → ∀ tx, getMeta s x.1.ns metaTx = some tx → x.1.t / 2 < tx
  based : ∀ ns, ns < 2 ^ 31 → nsExists s ns = true → ∀ x ∈ setupWrites ns, x.1.IsDatom → x ∈ s

/-! ### Insertions keep the layout -/

section Insertion

variable {sha256 : Bytes → Value} {txn : Txn} {w : Write} {s s' : Store}

/-- Two datoms of one time and value, both written by transactions, have one payload. -/
theorem WrittenAs.v_eq {x : Entry} {k : CustomKey} {enc : Encoded} (hx : WrittenAs sha256 x)
    (henc : enc.Ok sha256) (hk : k.type = enc.type) (hv : k.v = enc.v) (htv : x.1.tv = k.tv) :
    x.1.v = k.v := by
  obtain ⟨enc', henc', htype', -, hv', -⟩ := hx
  have hval : x.1.valueCoords = k.valueCoords := (List.cons.inj htv).2
  have htype : x.1.type = .keyInteger ∨ x.1.type = .keyBlob := by
    rw [htype']; exact henc'.type
  obtain ⟨hty, hcases⟩ := (valueCoords_eq_iff htype).mp hval
  rcases htype with hi | hb
  · -- an integer is put into a zeroed union, so its bytes follow from it
    have hint : ∀ {e : Encoded}, e.Ok sha256 → e.type = .keyInteger → e.v = Value.zero.setI e.v.i := by
      intro e he hei
      rcases he with ⟨x, hx, rfl⟩ | ⟨str, -, rfl⟩
      · show Value.zero.setI x = Value.zero.setI (Value.zero.setI x).i
        rw [Value.i_setI _ ⟨by omega, by omega⟩]
      · rw [encodeStr_type] at hei
        exact absurd hei (by simp)
    have h1 := hint henc' (htype'.symm.trans hi)
    have h2 := hint henc (hk.symm.trans (hty.symm.trans hi))
    rw [← hv'] at h1
    rw [← hv] at h2
    rw [h1, h2]
    simp only [hi] at hcases
    rw [hcases]
  · simp only [hb] at hcases
    exact hcases.2

/-- A written key in the other order is what the write puts there. -/
theorem Write.puts_copies (k : CustomKey) (d : Item) :
    w.Puts txn ({ k with sort := sortAETV }, d) ↔
      k.a < dbInitialId ∧ w.Puts txn ({ k with sort := sortEATV }, d) := by
  have hne : sortEATV ≠ sortAETV := by decide
  constructor
  · rintro (h | ⟨ha, h⟩)
    · have : sortAETV = sortEATV := congrArg (fun x : Entry => x.1.sort) h
      exact absurd this.symm hne
    · have hk : k.a = w.a := congrArg (fun x : Entry => x.1.a) h
      refine ⟨hk ▸ ha, Or.inl ?_⟩
      have := congrArg (fun x : Entry => (({ x.1 with sort := sortEATV }, x.2) : Entry)) h
      exact this
  · rintro ⟨ha, h | ⟨-, h⟩⟩
    · have hk : k.a = w.a := congrArg (fun x : Entry => x.1.a) h
      refine Or.inr ⟨hk ▸ ha, ?_⟩
      have := congrArg (fun x : Entry => (({ x.1 with sort := sortAETV }, x.2) : Entry)) h
      exact this
    · have : sortEATV = sortAETV := congrArg (fun x : Entry => x.1.sort) h
      exact absurd this hne

/-- Keys of other kinds have no sort order. -/
theorem not_mem_of_type {k : CustomKey} {d : Item} (hs : StoreOk s)
    (hk : ¬ (k.type = .keyInteger ∨ k.type = .keyBlob)) {sort : Nat}
    (hsort : sort = sortEATV ∨ sort = sortAETV) : ({ k with sort := sort }, d) ∉ s :=
  fun hmem => hk (isDatom_of_sort (hs.keys _ hmem) hsort).1

theorem Inserted.copies (h : Inserted txn w s s') (k : CustomKey) (d : Item)
    (hs : ({ k with sort := sortAETV }, d) ∈ s ↔
      k.a < dbInitialId ∧ ({ k with sort := sortEATV }, d) ∈ s) :
    ({ k with sort := sortAETV }, d) ∈ s' ↔
      k.a < dbInitialId ∧ ({ k with sort := sortEATV }, d) ∈ s' := by
  by_cases hk : k.type = .keyInteger ∨ k.type = .keyBlob
  · rw [h.datoms _ ⟨hk, Or.inr rfl⟩, h.datoms _ ⟨hk, Or.inl rfl⟩, Write.puts_copies, hs]
    have hrepl : k.a < dbInitialId → (w.Replaces txn ({ k with sort := sortAETV }, d) ↔
        w.Replaces txn ({ k with sort := sortEATV }, d)) := by
      intro ha
      constructor
      · rintro ⟨hf, -⟩
        exact ⟨hf, Or.inl rfl⟩
      · rintro ⟨hf, -⟩
        have hka : k.a = w.a := hf.2.2.1
        exact ⟨hf, Or.inr (hka ▸ ha)⟩
    tauto
  · exact ⟨fun hc => absurd hc (not_mem_of_type h.ok hk (Or.inr rfl)),
      fun hc => absurd hc.2 (not_mem_of_type h.ok hk (Or.inl rfl))⟩

/-- A datom that was not there is the one that is written. -/
theorem Inserted.written (hw : w.Ok sha256) (h : Inserted txn w s s') {x : Entry} (hx : x ∈ s')
    (hd : x.1.IsDatom) : x ∈ s ∨ WrittenAs sha256 x := by
  rcases (h.datoms x hd).mp hx with (rfl | ⟨-, rfl⟩) | ⟨hxs, -⟩
  · exact Or.inr ⟨w.enc, hw.enc, rfl, rfl, rfl, rfl⟩
  · exact Or.inr ⟨w.enc, hw.enc, rfl, rfl, rfl, rfl⟩
  · exact Or.inl hxs

theorem Inserted.backed (htx : txn.Ok) (hw : w.Ok sha256) (hl : Layout sha256 s)
    (h : Inserted txn w s s') : ∀ x ∈ s', x.1.type = .keyUnique → ∃ y ∈ s', Backs x y := by
  have hdatom : (w.key txn sortEATV).IsDatom := Write.key_isDatom hw (Or.inl rfl)
  have hmem : (w.key txn sortEATV, w.enc.item) ∈ s' := (h.datoms _ hdatom).mpr (Or.inl (Or.inl rfl))
  intro x hx ht
  rcases h.index x hx ht with hxs | ⟨hr, rfl⟩
  · obtain ⟨y, hy, hb⟩ := hl.backed x hxs ht
    by_cases hrep : w.Replaces txn y
    · -- the assertion was written again, with the same payload
      obtain ⟨⟨hns, he, ha, htv⟩, -⟩ := hrep
      have hv := WrittenAs.v_eq (hl.written y hy hb.isDatom (by rw [he]; exact hw.e_range.1))
        (k := w.key txn sortEATV) hw.enc rfl rfl htv
      have ht' : y.1.t = (w.key txn sortEATV).t := (List.cons.inj htv).1
      refine ⟨_, hmem, hdatom, rfl, ?_, ?_, ?_, ?_, ?_⟩
      · rw [← hb.ns, hns]; rfl
      · rw [← hb.a, ha]; rfl
      · rw [← hb.v, hv]
      · rw [← ht']; exact hb.even
      · rw [hb.e, he]; rfl
    · exact ⟨y, (h.datoms y hb.isDatom).mpr (Or.inr ⟨hy, hrep⟩), hb⟩
  · refine ⟨_, hmem, hdatom, rfl, rfl, rfl, rfl, ?_, rfl⟩
    rw [Write.key_t htx, hr]
    simp

/-- **Every insertion keeps the layout.** -/
theorem Inserted.layout (htx : txn.Ok) (hw : w.Ok sha256) (hl : Layout sha256 s)
    (h : Inserted txn w s s') : Layout sha256 s' := by
  refine ⟨h.ok, fun k d => h.copies k d (hl.copies k d), h.backed htx hw hl, fun x hx hd he => ?_,
    fun x hx hd he => ?_⟩
  · rw [(h.frame htx hw).base x hd he] at hx
    exact hl.base x hx hd he
  · exact (h.written hw hx hd).elim (fun hxs => hl.written x hxs hd he) id

end Insertion

/-! ### Requests keep the invariant -/

section Requests

variable {sha256 : Bytes → Value} {o : Oracle} {s s' : Store} {ns : Nat}

theorem repInv_nil : RepInv sha256 [] := by
  refine ⟨⟨OrderedMap.Ok.nil, ?_, ?_, ?_, ?_⟩, ?_, ?_, ?_, ?_, ?_⟩ <;>
    simp [getMeta, mdbGet, OrderedMap.find?, nsExists]

theorem RepInv.positive (hr : RepInv sha256 s) : Positive s := by
  intro x hx hd
  by_cases he : x.1.e < dbInitialId
  · exact (setupWrites_datom (hr.base x hx hd he) hd).1
  · simp only [dbInitialId] at he
    omega

theorem RepInv.sound (hr : RepInv sha256 s) : Sound s := by
  refine ⟨hr.ok, hr.positive, hr.tx_range, hr.id_pos, fun x hx _ => ?_, hr.times⟩
  obtain ⟨tx, -, htx, -⟩ := hr.known x hx
  simp [nsExists, htx]

/-- A namespace that does not exist has no keys. -/
theorem RepInv.fresh (h : RepInv sha256 s) (hns : nsExists s ns = false) : ∀ x ∈ s, x.1.ns ≠ ns := by
  intro x hx hc
  obtain ⟨tx, -, htx, -⟩ := h.known x hx
  rw [hc] at htx
  simp [nsExists, htx] at hns

/-- The base facts of a new namespace fit the layout. -/
theorem SetUp.layout (h : SetUp ns s s') (hl : Layout sha256 s) : Layout sha256 s' := by
  have hown : ∀ x ∈ s', x.1.IsDatom → x.1.ns = ns → x ∈ setupWrites ns := fun x hx hd hn =>
    (h.own x hn fun hc => not_isDatom_of_meta hc hd).mp hx
  refine ⟨h.ok, fun k d => ?_, fun x hx ht => ?_, fun x hx hd he => ?_, fun x hx hd he => ?_⟩
  · by_cases hk : k.type = .keyInteger ∨ k.type = .keyBlob
    · have hmeta : k.type ≠ .keyMeta := fun hc => by rw [hc] at hk; exact absurd hk (by simp)
      by_cases hn : k.ns = ns
      · rw [h.own _ hn hmeta, h.own _ hn hmeta]
        exact setupWrites_copies ns k d
      · rw [h.foreign _ hn, h.foreign _ hn]
        exact hl.copies k d
    · exact ⟨fun hc => absurd hc (not_mem_of_type h.ok hk (Or.inr rfl)),
        fun hc => absurd hc.2 (not_mem_of_type h.ok hk (Or.inl rfl))⟩
  · by_cases hn : x.1.ns = ns
    · obtain ⟨x₀, hx₀, rfl⟩ := mem_setupWrites.mp ((h.own x hn (by rw [ht]; simp)).mp hx)
      obtain ⟨y, hy, hd, hsort, ha, hv, he⟩ := setupWrites_zero.2.2.2.1 x₀ hx₀ ht
      have hyw : setNs ns y ∈ setupWrites ns := mem_setupWrites.mpr ⟨y, hy, rfl⟩
      refine ⟨_, (h.own _ rfl (setupWrites_ne_meta hyw)).mpr hyw, hd, hsort, rfl, ha, hv, ?_, he⟩
      rw [(setupWrites_datom hyw hd).2.2.1]
      rfl
    · obtain ⟨y, hy, hb⟩ := hl.backed x ((h.foreign x hn).mp hx) ht
      exact ⟨y, (h.foreign y (by rw [hb.ns]; exact hn)).mpr hy, hb⟩
  · by_cases hn : x.1.ns = ns
    · rw [hn]
      exact hown x hx hd hn
    · exact hl.base x ((h.foreign x hn).mp hx) hd he
  · by_cases hn : x.1.ns = ns
    · have := (setupWrites_datom (hown x hx hd hn) hd).2.1
      omega
    · exact hl.written x ((h.foreign x hn).mp hx) hd he

theorem SetUp.repInv (h : SetUp ns s s') (hr : RepInv sha256 s) : RepInv sha256 s' := by
  refine ⟨h.layout hr.toLayout, fun x hx => ?_, fun n tx hn hget => ?_, fun n id hn hget => ?_,
    fun x hx hd tx hget => ?_, fun n hn hexists x hx hd => ?_⟩
  · by_cases hxn : x.1.ns = ns
    · rw [hxn]
      exact ⟨_, _, h.tx, h.id⟩
    · have hx' := (h.foreign x hxn).mp hx
      have hlt := (hr.ok.keys x hx').ns_lt
      rw [h.getMeta_foreign hr.ok hlt hxn (by decide), h.getMeta_foreign hr.ok hlt hxn (by decide)]
      exact hr.known x hx'
  · by_cases hne : n = ns
    · rw [hne, h.tx, Option.some.injEq] at hget
      omega
    · rw [h.getMeta_foreign hr.ok hn hne (by decide)] at hget
      exact hr.tx_range n tx hn hget
  · by_cases hne : n = ns
    · rw [hne, h.id, Option.some.injEq] at hget
      omega
    · rw [h.getMeta_foreign hr.ok hn hne (by decide)] at hget
      exact hr.id_pos n id hn hget
  · by_cases hxn : x.1.ns = ns
    · have hw := (h.own x hxn fun hc => not_isDatom_of_meta hc hd).mp hx
      rw [hxn, h.tx, Option.some.injEq] at hget
      rw [(setupWrites_datom hw hd).2.2.1]
      omega
    · have hx' := (h.foreign x hxn).mp hx
      rw [h.getMeta_foreign hr.ok (hr.ok.keys x hx').ns_lt hxn (by decide)] at hget
      exact hr.times x hx' hd tx hget
  · obtain ⟨y, -, rfl⟩ := mem_setupWrites.mp hx
    by_cases hne : n = ns
    · subst hne
      exact (h.own _ rfl (setupWrites_ne_meta hx)).mpr hx
    · rw [nsExists, h.getMeta_foreign hr.ok hn hne (by decide)] at hexists
      exact (h.foreign _ hne).mpr (hr.based n hn hexists _ hx hd)

/-- What setting up a namespace does to a store that keeps the invariant. -/
theorem setup_cases (hr : RepInv sha256 s) (ho : o.SetupFaultless) (hns : ns < 2 ^ 31) :
    (setup o s ns).2 = s ∨ (nsExists s ns = false ∧ SetUp ns s (setup o s ns).2) := by
  rw [setup_eq ho]
  split
  · exact Or.inl rfl
  · rename_i hex
    have hex : nsExists s ns = false := by simpa using hex
    exact Or.inr ⟨hex, puts_setUp hr.ok hns (hr.fresh hex)⟩

private theorem repInv_setup (hr : RepInv sha256 s) (ho : o.SetupFaultless) (hns : ns < 2 ^ 31) :
    RepInv sha256 (setup o s ns).2 := by
  rcases setup_cases hr ho hns with h | ⟨-, h⟩
  · rw [h]; exact hr
  · exact h.repInv hr

theorem Layout.putMeta (hl : Layout sha256 s) (hns : ns < 2 ^ 31) {id val : Int}
    (hid : 0 ≤ id ∧ id < 5) : Layout sha256 (putMeta s ns id val) := by
  have hmem : ∀ {x : Entry}, x.1.type ≠ .keyMeta → (x ∈ Nstore.putMeta s ns id val ↔ x ∈ s) :=
    fun hx => mem_putMeta hl.ok hns hid hx
  have hdatom : ∀ {x : Entry}, x.1.IsDatom → (x ∈ Nstore.putMeta s ns id val ↔ x ∈ s) := fun hd =>
    hmem fun hc => not_isDatom_of_meta hc hd
  refine ⟨putMeta_ok hl.ok hns hid, fun k d => ?_, fun x hx ht => ?_, fun x hx hd he => ?_,
    fun x hx hd he => ?_⟩
  · by_cases hk : k.type = .keyInteger ∨ k.type = .keyBlob
    · rw [hdatom ⟨hk, Or.inr rfl⟩, hdatom ⟨hk, Or.inl rfl⟩]
      exact hl.copies k d
    · have hok : StoreOk (Nstore.putMeta s ns id val) := putMeta_ok hl.ok hns hid
      exact ⟨fun hc => absurd hc (not_mem_of_type hok hk (Or.inr rfl)),
        fun hc => absurd hc.2 (not_mem_of_type hok hk (Or.inl rfl))⟩
  · obtain ⟨y, hy, hb⟩ := hl.backed x ((hmem (by rw [ht]; simp)).mp hx) ht
    exact ⟨y, (hdatom hb.isDatom).mpr hy, hb⟩
  · exact hl.base x ((hdatom hd).mp hx) hd he
  · exact hl.written x ((hdatom hd).mp hx) hd he

/-- All that a committed transaction changes, for a store that keeps the invariant. -/
structure Committed (sha256 : Bytes → Value) (ns : Nat) (tx : Int) (s s' : Store) : Prop where
  layout : Layout sha256 s'
  exists_before : getMeta s ns metaTx = some tx
  tx_le : tx + 1 ≤ 2 ^ 29
  foreign : ∀ x : Entry, x.1.ns ≠ ns → (x ∈ s' ↔ x ∈ s)
  datoms : ∀ x : Entry, x.1.IsDatom → x.1.t / 2 ≠ tx → (x ∈ s' ↔ x ∈ s)
  base : ∀ x : Entry, x.1.IsDatom → x.1.e < dbInitialId → (x ∈ s' ↔ x ∈ s)
  tx : getMeta s' ns metaTx = some (tx + 1)
  id : ∃ id, getMeta s' ns metaId = some id ∧ dbInitialId ≤ id

/-- **What a transaction in range does, if it commits.** -/
theorem transact_committed {facts : List Json} {r : Reply} (hr : RepInv sha256 s)
    (hns : ns < 2 ^ 31) (hfacts : ∀ v ∈ facts, v.FactInRange)
    (h : transact sha256 o s ns facts = some (r, s')) (htx : CounterInRange s' ns metaTx)
    (hid : CounterInRange s' ns metaId) :
    ∃ tx fs ids, r = .response tx fs ids ∧ Committed sha256 ns tx s s' := by
  obtain ⟨tx, id, st, hgtx, hgid, hloop, rfl, rfl⟩ := transact_cases h
  obtain ⟨h1, h2⟩ := getMeta_commitStore ns tx st (lt_trans hns (by norm_num))
  have hframe := transactLoop_transacted hr.sound hns hfacts hgtx hgid hloop (htx _ h1) (hid _ h2)
  have htxn : (beginTxn o s ns tx).Ok :=
    transact_txn_ok hr.sound hns hgtx (by have := hframe.tx_le; omega)
  have hlay : Layout sha256 st.store :=
    transactLoop_invariant htxn (Layout sha256) (fun _ h => h.ok)
      (fun s₁ s₂ w hinv hw hins => hins.layout htxn hw hinv) hfacts
      (beginState_ids_ok hr.sound hns hgid) hr.toLayout hloop (hid _ h2)
  exact ⟨tx, st.newFacts, st.ids.newIds, rfl,
    (hlay.putMeta hns (by decide)).putMeta hns (by decide), hframe.exists_before, hframe.tx_le,
    hframe.foreign, hframe.datoms, hframe.base, hframe.tx, hframe.id⟩

theorem Committed.transacted {tx : Int} (h : Committed sha256 ns tx s s') : Transacted ns tx s s' :=
  ⟨h.layout.ok, h.exists_before, h.tx_le, h.foreign, h.datoms, h.base, h.tx, h.id⟩

theorem Committed.getMeta_foreign {tx : Int} (h : Committed sha256 ns tx s s') (hs : StoreOk s)
    {n : Nat} (hn : n < 2 ^ 31) (hne : n ≠ ns) {id : Int} (hid : 0 ≤ id ∧ id < 5) :
    getMeta s' n id = getMeta s n id :=
  h.transacted.getMeta_foreign hs hn hne hid

theorem Committed.repInv {tx : Int} (h : Committed sha256 ns tx s s') (hns : ns < 2 ^ 31)
    (hr : RepInv sha256 s) : RepInv sha256 s' := by
  have hsound := h.transacted.sound hns hr.sound
  obtain ⟨id', hid, -⟩ := h.id
  refine ⟨h.layout, fun x hx => ?_, hsound.tx_range, hsound.id_pos, hsound.times,
    fun n hn hexists x hx hd => ?_⟩
  · by_cases hxn : x.1.ns = ns
    · rw [hxn]
      exact ⟨_, _, h.tx, hid⟩
    · have hx' := (h.foreign x hxn).mp hx
      have hlt := (hr.ok.keys x hx').ns_lt
      rw [h.getMeta_foreign hr.ok hlt hxn (by decide), h.getMeta_foreign hr.ok hlt hxn (by decide)]
      exact hr.known x hx'
  · have he := (setupWrites_datom hx hd).2.1
    rw [h.base x hd he]
    refine hr.based n hn ?_ x hx hd
    by_cases hne : n = ns
    · rw [hne, nsExists, h.exists_before]
      rfl
    · rwa [nsExists, h.getMeta_foreign hr.ok hn hne (by decide)] at hexists

/-- What a request in range does to a store that keeps the invariant. -/
theorem step_cases {i : Input} (hr : RepInv sha256 s) (hi : InputInRange sha256 s i) :
    (step sha256 s i = s ∧ ∀ n, isCommit sha256 n s i = false) ∨
    (∃ n, n < 2 ^ 31 ∧ i.2.on n = true ∧ nsExists s n = false ∧ SetUp n s (step sha256 s i) ∧
      ∀ m, isCommit sha256 m s i = false) ∨
    (∃ n tx fs ids arg, i.2 = .transact n arg ∧ n < 2 ^ 31 ∧ reply sha256 s i = .response tx fs ids ∧
      Committed sha256 n tx s (step sha256 s i)) := by
  obtain ⟨o, q⟩ := i
  cases q with
  | newNamespace arg =>
      obtain ⟨ho, hns⟩ := hi
      rcases step_newNamespace_cases sha256 o s arg with h | ⟨m, rfl, h⟩
      · exact Or.inl ⟨h, fun _ => rfl⟩
      · rw [h]
        rcases setup_cases hr ho (hns m rfl) with hsame | ⟨h1, h2⟩
        · exact Or.inl ⟨hsame, fun _ => rfl⟩
        · exact Or.inr (Or.inl ⟨_, hns m rfl, by simp [Request.on, Request.creates], h1, h2, fun _ => rfl⟩)
  | transact n arg =>
      obtain ⟨hns, hfacts, htx, hid⟩ := hi
      rcases handleTransact_cases sha256 o s n arg with h | ⟨facts, p, harg, -, htr, h⟩
      · refine Or.inl ⟨congrArg Prod.snd h, fun m => ?_⟩
        simp only [isCommit, reply, serve, h]
      · have hstep : step sha256 s (o, .transact n arg) = p.2 := congrArg Prod.snd h
        rw [hstep] at htx hid ⊢
        obtain ⟨tx, fs, ids, hrep, hc⟩ := transact_committed hr hns (hfacts facts harg) htr htx hid
        exact Or.inr (Or.inr ⟨n, tx, fs, ids, arg, rfl, hns, (congrArg Prod.fst h).trans hrep, hc⟩)
  | facts n arg => exact Or.inl ⟨rfl, fun _ => rfl⟩

theorem repInv_step {i : Input} (hr : RepInv sha256 s) (hi : InputInRange sha256 s i) :
    RepInv sha256 (step sha256 s i) := by
  rcases step_cases hr hi with ⟨h, -⟩ | ⟨n, -, -, -, h, -⟩ | ⟨n, tx, fs, ids, arg, -, hns, -, h⟩
  · rw [h]; exact hr
  · exact h.repInv hr
  · exact h.repInv hns hr

/-- A request raises the transaction counter of a namespace if it commits there. -/
theorem getMeta_step {i : Input} (hr : RepInv sha256 s) (hi : InputInRange sha256 s i)
    (hns : ns < 2 ^ 31) :
    (getMeta (step sha256 s i) ns metaTx).getD 1 =
      (getMeta s ns metaTx).getD 1 + if isCommit sha256 ns s i then 1 else 0 := by
  rcases step_cases hr hi with ⟨h, hc⟩ | ⟨n, -, -, hex, h, hc⟩ |
    ⟨n, tx, fs, ids, arg, hq, hn, hrep, h⟩
  · rw [h, hc]
    simp
  · rw [hc]
    by_cases hne : ns = n
    · subst hne
      have hnone : getMeta s ns metaTx = none := by simpa [nsExists] using hex
      rw [h.tx, hnone]
      rfl
    · rw [h.getMeta_foreign hr.ok hns hne (by decide)]
      simp
  · have hcommit : isCommit sha256 ns s i = decide (n = ns) := by
      simp only [isCommit, hq, hrep]
    rw [hcommit]
    by_cases hne : ns = n
    · subst hne
      rw [h.tx, h.exists_before]
      simp
    · rw [h.getMeta_foreign hr.ok hns hne (by decide)]
      simp [Ne.symm hne]

theorem repInv_dbOpen (ho : o.SetupFaultless) : RepInv sha256 (dbOpen o []) :=
  repInv_setup repInv_nil ho (by decide)

end Requests

/-! ### Whole runs -/

/-- The store invariant of one namespace, with the number of its committed transactions. -/
structure NamespaceInv (s : Store) (n : Nat) (count : Int) : Prop where
  tx : getMeta s n metaTx = some (1 + count)
  times : ∀ x ∈ s, x.1.ns = n → x.1.IsDatom → 0 ≤ x.1.t / 2 ∧ x.1.t / 2 < 1 + count
  copies : ∀ (k : CustomKey) (d : Item), k.ns = n → (({ k with sort := sortAETV }, d) ∈ s ↔
    k.a < dbInitialId ∧ ({ k with sort := sortEATV }, d) ∈ s)
  backed : ∀ x ∈ s, x.1.ns = n → x.1.type = .keyUnique → ∃ y ∈ s, Backs x y
  base : ∀ x ∈ s, x.1.ns = n → x.1.IsDatom → x.1.e < dbInitialId → x ∈ setupWrites n ∧ x.1.t = 0

section Runs

variable {sha256 : Bytes → Value} {s : Store} {is : List Input} {n : Nat}

open Machine

theorem repInv_run (hr : RepInv sha256 s) (h : Along (step sha256) (InputInRange sha256) s is) :
    RepInv sha256 (run (step sha256) s is) :=
  Along.invariant (RepInv sha256) (fun _ _ hr hi => repInv_step hr hi) hr h

theorem getMeta_run (hn : n < 2 ^ 31) : ∀ {is : List Input} {s : Store}, RepInv sha256 s →
    Along (step sha256) (InputInRange sha256) s is →
    (getMeta (run (step sha256) s is) n metaTx).getD 1 =
      (getMeta s n metaTx).getD 1 + commits sha256 n s is := by
  intro is
  induction is with
  | nil => intro s _ _; simp [run, commits]
  | cons i is ih =>
      intro s hr h
      have hrest := ih (repInv_step hr h.1) h.2
      rw [getMeta_step hr h.1 hn] at hrest
      show (getMeta (run (step sha256) (step sha256 s i) is) n metaTx).getD 1 = _
      rw [hrest, commits]
      push_cast
      split <;> omega

/--
**The representation invariant.**  In every store a run reaches, in range, from an
empty database, each namespace that exists has its counters, datoms, copies and
index in step.
-/
theorem run_namespaceInv {o : Oracle} (ho : o.SetupFaultless)
    (h : Along (step sha256) (InputInRange sha256) (dbOpen o []) is) (hn : n < 2 ^ 31)
    (hex : nsExists (run (step sha256) (dbOpen o []) is) n = true) :
    NamespaceInv (run (step sha256) (dbOpen o []) is) n (commits sha256 n (dbOpen o []) is) := by
  have hr := repInv_run (repInv_dbOpen ho) h
  have hcount := getMeta_run hn (repInv_dbOpen ho) h
  have hopen : (getMeta (dbOpen o []) n metaTx).getD 1 = 1 := by
    rcases setup_cases (repInv_nil : RepInv sha256 []) ho (by decide : 0 < 2 ^ 31) with h | ⟨-, h⟩
    · show (getMeta (setup o [] 0).2 n metaTx).getD 1 = 1
      rw [h]
      rfl
    · show (getMeta (setup o [] 0).2 n metaTx).getD 1 = 1
      by_cases hn0 : n = 0
      · rw [hn0, h.tx]
        rfl
      · rw [h.getMeta_foreign OrderedMap.Ok.nil hn hn0 (by decide)]
        rfl
  obtain ⟨tx, htx⟩ := Option.isSome_iff_exists.mp hex
  rw [hopen, htx, Option.getD_some] at hcount
  rw [hcount] at htx
  refine ⟨htx, fun x hx hxn hd => ⟨?_, ?_⟩, fun k d _ => hr.copies k d, fun x hx _ => hr.backed x hx,
    fun x hx hxn hd he => ?_⟩
  · have := (hr.ok.keys x hx).t_range
    omega
  · exact hr.times x hx hd _ (hxn ▸ htx)
  · have hw := hr.base x hx hd he
    exact ⟨hxn ▸ hw, (setupWrites_datom hw hd).2.2.1⟩

end Runs

/-- A transaction is in range if its elements are and its counters after it. -/
theorem inputInRange_of_counters {sha256 : Bytes → Value} {o : Oracle} {s : Store}
    {ns : Nat} {facts : List Json} {tx id : Int} (hns : ns < 2 ^ 31)
    (hfacts : ∀ v ∈ facts, v.FactInRange)
    (hget : getMeta (step sha256 s (o, .transact ns (some (.array facts)))) ns metaTx = some tx ∧
      getMeta (step sha256 s (o, .transact ns (some (.array facts)))) ns metaId = some id)
    (hle : tx ≤ 2 ^ 29 ∧ id ≤ 2 ^ 29) :
    InputInRange sha256 s (o, .transact ns (some (.array facts))) := by
  refine ⟨hns, fun fs hfs => ?_, fun x hx => ?_, fun x hx => ?_⟩
  · cases hfs
    exact hfacts
  · cases hget.1.symm.trans hx
    exact hle.1
  · cases hget.2.symm.trans hx
    exact hle.2

/-- A namespace, and a fact about a new entity in namespace 0. -/
def sampleRun : List Input :=
  [(.calm, .newNamespace (some (.int64 1))),
    (.calm, .transact 0 (some (.array [.array [.int64 (-1), .int64 100, .int64 5, .int64 0]])))]

theorem sampleRun_along :
    Machine.Along (step .ofBytes) (InputInRange .ofBytes) (dbOpen .calm []) sampleRun := by
  have hget : getMeta (Machine.run (step .ofBytes) (dbOpen .calm []) sampleRun) 0 metaTx = some 2 ∧
      getMeta (Machine.run (step .ofBytes) (dbOpen .calm []) sampleRun) 0 metaId = some 12 := by
    decide +kernel
  refine ⟨⟨Oracle.calm_faultless.setup, fun m hm => ?_⟩, ?_, trivial⟩
  · cases hm
    show toNamespace 1 < 2 ^ 31
    decide
  · refine inputInRange_of_counters (by norm_num) (fun v hv => ?_) hget (by norm_num)
    rw [List.mem_singleton.mp hv]
    decide

theorem run_namespaceInv_sample :
    NamespaceInv (Machine.run (step .ofBytes) (dbOpen .calm []) sampleRun) 0
      (commits .ofBytes 0 (dbOpen .calm []) sampleRun) :=
  run_namespaceInv Oracle.calm_faultless.setup sampleRun_along (by norm_num) (by decide +kernel)

end Nstore

/-
What every store keeps, whatever fails.

`setup` drops the code of a put that fails, and its caller commits what there is,
so a namespace can be left without some of its base facts.  What the store keeps
even then is little, but it is enough to know what a request leaves alone: keys
stay in range and in order, and times below the counter of their namespace.
-/
import Nstore.Proofs.Transact

namespace Nstore

open Machine

/-! ### The invariant -/

/-- What every store keeps, whatever fails. -/
structure Sound (s : Store) : Prop where
  ok : StoreOk s
  positive : Positive s
  tx_range : ∀ ns tx, ns < 2 ^ 31 → getMeta s ns metaTx = some tx → 1 ≤ tx ∧ tx ≤ 2 ^ 29
  id_pos : ∀ ns id, ns < 2 ^ 31 → getMeta s ns metaId = some id → dbInitialId ≤ id
  known : ∀ x ∈ s, x.1.type ≠ .keyMeta ∨ x.1.ns ≠ 0 → nsExists s x.1.ns = true
  times : ∀ x ∈ s, x.1.IsDatom → ∀ tx, getMeta s x.1.ns metaTx = some tx → x.1.t / 2 < tx

/-- A request whose namespace, numbers and strings are in range, whatever fails in it. -/
def InputBounded (sha256 : Bytes → Value) (s : Store) (i : Input) : Prop :=
  match i.2 with
  | .newNamespace arg => ∀ m, arg = some (.int64 m) → NsInRange (toNamespace m.toInt)
  | .transact ns arg =>
      NsInRange ns ∧ (∀ fs, arg = some (.array fs) → ∀ v ∈ fs, v.FactInRange) ∧
        CounterInRange (step sha256 s i) ns metaTx ∧ CounterInRange (step sha256 s i) ns metaId
  | .facts _ _ => True

theorem InputInRange.bounded {sha256 : Bytes → Value} {s : Store} {i : Input}
    (hi : InputInRange sha256 s i) : InputBounded sha256 s i := by
  obtain ⟨o, q⟩ := i
  cases q with
  | newNamespace arg => exact hi.2
  | transact ns arg => exact hi
  | facts ns arg => trivial

section Steps

variable {sha256 : Bytes → Value} {o : Oracle} {s s' : Store} {ns : Nat}

theorem sound_nil : Sound [] := by
  refine ⟨OrderedMap.Ok.nil, ?_, ?_, ?_, ?_, ?_⟩ <;>
    simp [Positive, getMeta, mdbGet, OrderedMap.find?]

/-! ### Setting up a namespace -/

theorem PartlySetUp.sound (h : PartlySetUp ns s s') (hex : nsExists s ns = false) (hr : Sound s) :
    Sound s' := by
  -- a key of the namespace that is no counter is one of its base facts
  have hown : ∀ x ∈ s', x.1.ns = ns → x.1.type ≠ .keyMeta → x ∈ setupWrites ns := by
    intro x hx hn ht
    rcases h.added x hx with hx | hx
    · have := hr.known x hx (Or.inl ht)
      rw [hn, hex] at this
      exact absurd this (by simp)
    · exact (mem_setupEntries ht).mp hx
  have htx : ∀ tx, getMeta s' ns metaTx = some tx → tx = 1 := by
    intro tx hget
    rcases h.tx with h | ⟨h, -⟩
    · exact (Option.some.inj (h.symm.trans hget)).symm
    · exact absurd (h.symm.trans hget) (by simp)
  refine ⟨h.ok, fun x hx hd => ?_, fun n tx hn hget => ?_, fun n id hn hget => ?_,
    fun x hx ht => ?_, fun x hx hd tx hget => ?_⟩
  · rcases h.added x hx with hx | hx
    · exact hr.positive x hx hd
    · exact (setupWrites_datom ((mem_setupEntries fun hc => not_isDatom_of_meta hc hd).mp hx) hd).1
  · by_cases hne : n = ns
    · have := htx tx (hne ▸ hget)
      omega
    · rw [h.getMeta_foreign hr.ok hn hne (by decide)] at hget
      exact hr.tx_range n tx hn hget
  · by_cases hne : n = ns
    · subst hne
      rcases h.id with h | h
      · exact hr.id_pos n id hn (h ▸ hget)
      · rw [h, Option.some.injEq] at hget
        omega
    · rw [h.getMeta_foreign hr.ok hn hne (by decide)] at hget
      exact hr.id_pos n id hn hget
  · by_cases hxn : x.1.ns = ns
    · rcases h.tx with h | ⟨-, hall⟩
      · rw [nsExists, hxn, h]
        rfl
      · have := hr.known x (hall x hx (hxn ▸ ht)) ht
        rw [hxn, hex] at this
        exact absurd this (by simp)
    · have hx' := (h.foreign x hxn).mp hx
      rw [nsExists, h.getMeta_foreign hr.ok (hr.ok.keys x hx').ns_lt hxn (by decide)]
      exact hr.known x hx' ht
  · by_cases hxn : x.1.ns = ns
    · have hw := hown x hx hxn fun hc => not_isDatom_of_meta hc hd
      have := htx tx (hxn ▸ hget)
      rw [(setupWrites_datom hw hd).2.2.1]
      omega
    · have hx' := (h.foreign x hxn).mp hx
      rw [h.getMeta_foreign hr.ok (hr.ok.keys x hx').ns_lt hxn (by decide)] at hget
      exact hr.times x hx' hd tx hget

theorem setup_cases_partly (hs : StoreOk s) (hns : ns < 2 ^ 31) :
    (nsExists s ns = true ∧ (setup o s ns).2 = s) ∨
      (nsExists s ns = false ∧ PartlySetUp ns s (setup o s ns).2) := by
  cases hex : nsExists s ns with
  | true =>
      refine Or.inl ⟨rfl, ?_⟩
      rw [setup, if_pos hex]
  | false => exact Or.inr ⟨rfl, setup_partlySetUp hs hns hex⟩

private theorem sound_setup (hr : Sound s) (hns : ns < 2 ^ 31) : Sound (setup o s ns).2 := by
  rcases setup_cases_partly (o := o) hr.ok hns with ⟨-, h⟩ | ⟨hex, h⟩
  · rw [h]
    exact hr
  · exact h.sound hex hr

/-! ### Transactions -/

theorem getMeta_commitStore (ns : Nat) (tx : Int) (st : TxnState) (hns : ns < 2 ^ 32) :
    getMeta (commitStore ns tx st) ns metaTx = some (tx + 1) ∧
      getMeta (commitStore ns tx st) ns metaId = some st.ids.id := by
  refine ⟨?_, getMeta_putMeta _ _ _ _⟩
  unfold commitStore
  rw [getMeta_putMeta_ne hns hns (by decide) (by decide) (Or.inr (by decide)),
    getMeta_putMeta]

theorem mem_commitStore {tx : Int} {st : TxnState} (hs : StoreOk st.store) (hns : ns < 2 ^ 31)
    {x : Entry} (hx : x.1.type ≠ .keyMeta) : x ∈ commitStore ns tx st ↔ x ∈ st.store := by
  unfold commitStore
  rw [mem_putMeta (putMeta_ok hs hns (by decide)) hns (by decide) hx,
    mem_putMeta hs hns (by decide) hx]

/-- Counters of other namespaces are not touched by the commit. -/
theorem mem_commitStore_foreign {tx : Int} {st : TxnState} (hs : StoreOk st.store)
    (hns : ns < 2 ^ 31) {x : Entry} (hx : x.1.ns ≠ ns) :
    x ∈ commitStore ns tx st ↔ x ∈ st.store := by
  have hput : ∀ (s : Store) (id val : Int), StoreOk s → 0 ≤ id ∧ id < 5 →
      (x ∈ putMeta s ns id val ↔ x ∈ s) := by
    intro s id val hs hid
    unfold putMeta
    rw [mem_mdbPut hs (metaKey_inRange hns hid.1 hid.2)]
    constructor
    · rintro (rfl | ⟨h, -⟩)
      · exact absurd rfl hx
      · exact h
    · exact fun h => Or.inr ⟨h, fun hc => hx (coords_eq_meta.mp hc).1⟩
  unfold commitStore
  rw [hput _ _ _ (putMeta_ok hs hns (by decide)) (by decide), hput _ _ _ hs (by decide)]

/-- A transaction in range: what is known as its loop begins. -/
theorem transact_txn_ok (hr : Sound s) (hns : ns < 2 ^ 31) {tx : Int}
    (htx : getMeta s ns metaTx = some tx) (hlt : tx < 2 ^ 29) : (beginTxn o s ns tx).Ok :=
  ⟨hns, by have := hr.tx_range ns tx hns htx; exact ⟨by show 0 ≤ tx; omega, hlt⟩⟩

theorem beginState_ids_ok (hr : Sound s) (hns : ns < 2 ^ 31) {id : Int}
    (hid : getMeta s ns metaId = some id) : (beginState s id).ids.Ok :=
  ⟨hr.id_pos ns id hns hid, fun p hp => absurd hp (by simp [beginState])⟩

/-- All that a committed transaction changes, whatever the store lacks. -/
structure Transacted (ns : Nat) (tx : Int) (s s' : Store) : Prop where
  ok : StoreOk s'
  exists_before : getMeta s ns metaTx = some tx
  tx_le : tx + 1 ≤ 2 ^ 29
  foreign : ∀ x : Entry, x.1.ns ≠ ns → (x ∈ s' ↔ x ∈ s)
  datoms : ∀ x : Entry, x.1.IsDatom → x.1.t / 2 ≠ tx → (x ∈ s' ↔ x ∈ s)
  base : ∀ x : Entry, x.1.IsDatom → x.1.e < dbInitialId → (x ∈ s' ↔ x ∈ s)
  tx : getMeta s' ns metaTx = some (tx + 1)
  id : ∃ id, getMeta s' ns metaId = some id ∧ dbInitialId ≤ id

/-- **What a transaction in range changes, if it commits.** -/
theorem transactLoop_transacted {facts : List Json} {tx id : Int} {st : TxnState} (hr : Sound s)
    (hns : ns < 2 ^ 31) (hfacts : ∀ v ∈ facts, v.FactInRange)
    (hgtx : getMeta s ns metaTx = some tx) (hgid : getMeta s ns metaId = some id)
    (hloop : transactLoop sha256 o (beginTxn o s ns tx) 0 (beginState s id) facts = some st)
    (htx : tx + 1 ≤ 2 ^ 29) (hid : st.ids.id ≤ 2 ^ 29) :
    Transacted ns tx s (commitStore ns tx st) := by
  obtain ⟨h1, h2⟩ := getMeta_commitStore ns tx st (lt_trans hns (by norm_num))
  have htxn : (beginTxn o s ns tx).Ok := transact_txn_ok hr hns hgtx (by omega)
  have hids := beginState_ids_ok hr hns hgid
  obtain ⟨hok, hframe⟩ : StoreOk st.store ∧ Frame (beginTxn o s ns tx) s st.store := by
    refine transactLoop_invariant htxn (fun s₁ => StoreOk s₁ ∧ Frame (beginTxn o s ns tx) s s₁)
      (fun s' h => h.1) (fun s₁ s₂ w hinv hw hins => ?_) hfacts hids ⟨hr.ok, Frame.refl _ _⟩ hloop hid
    exact ⟨hins.ok, hinv.2.trans (hins.frame htxn hw)⟩
  have hmem : ∀ {x : Entry}, x.1.IsDatom → (x ∈ commitStore ns tx st ↔ x ∈ st.store) := fun hd =>
    mem_commitStore hok hns fun hc => not_isDatom_of_meta hc hd
  refine ⟨putMeta_ok (putMeta_ok hok hns (by decide)) hns (by decide), hgtx, htx, fun x hx => ?_,
    fun x hd ht => ?_, fun x hd he => ?_, h1, st.ids.id, h2, (transactLoop_ids hids hloop).1.initial⟩
  · rw [mem_commitStore_foreign hok hns hx]
    exact hframe.foreign x hx
  · rw [hmem hd]
    exact hframe.datoms x hd ht
  · rw [hmem hd]
    exact hframe.base x hd he

theorem Transacted.getMeta_foreign {tx : Int} (h : Transacted ns tx s s') (hs : StoreOk s)
    {n : Nat} (hn : n < 2 ^ 31) (hne : n ≠ ns) {id : Int} (hid : 0 ≤ id ∧ id < 5) :
    getMeta s' n id = getMeta s n id :=
  getMeta_congr hs h.ok hn hid fun x hx _ => h.foreign x (hx ▸ hne)

theorem Transacted.sound {tx : Int} (h : Transacted ns tx s s') (hns : ns < 2 ^ 31)
    (hr : Sound s) : Sound s' := by
  obtain ⟨id', hid, hid11⟩ := h.id
  have hpos := hr.tx_range ns tx hns h.exists_before
  have hle := h.tx_le
  refine ⟨h.ok, fun x hx hd => ?_, fun n t hn hget => ?_, fun n i hn hget => ?_,
    fun x hx ht => ?_, fun x hx hd t hget => ?_⟩
  · by_cases he : x.1.e < dbInitialId
    · exact hr.positive x ((h.base x hd he).mp hx) hd
    · simp only [dbInitialId] at he
      omega
  · by_cases hne : n = ns
    · rw [hne, h.tx, Option.some.injEq] at hget
      omega
    · rw [h.getMeta_foreign hr.ok hn hne (by decide)] at hget
      exact hr.tx_range n t hn hget
  · by_cases hne : n = ns
    · rw [hne, hid, Option.some.injEq] at hget
      omega
    · rw [h.getMeta_foreign hr.ok hn hne (by decide)] at hget
      exact hr.id_pos n i hn hget
  · by_cases hxn : x.1.ns = ns
    · rw [nsExists, hxn, h.tx]
      rfl
    · have hx' := (h.foreign x hxn).mp hx
      rw [nsExists, h.getMeta_foreign hr.ok (hr.ok.keys x hx').ns_lt hxn (by decide)]
      exact hr.known x hx' ht
  · by_cases hxn : x.1.ns = ns
    · rw [hxn, h.tx, Option.some.injEq] at hget
      by_cases ht : x.1.t / 2 = tx
      · omega
      · have := hr.times x ((h.datoms x hd ht).mp hx) hd tx (by rw [hxn]; exact h.exists_before)
        omega
    · have hx' := (h.foreign x hxn).mp hx
      rw [h.getMeta_foreign hr.ok (hr.ok.keys x hx').ns_lt hxn (by decide)] at hget
      exact hr.times x hx' hd t hget

/-! ### Steps and runs -/

/-- A request that commits a transaction in range, and how its loop ends. -/
structure Commits (sha256 : Bytes → Value) (i : Input) (s : Store) (n : Nat) (tx : Int)
    (fs : List Json) (st : TxnState) : Prop where
  request : i.2 = .transact n (some (.array fs))
  ns_lt : n < 2 ^ 31
  isCommit : isCommit sha256 n s i = true
  facts : ∀ v ∈ fs, v.FactInRange
  loop : ∃ id, getMeta s n metaId = some id ∧
    transactLoop sha256 i.1 (beginTxn i.1 s n tx) 0 (beginState s id) fs = some st
  bound : st.ids.id ≤ 2 ^ 29
  store : step sha256 s i = commitStore n tx st
  transacted : Transacted n tx s (step sha256 s i)

/-- What a request in range does to a store, whatever fails. -/
theorem sound_step_cases {i : Input} (hr : Sound s) (hi : InputBounded sha256 s i) :
    (step sha256 s i = s ∧ ∀ n, isCommit sha256 n s i = false) ∨
    (∃ n, n < 2 ^ 31 ∧ i.2.on n = true ∧ nsExists s n = false ∧
      PartlySetUp n s (step sha256 s i) ∧ ∀ m, isCommit sha256 m s i = false) ∨
    (∃ n tx fs st, Commits sha256 i s n tx fs st) := by
  obtain ⟨o, q⟩ := i
  cases q with
  | newNamespace arg =>
      rcases step_newNamespace_cases sha256 o s arg with h | ⟨m, rfl, h⟩
      · exact Or.inl ⟨h, fun _ => rfl⟩
      · have hns : toNamespace m.toInt < 2 ^ 31 := hi m rfl
        rw [h]
        rcases setup_cases_partly (o := o) hr.ok hns with ⟨-, hsame⟩ | ⟨h1, h2⟩
        · exact Or.inl ⟨hsame, fun _ => rfl⟩
        · exact Or.inr (Or.inl ⟨_, hns, by simp [Request.on, Request.creates], h1, h2, fun _ => rfl⟩)
  | transact n arg =>
      obtain ⟨hns, hfacts, htx, hid⟩ := hi
      rcases handleTransact_cases sha256 o s n arg with h | ⟨facts, p, rfl, -, htr, h⟩
      · refine Or.inl ⟨congrArg Prod.snd h, fun m => ?_⟩
        simp only [isCommit, reply, serve, h]
      · have hstep : step sha256 s (o, .transact n (some (.array facts))) = p.2 :=
          congrArg Prod.snd h
        have hrep : reply sha256 s (o, .transact n (some (.array facts))) = p.1 :=
          congrArg Prod.fst h
        obtain ⟨tx, id, st, hgtx, hgid, hloop, hs', hr'⟩ := transact_cases htr
        obtain ⟨h1, h2⟩ := getMeta_commitStore n tx st (lt_trans hns (by norm_num))
        rw [hstep, hs'] at htx hid
        refine Or.inr (Or.inr ⟨n, tx, facts, st, rfl, hns, ?_, hfacts facts rfl, ⟨id, hgid, hloop⟩,
          hid _ h2, hstep.trans hs', ?_⟩)
        · simp only [isCommit, hrep, hr', decide_true]
        · rw [hstep, hs']
          exact transactLoop_transacted hr hns (hfacts facts rfl) hgtx hgid hloop (htx _ h1)
            (hid _ h2)
  | facts n arg => exact Or.inl ⟨rfl, fun _ => rfl⟩

theorem sound_step {i : Input} (hr : Sound s) (hi : InputBounded sha256 s i) :
    Sound (step sha256 s i) := by
  rcases sound_step_cases hr hi with ⟨h, -⟩ | ⟨n, -, -, hex, h, -⟩ |
    ⟨n, tx, fs, st, h⟩
  · rw [h]
    exact hr
  · exact h.sound hex hr
  · exact h.transacted.sound h.ns_lt hr

theorem nsExists_step {i : Input} {n : Nat} (hr : Sound s)
    (hi : InputBounded sha256 s i) (hn : n < 2 ^ 31)
    (hex : nsExists s n = true) : nsExists (step sha256 s i) n = true := by
  unfold nsExists
  rcases sound_step_cases hr hi with ⟨h, -⟩ | ⟨m, -, -, hm, h, -⟩ |
    ⟨m, t, fs, st, hc⟩
  · rw [h]
    exact hex
  · have hne : n ≠ m := by
      rintro rfl
      rw [hm] at hex
      exact absurd hex (by simp)
    rw [h.getMeta_foreign hr.ok hn hne (by decide)]
    exact hex
  · have h := hc.transacted
    by_cases hne : n = m
    · rw [hne, h.tx]
      rfl
    · rw [h.getMeta_foreign hr.ok hn hne (by decide)]
      exact hex

/-- A datom once stored stays. -/
theorem mem_step_of_datom {i : Input} (hr : Sound s) (hi : InputBounded sha256 s i) {x : Entry} (hx : x ∈ s)
    (hd : x.1.IsDatom) : x ∈ step sha256 s i := by
  have hex := hr.known x hx (Or.inl fun hc => not_isDatom_of_meta hc hd)
  rcases sound_step_cases hr hi with ⟨h, -⟩ | ⟨m, -, -, hm, h, -⟩ |
    ⟨m, t, fs, st, hc⟩
  · rw [h]
    exact hx
  · refine (h.foreign x fun hc => ?_).mpr hx
    rw [hc, hm] at hex
    exact absurd hex (by simp)
  · have h := hc.transacted
    by_cases hne : x.1.ns = m
    · have hlt := hr.times x hx hd t (hne ▸ h.exists_before)
      exact (h.datoms x hd (by omega)).mpr hx
    · exact (h.foreign x hne).mpr hx

theorem sound_dbOpen (o : Oracle) : Sound (dbOpen o []) := sound_setup sound_nil (by decide)

/-- **Every store a run in range reaches is sound, whatever fails in it.** -/
theorem sound_run {is : List Input} (hr : Sound s)
    (h : Along (step sha256) (InputBounded sha256) s is) : Sound (run (step sha256) s is) :=
  Along.invariant Sound (fun _ _ hr hi => sound_step hr hi) hr h

end Steps

end Nstore

/-
A value of a unique attribute has one holder.

`Indexed` is carried along a run from the state in which the attribute was
declared, or for `db_ident` from the start.  In the facts as they are now an
entity shows its last value, so two holders of one value would both own its index
entry.

Idents of base entities that `setup` does not index are told apart from each other
by their names, and from all others because no write may claim them.
-/
import Nstore.Proofs.Unique

namespace Nstore

open Machine

/-! ### Values and payloads -/

/-- What a datom shows tells its payload. -/
def Faithful (sha256 : Bytes → Value) (x : Entry) : Prop :=
  x.1.v = (encodeFact sha256 (decode x)).v

theorem decode_short {x : Entry} {str : Bytes} (htype : x.1.type = .keyBlob)
    (hlen : str.length ≤ 32) (hpad : x.1.pad = str.length + 1) (hv : x.1.v = .ofBytes str) :
    decode x = .str str := by
  have hpos : 0 < x.1.pad := by omega
  have hn : (x.1.pad - 1).toNat = str.length := by omega
  simp only [decode, htype, if_pos hpos, hn, hv, take_ofBytes hlen]

private theorem decode_long {x : Entry} {str : Bytes} (htype : x.1.type = .keyBlob)
    (hpad : x.1.pad ≤ 0)
    (hitem : x.2 = .blob (str ++ List.replicate (-x.1.pad).toNat 0)) : decode x = .str str := by
  have hsize : (x.2.size : Int) + x.1.pad = str.length := by
    rw [hitem]
    simp only [Item.size, Item.bytes, List.length_append, List.length_replicate]
    omega
  have hbytes : x.2.bytes = str ++ List.replicate (-x.1.pad).toNat 0 := by rw [hitem]; rfl
  simp only [decode, htype, if_neg (not_lt.mpr hpad), hsize, Int.toNat_natCast, hbytes,
    List.take_left]

/-- What a datom was encoded from is read back from it. -/
theorem decode_encoded {sha256 : Bytes → Value} {x : Entry} {enc : Encoded} (henc : enc.Ok sha256)
    (htype : x.1.type = enc.type) (hpad : x.1.pad = enc.pad) (hv : x.1.v = enc.v)
    (hitem : x.2 = enc.item) : decode x = enc.shown := by
  rcases henc with ⟨i, hi, rfl⟩ | ⟨str, -, rfl⟩
  · have htype : x.1.type = .keyInteger := htype
    have hv : x.1.v = Value.zero.setI i := hv
    simp only [decode, htype, hv]
    rw [Value.i_setI _ ⟨by omega, by omega⟩]
    rfl
  · by_cases hlen : str.length > 32
    · simp only [encodeStr, if_pos hlen, Encoded.item] at htype hpad hitem ⊢
      rw [← hpad] at hitem
      exact decode_long htype (by rw [hpad]; split <;> omega) hitem
    · simp only [encodeStr, if_neg hlen] at htype hpad hv ⊢
      exact decode_short htype (by omega) hpad hv

theorem WrittenAs.faithful {sha256 : Bytes → Value} {x : Entry} (h : WrittenAs sha256 x) :
    Faithful sha256 x := by
  obtain ⟨enc, henc, htype, hpad, hv, hitem⟩ := h
  unfold Faithful
  rw [decode_encoded henc htype hpad hv hitem, hv, ← henc.eq_encodeFact]

/-! ### The base idents -/

/-- The base idents are short strings, stored as such. -/
theorem setupIdents_zero_short : ∀ x ∈ setupWrites 0, x.1.IsDatom → x.1.a = dbIdent →
    x.1.type = .keyBlob ∧ 1 ≤ x.1.pad ∧ x.1.pad ≤ 33 ∧
      x.1.v = .ofBytes (x.1.v.bytes.take (x.1.pad - 1).toNat) := by
  decide +kernel

/-- No two of them are the same. -/
theorem setupIdents_zero_inj : ∀ x ∈ setupWrites 0, x.1.IsDatom → x.1.a = dbIdent →
    ∀ y ∈ setupWrites 0, y.1.IsDatom → y.1.a = dbIdent → x.1.v = y.1.v → x.1.e = y.1.e := by
  decide +kernel

/-- The first four are in the index. -/
theorem setupIdents_zero_index : ∀ x ∈ setupWrites 0, x.1.IsDatom → x.1.a = dbIdent →
    x.1.e < dbTypeValue → ∃ u ∈ setupWrites 0, u.1.type = .keyUnique ∧ u.1.a = dbIdent ∧
      u.1.v = x.1.v ∧ u.2 = .num x.1.e := by
  decide +kernel

/-- The others are not. -/
theorem setupIdents_zero_unindexed : ∀ x ∈ setupWrites 0, x.1.IsDatom → x.1.a = dbIdent →
    dbTypeValue ≤ x.1.e → x.1.v ∈ unindexedIdents := by
  decide +kernel

/-- `db_ident` is declared unique, and nothing else is said about that. -/
theorem setupIdents_zero_unique : ∃ x ∈ setupWrites 0, (x.1.IsDatom ∧ x.1.sort = sortAETV ∧
    x.1.e = dbIdent ∧ x.1.a = dbUnique ∧ decode x = .int dbUniqueYes) ∧
      ∀ y ∈ setupWrites 0, y.1.IsDatom → y.1.sort = sortAETV → y.1.e = dbIdent →
        y.1.a = dbUnique → y = x := by
  decide +kernel

private theorem setupIdents_faithful (sha256 : Bytes → Value) {n : Nat} {x : Entry}
    (hx : x ∈ setupWrites n) (hd : x.1.IsDatom) (ha : x.1.a = dbIdent) : Faithful sha256 x := by
  obtain ⟨y, hy, rfl⟩ := mem_setupWrites.mp hx
  obtain ⟨htype, h1, h33, hv⟩ := setupIdents_zero_short y hy hd ha
  have hlen : (y.1.v.bytes.take (y.1.pad - 1).toNat).length = (y.1.pad - 1).toNat := by
    rw [List.length_take, y.1.v.size]
    omega
  have hdecode : decode (setNs n y) = .str (y.1.v.bytes.take (y.1.pad - 1).toNat) :=
    decode_short htype (by omega) (by rw [hlen]; show y.1.pad = _; omega) hv
  unfold Faithful
  rw [hdecode, encodeFact, encodeStr, if_neg (by omega)]
  exact hv

private theorem setupIdents_inj {n : Nat} {x y : Entry} (hx : x ∈ setupWrites n) (hxd : x.1.IsDatom)
    (hxa : x.1.a = dbIdent) (hy : y ∈ setupWrites n) (hyd : y.1.IsDatom) (hya : y.1.a = dbIdent)
    (hv : x.1.v = y.1.v) : x.1.e = y.1.e := by
  obtain ⟨x₀, hx₀, rfl⟩ := mem_setupWrites.mp hx
  obtain ⟨y₀, hy₀, rfl⟩ := mem_setupWrites.mp hy
  exact setupIdents_zero_inj x₀ hx₀ hxd hxa y₀ hy₀ hyd hya hv

private theorem setupIdents_index {n : Nat} {x : Entry} (hx : x ∈ setupWrites n) (hd : x.1.IsDatom)
    (ha : x.1.a = dbIdent) (he : x.1.e < dbTypeValue) :
    ∃ u ∈ setupWrites n, u.1.type = .keyUnique ∧ u.1.ns = n ∧ u.1.a = dbIdent ∧
      u.1.v = x.1.v ∧ u.2 = .num x.1.e := by
  obtain ⟨y, hy, rfl⟩ := mem_setupWrites.mp hx
  obtain ⟨u, hu, ht, h⟩ := setupIdents_zero_index y hy hd ha he
  exact ⟨setNs n u, mem_setupWrites.mpr ⟨u, hu, rfl⟩, ht, rfl, h⟩

private theorem setupIdents_unindexed {n : Nat} {x : Entry} (hx : x ∈ setupWrites n)
    (hd : x.1.IsDatom) (ha : x.1.a = dbIdent) (he : dbTypeValue ≤ x.1.e) :
    x.1.v ∈ unindexedIdents := by
  obtain ⟨y, hy, rfl⟩ := mem_setupWrites.mp hx
  exact setupIdents_zero_unindexed y hy hd ha he

/-! ### Attributes that are declared unique -/

/-- The attribute is one that a transaction would find declared unique. -/
def IsUnique (s : Store) (n : Nat) (a : Int) : Prop :=
  ∃ tx, getMeta s n metaTx = some tx ∧
    ∃ d ∈ queryA s n tx dbUnique, d.e = a ∧ d.v = .int dbUniqueYes

theorem IsUnique.mem_uniqueSet {o : Oracle} (ho : o.Faultless) {s : Store} {n : Nat} {a tx : Int}
    (h : IsUnique s n a) (htx : getMeta s n metaTx = some tx) : a ∈ uniqueSet o s n tx := by
  obtain ⟨tx', htx', d, hd, he, hv⟩ := h
  cases htx.symm.trans htx'
  unfold uniqueSet queryOr
  rw [ho, if_neg (by simp), List.mem_map]
  exact ⟨d, List.mem_filter.mpr ⟨hd, by simp [Datom.i, hv]⟩, he⟩

/-- `db_ident` is declared unique in every namespace. -/
theorem RepInv.isUnique_dbIdent {sha256 : Bytes → Value} {s : Store} (hr : RepInv sha256 s)
    {n : Nat} (hn : n < 2 ^ 31) (hex : nsExists s n = true) : IsUnique s n dbIdent := by
  obtain ⟨tx, htx⟩ := Option.isSome_iff_exists.mp hex
  have htx0 := hr.tx_range n tx hn htx
  obtain ⟨x, hx, ⟨hd, hsort, he, ha, hdec⟩, honly⟩ := setupIdents_zero_unique
  have hxn : setNs n x ∈ setupWrites n := mem_setupWrites.mpr ⟨x, hx, rfl⟩
  have hxs : setNs n x ∈ s := hr.based n hn hex _ hxn hd
  have hxt : (setNs n x).1.t = 0 := (setupWrites_datom hxn hd).2.2.1
  have hbound : txBound tx = 2 * tx + 1 := txBound_eq (by omega) (by omega)
  refine ⟨tx, htx, ⟨dbIdent, dbUnique, .int dbUniqueYes, 0⟩, ?_, rfl, rfl⟩
  rw [queryA_eq hr.ok hr.positive hn,
    mem_datomsOf (visibleA_grouped hr.ok _ _ _) (visibleA_sorted hr.ok _ _ _)]
  refine ⟨setNs n x, mem_visibleA.mpr ⟨hxs, ha, rfl, hsort, by omega⟩, ?_, by omega,
    fun y hy hye hyv => ?_⟩
  · have hdec : decode (setNs n x) = .int dbUniqueYes := hdec
    rw [hdec, hxt, show (setNs n x).1.e = dbIdent from he]
    rfl
  · obtain ⟨hys, hya, hyn, hysort, -⟩ := mem_visibleA.mp hy
    have hyd := isDatom_of_sort (hr.ok.keys y hys) (Or.inr hysort)
    have hye : y.1.e = dbIdent := hye.trans he
    have hyw := hr.base y hys hyd (by rw [hye]; decide)
    rw [hyn] at hyw
    obtain ⟨y₀, hy₀, rfl⟩ := mem_setupWrites.mp hyw
    rw [honly y₀ hy₀ hyd hysort hye hya]

/-! ### Transactions -/

section Transact

variable {sha256 : Bytes → Value} {o : Oracle} {s s' : Store} {n : Nat} {a : Int}

/-- What the loop of a transaction keeps of the invariant. -/
structure LoopInv (sha256 : Bytes → Value) (txn : Txn) (a : Int) (s : Store) : Prop where
  layout : Layout sha256 s
  based : ∀ x ∈ setupWrites txn.ns, x.1.IsDatom → x ∈ s
  times : ∀ x ∈ s, x.1.IsDatom → x.1.ns = txn.ns → x.1.t / 2 ≤ txn.tx
  indexed : Indexed txn.ns a s

theorem LoopInv.insert {txn : Txn} {w : Write} {i : Nat} {st st' : TxnState} (ho : o.Faultless)
    (htx : txn.Ok) (hu : a ∈ txn.eUnique) (hinv : LoopInv sha256 txn a st.store)
    (hw : w.Ok sha256) (hkeeps : w.a = a → KeepsIndex txn st.store w)
    (h : insertWrite o i txn st w = some st') : LoopInv sha256 txn a st'.store := by
  have hins := insertWrite_inserted htx hw hinv.layout.ok h
  refine ⟨hins.layout htx hw hinv.layout, fun x hx hd => ?_, fun x hx hd hxn => ?_, ?_⟩
  · rw [(hins.frame htx hw).base x hd (setupWrites_datom hx hd).2.1]
    exact hinv.based x hx hd
  · by_cases ht : x.1.t / 2 = txn.tx
    · exact ht.le
    · exact hinv.times x (((hins.frame htx hw).datoms x hd ht).mp hx) hd hxn
  · by_cases hne : w.a = a
    · subst hne
      exact hinv.indexed.insert ho htx hw hinv.layout.ok hinv.based hinv.times hu (hkeeps rfl) h
    · exact hinv.indexed.insert_other htx hw hinv.layout.ok (Ne.symm hne) h

/-- A transaction whose writes all keep the index in step. -/
def TransactKeeps (sha256 : Bytes → Value) (o : Oracle) (s : Store) (n : Nat) (a : Int)
    (facts : List Json) : Prop :=
  ∀ tx id, getMeta s n metaTx = some tx → getMeta s n metaId = some id →
    LoopMeets sha256 o (beginTxn o s n tx)
      (fun s' w => w.a = a → KeepsIndex (beginTxn o s n tx) s' w) 0 (beginState s id) facts

private theorem transact_indexed {facts : List Json} {r : Reply} (ho : o.Faultless)
    (hr : RepInv sha256 s) (hn : n < 2 ^ 31) (hfacts : ∀ v ∈ facts, v.FactInRange)
    (hu : IsUnique s n a) (hkeeps : TransactKeeps sha256 o s n a facts) (hi : Indexed n a s)
    (h : transact sha256 o s n facts = some (r, s')) (htx : CounterInRange s' n metaTx)
    (hid : CounterInRange s' n metaId) : Indexed n a s' := by
  obtain ⟨tx, id, st, hgtx, hgid, hloop, rfl, rfl⟩ := transact_cases h
  obtain ⟨h1, h2⟩ := getMeta_commitStore n tx st (lt_trans hn (by norm_num))
  have htxn : (beginTxn o s n tx).Ok := transact_txn_ok hr.sound hn hgtx (by have := htx _ h1; omega)
  have hex : nsExists s n = true := by simp [nsExists, hgtx]
  have hbegin : LoopInv sha256 (beginTxn o s n tx) a s := by
    refine ⟨hr.toLayout, hr.based n hn hex, fun x hx hd hxn => ?_, hi⟩
    have := hr.times x hx hd tx (by rw [hxn]; exact hgtx)
    show x.1.t / 2 ≤ tx
    omega
  have hend := transactLoop_rule (LoopInv sha256 (beginTxn o s n tx) a)
    (fun i st st' w hinv hw hk hins => hinv.insert ho htxn (hu.mem_uniqueSet ho hgtx) hw hk hins)
    hfacts (hkeeps tx id hgtx hgid) (beginState_ids_ok hr.sound hn hgid) hbegin hloop (hid _ h2)
  refine hend.indexed.congr hend.layout.ok ?_ fun x _ ht => mem_commitStore hend.layout.ok hn ht
  exact putMeta_ok (putMeta_ok hend.layout.ok hn (by decide)) hn (by decide)

/-- The base facts of a new namespace are indexed, but for the idents that are not. -/
theorem SetUp.indexed (h : SetUp n s s') : Indexed n dbIdent s' := by
  have hown : ∀ {x : Entry}, x ∈ s' → Asserts n dbIdent x → x.1.IsDatom ∧ x ∈ setupWrites n := by
    intro x hx ha
    have hd := isDatom_of_sort (h.ok.keys x hx) (Or.inl ha.sort)
    exact ⟨hd, (h.own x ha.ns fun hc => not_isDatom_of_meta hc hd).mp hx⟩
  refine ⟨fun x hx ha _ hun => ?_, fun _ x hx ha he => ?_⟩
  · obtain ⟨hd, hw⟩ := hown hx ha
    have he := (setupWrites_datom hw hd).2.1
    have he5 : x.1.e < dbTypeValue := by
      by_contra hc
      refine hun ⟨rfl, by omega, ?_⟩
      simp only [dbUniqueYes, dbInitialId] at *
      omega
    obtain ⟨u, hu, ht, hun, h'⟩ := setupIdents_index hw hd ha.a he5
    exact ⟨u, (h.own u hun (by rw [ht]; simp)).mpr hu, ht, hun, h'⟩
  · obtain ⟨hd, hw⟩ := hown hx ha
    have := (setupWrites_datom hw hd).2.1
    omega

end Transact

/-! ### Runs -/

section Runs

variable {sha256 : Bytes → Value} {s : Store} {n : Nat} {a : Int}

/--
A request that keeps the index of an attribute in step: no call fails in it, the
attribute is declared unique as it arrives, and every write to it keeps the index.
-/
structure UniqueStep (sha256 : Bytes → Value) (n : Nat) (a : Int) (s : Store) (i : Input) :
    Prop where
  range : InputInRange sha256 s i
  faultless : i.1.Faultless
  unique : a ≠ dbIdent → IsUnique s n a
  keeps : ∀ facts, i.2 = .transact n (some (.array facts)) → TransactKeeps sha256 i.1 s n a facts

/-- The invariant of an attribute that is unique from its first datom on. -/
structure Tracked (sha256 : Bytes → Value) (n : Nat) (a : Int) (s : Store) : Prop where
  inv : RepInv sha256 s
  indexed : Indexed n a s
  start : a = dbIdent ∨
    (nsExists s n = true ∧ ∀ x ∈ setupWrites n, x.1.IsDatom → x.1.a ≠ a)

theorem Indexed.of_none (hok : StoreOk s) (hs : ∀ x ∈ s, x.1.ns = n → x.1.IsDatom → x.1.a ≠ a) :
    Indexed n a s := by
  have hno : ∀ x ∈ s, ¬ Asserts n a x := fun x hx ha =>
    hs x hx ha.ns (isDatom_of_sort (hok.keys x hx) (Or.inl ha.sort)) ha.a
  exact ⟨fun x hx ha => absurd ha (hno x hx), fun _ x hx ha => absurd ha (hno x hx)⟩

theorem Tracked.step {i : Input} (hn : n < 2 ^ 31) (ht : Tracked sha256 n a s)
    (hi : UniqueStep sha256 n a s i) : Tracked sha256 n a (step sha256 s i) := by
  have hr' := repInv_step ht.inv hi.range
  refine ⟨hr', ?_, ht.start.imp_right fun h => ⟨nsExists_step ht.inv.sound hi.range.bounded hn h.1, h.2⟩⟩
  have hforeign : ∀ {m : Nat}, (∀ x : Entry, x.1.ns ≠ m → (x ∈ Nstore.step sha256 s i ↔ x ∈ s)) →
      n ≠ m → Indexed n a (Nstore.step sha256 s i) := fun h hne =>
    ht.indexed.congr ht.inv.ok hr'.ok fun x hx _ => h x (hx ▸ hne)
  rcases step_cases ht.inv hi.range with ⟨h, -⟩ | ⟨m, -, -, hex, h, -⟩ |
    ⟨m, tx, fs, ids, arg, hq, hm, hrep, h⟩
  · rw [h]
    exact ht.indexed
  · by_cases hne : n = m
    · subst hne
      rcases ht.start with rfl | ⟨hc, -⟩
      · exact h.indexed
      · rw [hex] at hc
        exact absurd hc (by simp)
    · exact hforeign h.foreign hne
  · by_cases hne : n = m
    · subst hne
      obtain ⟨o, q⟩ := i
      simp only at hq
      subst hq
      have hex : nsExists s n = true := by simp [nsExists, h.exists_before]
      have hu : IsUnique s n a := by
        by_cases ha : a = dbIdent
        · rw [ha]
          exact ht.inv.isUnique_dbIdent hn hex
        · exact hi.unique ha
      obtain ⟨-, hfacts, htx, hid⟩ := hi.range
      rcases handleTransact_cases sha256 o s n arg with hc | ⟨facts, p, harg, -, htr, hp⟩
      · have : reply sha256 s (o, .transact n arg) = .ackErr := congrArg Prod.fst hc
        rw [hrep] at this
        exact absurd this (by simp)
      · have hstep : Nstore.step sha256 s (o, .transact n arg) = p.2 := congrArg Prod.snd hp
        rw [hstep] at htx hid ⊢
        exact transact_indexed hi.faultless ht.inv hn (hfacts facts harg) hu
          (hi.keeps facts (by rw [harg])) ht.indexed htr htx hid
    · exact hforeign h.foreign hne

/-! ### Holders -/

/-- No two entities of an answer hold the same value of an attribute. -/
def UniqueHolders (a : Int) : Reply → Prop
  | .facts _ fs => ∀ f ∈ fs, ∀ g ∈ fs, f.a = a → g.a = a → f.v = g.v → f.e = g.e
  | _ => True

instance (a : Int) (r : Reply) : Decidable (UniqueHolders a r) :=
  match r with
  | .facts _ fs => inferInstanceAs
      (Decidable (∀ f ∈ fs, ∀ g ∈ fs, f.a = a → g.a = a → f.v = g.v → f.e = g.e))
  | .ackOk => inferInstanceAs (Decidable True)
  | .ackErr => inferInstanceAs (Decidable True)
  | .response _ _ _ => inferInstanceAs (Decidable True)

/-- No entity was ever given two values of the attribute. -/
def SingleValued (s : Store) (n : Nat) (a : Int) : Prop :=
  ∀ x ∈ s, ∀ y ∈ s, x.1.sort = sortEATV → x.1.ns = n → x.1.a = a → SameGroup x.1 y → y.1.v = x.1.v

/-- An answer about now shows last values. -/
theorem isLast_of_shown {o : Oracle} {tx : Int} (hr : RepInv sha256 s) (hn : n < 2 ^ 31)
    (htx : getMeta s n metaTx = some tx) (hone : a ∉ manySet o s n tx ∨ SingleValued s n a)
    {x : Entry} (hx : x ∈ shownKeys o s n tx) (hxa : x.1.a = a) :
    x ∈ s ∧ Asserts n a x ∧ IsLast s x := by
  have hpos := hr.tx_range n tx hn htx
  unfold shownKeys at hx
  rw [mem_factsKeys (visible_grouped hr.ok n _) (visible_sorted hr.ok n _), mem_visible] at hx
  obtain ⟨⟨hxs, hxn, hsort, -⟩, heven, hmax⟩ := hx
  refine ⟨hxs, ⟨hsort, hxn, hxa, by omega⟩, fun y hy hg => ?_⟩
  obtain ⟨hys, hyn, hye, hya⟩ := hg
  have hyd := isDatom_of_sort (hr.ok.keys y hy) (Or.inl hys)
  have hxd := isDatom_of_sort (hr.ok.keys x hxs) (Or.inl hsort)
  have hvis : y ∈ visible s n (txBound tx) := by
    have := hr.times y hy hyd tx (by rw [hyn, hxn]; exact htx)
    refine mem_visible.mpr ⟨hy, hyn.trans hxn, hys, ?_⟩
    rw [txBound_eq (by omega) (by omega)]
    omega
  have hle := hmax y hvis (by simp [groupOf, hye, hya]) fun hmany => by
    rcases hone with hnot | hsingle
    · exact absurd (hxa ▸ hmany) hnot
    · exact hsingle x hxs y hy hsort hxn hxa ⟨hys, hyn, hye, hya⟩
  rwa [coords_le_EATV hyd hxd hys hsort hyn hye hya] at hle

/-- Datoms of a tracked attribute tell their payloads. -/
theorem Tracked.faithful (ht : Tracked sha256 n a s) {x : Entry} (hx : x ∈ s) (ha : Asserts n a x) :
    Faithful sha256 x := by
  have hd := isDatom_of_sort (ht.inv.ok.keys x hx) (Or.inl ha.sort)
  by_cases he : x.1.e < dbInitialId
  · have hw := ht.inv.base x hx hd he
    rcases ht.start with rfl | ⟨-, hno⟩
    · exact setupIdents_faithful sha256 hw hd ha.a
    · exact absurd ha.a (hno x (ha.ns ▸ hw) hd)
  · exact (ht.inv.written x hx hd (by omega)).faithful

/-- Two entities whose last values have one payload are one entity. -/
theorem Tracked.one_holder (ht : Tracked sha256 n a s) {x y : Entry} (hx : x ∈ s) (hy : y ∈ s)
    (hxa : Asserts n a x) (hya : Asserts n a y) (hxl : IsLast s x) (hyl : IsLast s y)
    (hv : x.1.v = y.1.v) : x.1.e = y.1.e := by
  have hdatom : ∀ {z : Entry}, z ∈ s → Asserts n a z → z.1.IsDatom := fun hz ha =>
    isDatom_of_sort (ht.inv.ok.keys _ hz) (Or.inl ha.sort)
  -- an ident that is not indexed belongs to a base entity, and only to that
  have hbase : ∀ {x y : Entry}, x ∈ s → y ∈ s → Asserts n a x → Asserts n a y → x.1.v = y.1.v →
      Unindexed a x.1.e → x.1.e = y.1.e := by
    rintro x y hx hy hxa hya hv ⟨rfl, h5, h10⟩
    have hxe : x.1.e < dbInitialId := by
      simp only [dbInitialId, dbUniqueYes] at *
      omega
    have hxw := hxa.ns ▸ ht.inv.base x hx (hdatom hx hxa) hxe
    by_cases hye : y.1.e < dbInitialId
    · have hyw := hya.ns ▸ ht.inv.base y hy (hdatom hy hya) hye
      exact setupIdents_inj hxw (hdatom hx hxa) hxa.a hyw (hdatom hy hya) hya.a hv
    · refine absurd ?_ (ht.indexed.claimed rfl y hy hya (by omega))
      rw [← hv]
      exact setupIdents_unindexed hxw (hdatom hx hxa) hxa.a h5
  by_cases hxu : Unindexed a x.1.e
  · exact hbase hx hy hxa hya hv hxu
  · by_cases hyu : Unindexed a y.1.e
    · exact (hbase hy hx hya hxa hv.symm hyu).symm
    · have h1 := ht.indexed.owned x hx hxa hxl hxu
      have h2 := ht.indexed.owned y hy hya hyl hyu
      rw [← hv] at h2
      exact h1.unique ht.inv.ok h2

theorem Tracked.uniqueHolders {q : Oracle} (hq : q.Faultless) (hn : n < 2 ^ 31)
    (ht : Tracked sha256 n a s)
    (hone : (∀ tx, getMeta s n metaTx = some tx → a ∉ manySet q s n tx) ∨ SingleValued s n a) :
    UniqueHolders a (handleFacts q s n (some (.int64 (-1)))) := by
  rw [handleFacts_of_neg hq s n (by decide)]
  cases htx : getMeta s n metaTx with
  | none => trivial
  | some tx =>
      have hex : nsExists s n = true := by simp [nsExists, htx]
      simp only
      rw [handleFactsAt_shown hq ht.inv.ok ht.inv.positive hn (ht.inv.exists_eatv hn hex)]
      intro f hf g hg hfa hga hv
      obtain ⟨x, hx, rfl⟩ := List.mem_map.mp hf
      obtain ⟨y, hy, rfl⟩ := List.mem_map.mp hg
      have hone := hone.imp_left fun h => h tx htx
      obtain ⟨hxs, hxa, hxl⟩ := isLast_of_shown ht.inv hn htx hone hx hfa
      obtain ⟨hys, hya, hyl⟩ := isLast_of_shown ht.inv hn htx hone hy hga
      refine ht.one_holder hxs hys hxa hya hxl hyl ?_
      have hv : decode x = decode y := hv
      rw [ht.faithful hxs hxa, ht.faithful hys hya, hv]

/--
**A value of a unique attribute has one holder**, in every state of a run whose
requests keep the index in step, for `db_ident` from the start and for any other
attribute once it is declared, if it had no datom by then.  Where the attribute is
of cardinality many, an entity must not have been given two values of it.
-/
theorem run_uniqueHolders {o q : Oracle} (ho : o.SetupFaultless) (hq : q.Faultless)
    (hn : n < 2 ^ 31) {is js : List Input}
    (his : Along (Nstore.step sha256) (InputInRange sha256) (dbOpen o []) is)
    (hstart : (a = dbIdent ∧ is = []) ∨
      (IsUnique (run (Nstore.step sha256) (dbOpen o []) is) n a ∧
        ∀ x ∈ run (Nstore.step sha256) (dbOpen o []) is, x.1.ns = n → x.1.IsDatom → x.1.a ≠ a))
    (hjs : Along (Nstore.step sha256) (UniqueStep sha256 n a)
      (run (Nstore.step sha256) (dbOpen o []) is) js)
    (hone : (∀ tx, getMeta (run (Nstore.step sha256) (dbOpen o []) (is ++ js)) n metaTx = some tx →
        a ∉ manySet q (run (Nstore.step sha256) (dbOpen o []) (is ++ js)) n tx) ∨
      SingleValued (run (Nstore.step sha256) (dbOpen o []) (is ++ js)) n a) :
    UniqueHolders a
      (handleFacts q (run (Nstore.step sha256) (dbOpen o []) (is ++ js)) n (some (.int64 (-1)))) := by
  have hr := repInv_run (repInv_dbOpen ho) his
  rw [run_append] at hone ⊢
  have ht : Tracked sha256 n a (run (Nstore.step sha256) (dbOpen o []) is) := by
    rcases hstart with ⟨rfl, rfl⟩ | ⟨⟨tx, htx, -⟩, hno⟩
    · refine ⟨hr, ?_, Or.inl rfl⟩
      rcases setup_cases (repInv_nil : RepInv sha256 []) ho (by decide : 0 < 2 ^ 31) with h | ⟨-, h⟩
      · show Indexed n dbIdent (setup o [] 0).2
        rw [h]
        exact Indexed.of_none OrderedMap.Ok.nil fun x hx => absurd hx (by simp)
      · by_cases hn0 : n = 0
        · rw [hn0]
          exact h.indexed
        · refine Indexed.of_none h.ok fun x hx hxn _ => ?_
          exact absurd ((h.foreign x (hxn ▸ hn0)).mp hx) (by simp)
    · have hex : nsExists (run (Nstore.step sha256) (dbOpen o []) is) n = true := by
        simp [nsExists, htx]
      refine ⟨hr, Indexed.of_none hr.ok hno, Or.inr ⟨hex, fun x hx hd => ?_⟩⟩
      obtain ⟨y, -, rfl⟩ := mem_setupWrites.mp hx
      exact hno _ (hr.based n hn hex _ hx hd) rfl hd
  exact (Along.invariant (Tracked sha256 n a) (fun s i h hi => h.step hn hi) ht hjs).uniqueHolders
    hq hn hone

end Runs

/-- A unique attribute is declared, and then given its first value. -/
def declareRun : List Input :=
  [(.calm, .transact 0 (some (.array [.array [.int64 50, .int64 4, .int64 10, .int64 0]])))]

def assertRun : List Input :=
  [(.calm, .transact 0 (some (.array [.array [.int64 60, .int64 50, .int64 7, .int64 0]])))]

/-- What the sample needs to know of the state in which the attribute is declared. -/
theorem declareRun_state :
    (getMeta (run (step .ofBytes) (dbOpen .calm []) declareRun) 0 metaTx = some 2 ∧
      getMeta (run (step .ofBytes) (dbOpen .calm []) declareRun) 0 metaId = some 11) ∧
    (∀ x ∈ run (step .ofBytes) (dbOpen .calm []) declareRun, x.1.ns = 0 → x.1.IsDatom →
      x.1.a ≠ 50) ∧
    ⟨50, 4, .int 10, 1⟩ ∈ queryA (run (step .ofBytes) (dbOpen .calm []) declareRun) 0 2 dbUnique ∧
    lastDatom (run (step .ofBytes) (dbOpen .calm []) declareRun)
      (Write.key ⟨0, 2, [], []⟩ ⟨60, 50, encodeInt 7, false⟩ sortEATV) = none := by
  decide +kernel

theorem assertRun_state :
    (getMeta (run (step .ofBytes) (dbOpen .calm []) (declareRun ++ assertRun)) 0 metaTx = some 3 ∧
      getMeta (run (step .ofBytes) (dbOpen .calm []) (declareRun ++ assertRun)) 0 metaId = some 11) ∧
    50 ∉ manySet .calm (run (step .ofBytes) (dbOpen .calm []) (declareRun ++ assertRun)) 0 3 := by
  decide +kernel

theorem run_uniqueHolders_sample :
    UniqueHolders 50 (handleFacts .calm
      (run (step .ofBytes) (dbOpen .calm []) (declareRun ++ assertRun)) 0 (some (.int64 (-1)))) := by
  have hget := declareRun_state.1
  have hget' := assertRun_state.1
  have hfact : ∀ e a v : Int64, (-2 ^ 29 ≤ e.toInt ∧ e.toInt < 2 ^ 29) ∧
      (-2 ^ 29 ≤ a.toInt ∧ a.toInt < 2 ^ 29) ∧ (-2 ^ 29 ≤ v.toInt ∧ v.toInt < 2 ^ 29) →
      ∀ x ∈ [Json.array [.int64 e, .int64 a, .int64 v, .int64 0]], x.FactInRange := by
    intro e a v h x hx
    rw [List.mem_singleton.mp hx]
    exact ⟨h.1, h.2.1, h.2.2, trivial⟩
  have hunique : IsUnique (run (step .ofBytes) (dbOpen .calm []) declareRun) 0 50 :=
    ⟨2, hget.1, _, declareRun_state.2.2.1, rfl, rfl⟩
  have hdeclared : Along (step .ofBytes) (InputInRange .ofBytes) (dbOpen .calm []) declareRun :=
    ⟨inputInRange_of_counters (by norm_num) (hfact 50 4 10 (by decide)) hget (by norm_num), trivial⟩
  have hasserted : Along (step .ofBytes) (UniqueStep .ofBytes 0 50)
      (run (step .ofBytes) (dbOpen .calm []) declareRun) assertRun := by
    refine ⟨⟨?_, Oracle.calm_faultless, fun _ => hunique, fun facts hfacts tx id htx hid => ?_⟩,
      trivial⟩
    · exact inputInRange_of_counters (by norm_num) (hfact 60 50 7 (by decide)) hget' (by norm_num)
    · cases hfacts
      cases hget.1.symm.trans htx
      refine ⟨fun ids w hw _ => ?_, fun _ _ => trivial⟩
      obtain rfl : w = ⟨60, 50, encodeInt 7, false⟩ := by
        have h7 : ¬ ((7 : Int64).toInt < 0) := by decide
        have h60 : ¬ ((60 : Int64).toInt < 0) := by decide
        have h11 : ¬ ((60 : Int64).toInt < dbInitialId) := by decide
        simp only [readElement, resolveEntity, readValue, resolveValue, h7, h60, h11, and_false,
          if_false, Option.map_some, Option.some.injEq, Prod.mk.injEq] at hw
        exact hw.2.symm
      refine ⟨fun hc => absurd hc (by simp), fun _ _ last hl => ?_,
        fun _ ha => absurd ha (by decide)⟩
      exact absurd (declareRun_state.2.2.2.symm.trans hl) (by simp)
  have hone : ∀ tx,
      getMeta (run (step .ofBytes) (dbOpen .calm []) (declareRun ++ assertRun)) 0 metaTx = some tx →
      50 ∉ manySet .calm (run (step .ofBytes) (dbOpen .calm []) (declareRun ++ assertRun)) 0 tx := by
    intro tx htx
    cases hget'.1.symm.trans htx
    exact assertRun_state.2
  have h := run_uniqueHolders Oracle.calm_faultless.setup Oracle.calm_faultless (by norm_num)
    hdeclared (Or.inr ⟨hunique, declareRun_state.2.1⟩) hasserted (Or.inl hone)
  exact h

/-- Idents of base entities that were not indexed can be claimed again. -/
theorem not_uniqueHolders_ident :
    ¬ UniqueHolders dbIdent (handleFacts .calm
      (run (step .ofBytes) (dbOpen .calm [])
        [(.calm, .transact 0 (some (.array
          [.array [.int64 11, .int64 1, .string (ascii ":db.type/value"), .int64 0]])))])
      0 (some (.int64 (-1)))) := by
  decide +kernel

end Nstore

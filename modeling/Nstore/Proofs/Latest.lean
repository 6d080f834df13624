/-
What a transaction adds to the answers.

A reply lists the facts of a transaction in the order of the request, while the store
keeps them in key order, and `handle_facts` finds out from the keys which are shown.
`Adds` says how the two fit: every datom of the transaction is one of a listed fact,
every listed fact has its key, and the last one listed of an entity and attribute has
its own datom.  A transaction without schema attributes leaves the cardinalities as
they were, so only the groups it writes to can be answered differently.
-/
import Nstore.Proofs.AllOrNothing
import Nstore.Proofs.Keys
import Nstore.Proofs.Schema
import Nstore.Lib.Overwrite

namespace Nstore

open Machine Overwrite

/-! ### The facts of a reply -/

/-- The facts that `handle_facts` reports as of a transaction. -/
def factsAt (q : Oracle) (s : Store) (n : Nat) (t : Int64) : List Fact :=
  (handleFacts q s n (some (.int64 t))).factList

section Reply

variable {sha256 : Bytes → Value} {q : Oracle} {s : Store} {n : Nat} {t : Int64}

theorem factsAt_eq (hq : q.Faultless) (hr : Sound s) (hn : n < 2 ^ 31) (h0 : 0 ≤ t.toInt) :
    factsAt q s n t = (shownKeys q s n t.toInt).map factOf := by
  unfold factsAt
  rw [handleFacts_of_nonneg hq s n h0, factList_handleFactsAt q hr.ok hr.positive hn,
    if_neg (by simp [hq _]), factsOf_eq]
  rfl

theorem mem_factsAt (hq : q.Faultless) (hr : Sound s) (hn : n < 2 ^ 31) (h0 : 0 ≤ t.toInt)
    (h1 : t.toInt < 2 ^ 62) {f : Fact} :
    f ∈ factsAt q s n t ↔
      ∃ x, Shown (manySet q s n t.toInt) s n t.toInt x ∧ factOf x = f := by
  rw [factsAt_eq hq hr hn h0, List.mem_map]
  simp only [mem_shownKeys_iff hr.ok h0 h1]

/-- **No fact is reported twice.** -/
theorem factsAt_nodup (hq : q.Faultless) (hr : DatomInv sha256 s) (hn : n < 2 ^ 31)
    (h0 : 0 ≤ t.toInt) (h1 : t.toInt < 2 ^ 62) : (factsAt q s n t).Nodup := by
  rw [factsAt_eq hq hr.toSound hn h0]
  refine List.pairwise_map.mpr ((shownKeys_pairwise hr.ok).imp_of_mem fun {x y} hx hy h hc => ?_)
  obtain ⟨⟨hxs, hxn, hxsort, -⟩, -, -⟩ := (mem_shownKeys_iff hr.ok h0 h1 x).mp hx
  obtain ⟨⟨hys, hyn, hysort, -⟩, -, -⟩ := (mem_shownKeys_iff hr.ok h0 h1 y).mp hy
  have hxd := isDatom_of_sort (hr.ok.keys x hxs) (Or.inl hxsort)
  have hyd := isDatom_of_sort (hr.ok.keys y hys) (Or.inl hysort)
  obtain ⟨he, ha, hv, -⟩ : x.1.e = y.1.e ∧ x.1.a = y.1.a ∧ decode x = decode y ∧
      x.1.t / 2 = y.1.t / 2 := by
    simpa [factOf] using hc
  have hpay : x.1.v ≠ y.1.v := by
    rcases h with h | ⟨-, h⟩
    · rw [show groupOf x = groupOf y from Prod.ext he ha] at h
      exact absurd h (groupLt_irrefl _)
    · exact h
  by_cases hbase : x.1.e < dbInitialId
  · have hxy := hr.base_eq hxs hxd hbase hys hyd (hxn.trans hyn.symm) he ha
    have hv : x.1.v = (Entry.inOrder x.1.sort y).1.v := congrArg (fun x : Entry => x.1.v) hxy
    exact hpay hv
  · have hxf := (hr.written x hxs hxd (by omega)).faithful
    have hyf := (hr.written y hys hyd (by omega)).faithful
    exact hpay (by rw [hxf, hyf, hv])

end Reply

/-! ### The datoms of a transaction -/

/-- The facts a loop has listed, and the datoms of its transaction. -/
structure LoopAdds (sha256 : Bytes → Value) (n : Nat) (tx : Int) (s : Store) (fs : List Fact) :
    Prop where
  ok : StoreOk s
  listed : ∀ x ∈ s, x.1.IsDatom → x.1.ns = n → x.1.sort = sortEATV → x.1.t / 2 = tx →
    ∃ f ∈ fs, x = factEntry sha256 n f
  stored : ∀ f ∈ fs, ∃ x ∈ s, x.1.coords = (factEntry sha256 n f).1.coords
  last : ∀ l f r, fs = l ++ f :: r → (∀ g ∈ r, ¬ (g.e = f.e ∧ g.a = f.a)) →
    factEntry sha256 n f ∈ s
  facts : ∀ f ∈ fs, f.tx = tx ∧ dbInitialId ≤ f.e ∧ (encodeFact sha256 f.v).Ok sha256
  inRange : ∀ f ∈ fs, InRange (factEntry sha256 n f).1

section Loop

variable {sha256 : Bytes → Value} {txn : Txn} {w : Write} {s s' : Store} {fs : List Fact}

theorem factEntry_isDatom {n : Nat} {f : Fact} (h : (encodeFact sha256 f.v).Ok sha256) :
    (factEntry sha256 n f).1.IsDatom := ⟨h.type, Or.inl rfl⟩

theorem LoopAdds.insert (htx : txn.Ok) (hw : w.Ok sha256) (h : LoopAdds sha256 txn.ns txn.tx s fs)
    (hins : Inserted txn w s s') : LoopAdds sha256 txn.ns txn.tx s' (fs ++ [w.fact txn.tx]) := by
  have henc := hw.enc.eq_encodeFact
  have hentry := Write.entry_eq htx henc
  have hE : (w.key txn sortEATV).IsDatom := Write.key_isDatom hw (Or.inl rfl)
  have hnew : factEntry sha256 txn.ns (w.fact txn.tx) ∈ s' := by
    rw [← hentry]
    exact (hins.datoms _ hE).mpr (Or.inl (Or.inl rfl))
  refine ⟨hins.ok, fun x hx hd hn hsort ht => ?_, fun f hf => ?_, fun l f r hsplit hr => ?_,
    fun f hf => ?_, fun f hf => ?_⟩
  · rcases (hins.datoms x hd).mp hx with (rfl | ⟨-, rfl⟩) | ⟨hxs, -⟩
    · exact ⟨_, by simp, hentry⟩
    · exact absurd hsort (by show sortAETV ≠ sortEATV; decide)
    · obtain ⟨f, hf, hxf⟩ := h.listed x hxs hd hn hsort ht
      exact ⟨f, by simp [hf], hxf⟩
  · rcases List.mem_append.mp hf with hf | hf
    · obtain ⟨x, hxs, hc⟩ := h.stored f hf
      have hfd := factEntry_isDatom (n := txn.ns) (h.facts f hf).2.2
      have hxd := isDatom_of_coords_eq (h.ok.keys x hxs) hfd hc
      have hxsort : x.1.sort = sortEATV := ((coords_eq_datom hxd hfd).mp hc).2.1
      by_cases hrep : w.Replaces txn x
      · -- what replaces it has its key
        refine ⟨_, hnew, ?_⟩
        rw [← hc, ← hentry]
        exact ((Write.coords_ne_iff hw hxd hxsort).mpr hrep.1).symm
      · exact ⟨x, (hins.datoms x hxd).mpr (Or.inr ⟨hxs, hrep⟩), hc⟩
    · rw [List.mem_singleton.mp hf]
      exact ⟨_, hnew, rfl⟩
  · rcases split_concat hsplit with ⟨-, rfl, -⟩ | ⟨r', rfl, hfs⟩
    · exact hnew
    · have hxs := h.last l f r' hfs fun g hg => hr g (by simp [hg])
      have hf : f ∈ fs := by rw [hfs]; simp
      have hxd := factEntry_isDatom (n := txn.ns) (h.facts f hf).2.2
      refine (hins.datoms _ hxd).mpr (Or.inr ⟨hxs, fun hrep => ?_⟩)
      exact hr (w.fact txn.tx) (by simp) ⟨hrep.1.2.1.symm, hrep.1.2.2.1.symm⟩
  · rcases List.mem_append.mp hf with hf | hf
    · exact h.facts f hf
    · rw [List.mem_singleton.mp hf]
      exact ⟨rfl, hw.e_range.1, henc ▸ hw.enc⟩
  · rcases List.mem_append.mp hf with hf | hf
    · exact h.inRange f hf
    · rw [List.mem_singleton.mp hf, ← hentry]
      exact Write.key_inRange htx hw (Or.inl rfl)

private theorem transactLoop_adds {o : Oracle} (htx : txn.Ok) :
    ∀ {vs : List Json} {i : Nat} {st st' : TxnState}, (∀ v ∈ vs, v.FactInRange) → st.ids.Ok →
      LoopAdds sha256 txn.ns txn.tx st.store st.newFacts →
      transactLoop sha256 o txn i st vs = some st' → st'.ids.id ≤ 2 ^ 29 →
      LoopAdds sha256 txn.ns txn.tx st'.store st'.newFacts := by
  intro vs
  induction vs with
  | nil =>
      intro i st st' _ _ hadds h _
      rw [transactLoop, Option.some.injEq] at h
      exact h ▸ hadds
  | cons v rest ih =>
      intro i st st' hvs hids hadds h hbound
      rw [transactLoop, Option.bind_eq_some_iff] at h
      obtain ⟨st₁, h1, h2⟩ := h
      have hids₁ := (transactFact_ids hids h1).1
      have hbound₁ : st₁.ids.id ≤ 2 ^ 29 := le_trans (transactLoop_ids hids₁ h2).2 hbound
      refine ih (fun x hx => hvs x (by simp [hx])) hids₁ ?_ h2 hbound
      obtain ⟨ids, ⟨hr, rfl⟩ | ⟨w, hr, hw⟩⟩ := transactFact_cases h1
      · exact hadds
      · have hst : st₁.ids = ids := insertWrite_ids hw
        have hwok := (readElement_spec hids hr).2.2 (hvs v (by simp)) (hst ▸ hbound₁) w rfl
        have hins := insertWrite_inserted htx hwok (by exact hadds.ok) hw
        obtain ⟨-, -, -, -, hfacts⟩ := insertWrite_cases htx hwok (by exact hadds.ok) hw
        rw [hfacts]
        exact hadds.insert htx hwok hins

end Loop

/-! ### The last transaction of a store -/

/-- A store after a transaction that has listed some facts. -/
structure Adds (sha256 : Bytes → Value) (n : Nat) (tx : Int) (s : Store) (fs : List Fact) :
    Prop extends LoopAdds sha256 n tx s fs where
  inv : DatomInv sha256 s
  ns_lt : n < 2 ^ 31
  tx_range : 1 ≤ tx ∧ tx < 2 ^ 29
  latest : ∀ x ∈ s, x.1.IsDatom → x.1.ns = n → x.1.t / 2 ≤ tx

section Last

variable {sha256 : Bytes → Value} {q : Oracle} {n : Nat} {tx : Int} {s : Store} {fs : List Fact}

/-- What a request that is answered with a response has committed. -/
theorem response_commits {i : Input} {arg : Option Json} {newIds : List (Int × Int)}
    (hr : Sound s) (hi : InputBounded sha256 s i) (hreq : i.2 = .transact n arg)
    (hrep : reply sha256 s i = .response tx fs newIds) :
    ∃ vs st, Commits sha256 i s n tx vs st ∧ st.newFacts = fs := by
  obtain ⟨vs, rfl, htr⟩ := response_transact hreq hrep
  obtain ⟨o, req⟩ := i
  have hreq : req = .transact n (some (.array vs)) := hreq
  subst hreq
  obtain ⟨hn, hfs, htx, hid⟩ := hi
  obtain ⟨tx', id, st, hgtx, hgid, hloop, hs', hresp⟩ := transact_cases htr
  simp only [Reply.response.injEq] at hresp
  obtain ⟨rfl, rfl, -⟩ := hresp
  obtain ⟨hct, hci⟩ := getMeta_commitStore n tx st (lt_trans hn (by norm_num))
  rw [hs'] at htx hid
  refine ⟨vs, st, ⟨rfl, hn, ?_, hfs vs rfl, ⟨id, hgid, hloop⟩, hid _ hci, hs', ?_⟩, rfl⟩
  · simp only [isCommit, hrep, decide_true]
  · rw [hs']
    exact transactLoop_transacted hr hn (hfs vs rfl) hgtx hgid hloop (htx _ hct) (hid _ hci)

/-- **A transaction adds the facts it lists.** -/
theorem Commits.adds {i : Input} {vs : List Json} {st : TxnState}
    (h : Commits sha256 i s n tx vs st) (hr : DatomInv sha256 s) :
    Adds sha256 n tx (step sha256 s i) st.newFacts := by
  have hinv := h.datomInv hr
  obtain ⟨id, hgid, hloop⟩ := h.loop
  have hn := h.ns_lt
  have hgtx := h.transacted.exists_before
  have hle := h.transacted.tx_le
  have hpos := hr.tx_range n tx hn hgtx
  have htxn : (beginTxn i.1 s n tx).Ok := transact_txn_ok hr.toSound hn hgtx (by omega)
  -- no datom is of this transaction yet
  have hbegin : LoopAdds sha256 n tx (beginState s id).store (beginState s id).newFacts := by
    refine ⟨hr.ok, fun x hx hd hxn _ ht => ?_, fun f hf => ?_, fun l f r hsplit _ => ?_,
      fun f hf => ?_, fun f hf => ?_⟩
    · have := hr.times x hx hd tx (hxn ▸ hgtx)
      omega
    · exact absurd hf List.not_mem_nil
    · exact absurd hsplit (by simp [beginState])
    · exact absurd hf List.not_mem_nil
    · exact absurd hf List.not_mem_nil
  have hadds := transactLoop_adds htxn h.facts (beginState_ids_ok hr.toSound hn hgid) hbegin hloop
    h.bound
  have hmem : ∀ {x : Entry}, x.1.IsDatom → (x ∈ step sha256 s i ↔ x ∈ st.store) := by
    intro x hd
    rw [h.store]
    exact mem_commitStore hadds.ok hn fun hc => not_isDatom_of_meta hc hd
  refine ⟨⟨hinv.ok, fun x hx hd => hadds.listed x ((hmem hd).mp hx) hd, fun f hf => ?_,
    fun l f r hsplit hr => ?_, hadds.facts, hadds.inRange⟩, hinv, hn, ⟨hpos.1, by omega⟩,
    fun x hx hd hxn => ?_⟩
  · obtain ⟨x, hx, hc⟩ := hadds.stored f hf
    have hxd := isDatom_of_coords_eq (hadds.ok.keys x hx)
      (factEntry_isDatom (hadds.facts f hf).2.2) hc
    exact ⟨x, (hmem hxd).mpr hx, hc⟩
  · have hf : f ∈ st.newFacts := by rw [hsplit]; simp
    exact (hmem (factEntry_isDatom (hadds.facts f hf).2.2)).mpr (hadds.last l f r hsplit hr)
  · have := hinv.times x hx hd (tx + 1) (hxn ▸ h.transacted.tx)
    omega

/-- It leaves what was reported before it as it was. -/
theorem Commits.past {i : Input} {vs : List Json} {st : TxnState} {t : Int64}
    (h : Commits sha256 i s n tx vs st) (hr : DatomInv sha256 s) (ht : t.toInt = tx - 1) :
    factsAt q (step sha256 s i) n t = factsAt q s n t ∧
      manySet q (step sha256 s i) n (tx - 1) = manySet q s n (tx - 1) := by
  have hpos := hr.tx_range n tx h.ns_lt h.transacted.exists_before
  have hsame : SamePast n (tx - 1) s (step sha256 s i) := by
    intro x hd _ hxt
    exact h.transacted.datoms x hd (by omega)
  have hsound := (h.datomInv hr).toSound
  have h0 : 0 ≤ tx - 1 := by omega
  refine ⟨?_, hsame.manySet_eq hr.toSound hsound h.ns_lt h0 q⟩
  have hneg : ¬ t.toInt < 0 := by omega
  unfold factsAt handleFacts
  simp only [hneg, if_false]
  split
  · rfl
  · rw [ht]
    exact hsame.factList_eq hr.toSound hsound h.ns_lt h0 q

private theorem encodeFact_shown (sha256 : Bytes → Value) (v : FactValue) :
    (encodeFact sha256 v).shown = v := by
  cases v with
  | int x => rfl
  | str str => exact encodeStr_shown sha256 str

/-- A fact is read back from its datom. -/
theorem factOf_factEntry {f : Fact} (hok : (encodeFact sha256 f.v).Ok sha256)
    (hret : f.retract = false) : factOf (factEntry sha256 n f) = f := by
  have hdecode : decode (factEntry sha256 n f) = f.v :=
    (decode_encoded hok rfl rfl rfl rfl).trans (encodeFact_shown sha256 f.v)
  have ht : (factEntry sha256 n f).1.t / 2 = f.tx := by
    show (2 * f.tx + if f.retract then 1 else 0) / 2 = f.tx
    split <;> omega
  obtain ⟨e, a, v, tx, retract⟩ := f
  unfold factOf
  rw [hdecode, ht]
  simp only at hret
  rw [hret]
  rfl

theorem Adds.factOf_entry (h : Adds sha256 n tx s fs) {f : Fact} (hf : f ∈ fs) (hret : f.retract = false) :
    factOf (factEntry sha256 n f) = f := factOf_factEntry (h.facts f hf).2.2 hret

/-- A group holds what it held before, and datoms of listed facts. -/
theorem Adds.inGroup (h : Adds sha256 n tx s fs) {e a : Int} {x : Entry}
    (hx : InGroup s n tx e a x) :
    InGroup s n (tx - 1) e a x ∨ ∃ f ∈ fs, x = factEntry sha256 n f := by
  obtain ⟨hxs, hxn, hsort, he, ha, ht⟩ := hx
  have hd := isDatom_of_sort (h.ok.keys x hxs) (Or.inl hsort)
  by_cases htx : x.1.t / 2 = tx
  · exact Or.inr (h.listed x hxs hd hxn hsort htx)
  · have := h.latest x hxs hd hxn
    exact Or.inl ⟨hxs, hxn, hsort, he, ha, by omega⟩

theorem InGroup.mono {e a : Int} {x : Entry} (h : InGroup s n (tx - 1) e a x) :
    InGroup s n tx e a x := by
  obtain ⟨hxs, hxn, hsort, he, ha, ht⟩ := h
  exact ⟨hxs, hxn, hsort, he, ha, by omega⟩

/-- A listed fact whose datom is stored is in its group. -/
theorem Adds.inGroup_listed (h : Adds sha256 n tx s fs) {f : Fact} (hf : f ∈ fs)
    (hs : factEntry sha256 n f ∈ s) : InGroup s n tx f.e f.a (factEntry sha256 n f) := by
  refine ⟨hs, rfl, rfl, rfl, rfl, ?_⟩
  have htx := (h.facts f hf).1
  show 2 * f.tx + (if f.retract then 1 else 0) ≤ 2 * tx + 1
  split <;> omega

/-- A transaction without schema attributes has no `AETV` datoms. -/
theorem Adds.no_AETV (h : Adds sha256 n tx s fs) (hfs : ∀ f ∈ fs, dbInitialId ≤ f.a) {x : Entry}
    (hx : x ∈ s) (hxn : x.1.ns = n) (hsort : x.1.sort = sortAETV) : x.1.t / 2 ≠ tx := by
  intro ht
  have hd := isDatom_of_sort (h.ok.keys x hx) (Or.inr hsort)
  by_cases he : x.1.e < dbInitialId
  · have h0 := (setupWrites_datom (h.inv.base x hx hd he) hd).2.2.1
    have := h.tx_range.1
    omega
  · have hcopy : ({ x.1 with sort := sortAETV }, x.2) ∈ s := by
      rw [← hsort]
      exact hx
    obtain ⟨ha, hE⟩ := (h.inv.copies x.1 x.2 (by omega)).mp hcopy
    obtain ⟨f, hf, hxf⟩ := h.listed _ hE ⟨hd.1, Or.inl rfl⟩ hxn rfl ht
    have hfa : x.1.a = f.a := congrArg (fun x : Entry => x.1.a) hxf
    have := hfs f hf
    omega

/-- So it leaves the cardinalities as they were. -/
theorem Adds.manySet_eq (h : Adds sha256 n tx s fs) (hfs : ∀ f ∈ fs, dbInitialId ≤ f.a) :
    manySet q s n tx = manySet q s n (tx - 1) := by
  have htx := h.tx_range
  have hvis : visibleA s n dbCardinality (txBound tx) =
      visibleA s n dbCardinality (txBound (tx - 1)) := by
    rw [txBound_eq (by omega) (by omega), txBound_eq (by omega) (by omega)]
    unfold visibleA
    refine List.filter_congr fun x hx => ?_
    obtain ⟨hxs, hin⟩ := List.mem_filter.mp hx
    obtain ⟨hxa, hxn, hsort⟩ := inAETV_iff.mp hin
    have hle := h.latest x hxs (isDatom_of_sort (h.ok.keys x hxs) (Or.inr hsort)) hxn
    have hne := h.no_AETV hfs hxs hxn hsort
    refine congrArg Bool.not (decide_eq_decide.mpr ?_)
    omega
  have hquery : queryA s n tx dbCardinality = queryA s n (tx - 1) dbCardinality := by
    rw [queryA_eq h.ok h.inv.positive h.ns_lt, queryA_eq h.ok h.inv.positive h.ns_lt, hvis]
  unfold manySet queryOr
  rw [hquery]

/-- What is shown of an entity that requests can name tells its payload. -/
theorem Adds.payload (h : Adds sha256 n tx s fs) {many : List Int} {t : Int} {x : Entry}
    (hx : Shown many s n t x) (he : dbInitialId ≤ x.1.e) :
    x.1.v = (encodeFact sha256 (factOf x).v).v := by
  obtain ⟨hxs, -, hsort, -⟩ := hx.inGroup
  exact (h.inv.written x hxs (isDatom_of_sort (h.ok.keys x hxs) (Or.inl hsort)) he).faithful

end Last

end Nstore

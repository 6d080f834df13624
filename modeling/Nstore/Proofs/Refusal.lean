/-
When an assertion of a unique attribute is refused.

A request with one assertion is refused exactly if the index entry of its value
names another entity, or if the value has no entry and the last datom that
`last_datom` finds for the entity has none either: deleting that entry fails.

So a value that nobody holds can be refused.  An entry goes stale when the datom
before it was missed at the end of the database, and the entry of a last value is
gone once that value was retracted.
-/
import Nstore.Proofs.Unique

namespace Nstore

open Machine LexDiff

/-! ### Requests with one element -/

/-- A request with one element is refused exactly if the element is. -/
theorem handleTransact_single {sha256 : Bytes → Value} {o : Oracle} (ho : o.Faultless) {s : Store}
    {n : Nat} {tx id : Int} (htx : getMeta s n metaTx = some tx)
    (hid : getMeta s n metaId = some id) (j : Json) :
    (handleTransact sha256 o s n (some (.array [j]))).1 ≠ .ackErr ↔
      (transactFact sha256 o 0 (beginTxn o s n tx) (beginState s id) j).isSome = true := by
  have hloop : transactLoop sha256 o (beginTxn o s n tx) 0 (beginState s id) [j] =
      transactFact sha256 o 0 (beginTxn o s n tx) (beginState s id) j := by
    rw [transactLoop]
    cases transactFact sha256 o 0 (beginTxn o s n tx) (beginState s id) j <;> rfl
  simp only [handleTransact, transact_faultless ho htx hid, hloop, List.length_singleton,
    Nat.one_ne_zero, if_false]
  cases transactFact sha256 o 0 (beginTxn o s n tx) (beginState s id) j <;> simp

/-! ### The entries of the index -/

section Entries

variable {sha256 : Bytes → Value} {s : Store} {n : Nat} {k : CustomKey}

/-- Every index entry names an entity. -/
theorem RepInv.get_unique (hr : RepInv sha256 s) (hn : n < 2 ^ 31)
    (ha : -2 ^ 29 ≤ k.a ∧ k.a < 2 ^ 29) {d : Item} :
    mdbGet s (uniqueKey n k) = some d ↔ ∃ e, d = .num e ∧ Owns s n k.a k.v e := by
  constructor
  · intro h
    obtain ⟨u, hu, ht, hns, hua, huv, rfl⟩ := (mdbGet_unique hr.ok hn ha).mp h
    obtain ⟨y, -, hb⟩ := hr.backed u hu ht
    exact ⟨y.1.e, hb.e, u, hu, ht, hns, hua, huv, hb.e⟩
  · rintro ⟨e, rfl, h⟩
    exact (owns_iff hr.ok hn ha).mpr h

theorem RepInv.get_unique_eq_none (hr : RepInv sha256 s) (hn : n < 2 ^ 31)
    (ha : -2 ^ 29 ≤ k.a ∧ k.a < 2 ^ 29) :
    mdbGet s (uniqueKey n k) = none ↔ ¬ ∃ e, Owns s n k.a k.v e := by
  constructor
  · rintro h ⟨e, he⟩
    rw [(hr.get_unique hn ha).mpr ⟨e, rfl, he⟩] at h
    exact absurd h (by simp)
  · intro h
    cases hg : mdbGet s (uniqueKey n k) with
    | none => rfl
    | some d =>
        obtain ⟨e, -, he⟩ := (hr.get_unique hn ha).mp hg
        exact absurd ⟨e, he⟩ h

theorem RepInv.del_unique_isSome (hr : RepInv sha256 s) (hn : n < 2 ^ 31)
    (ha : -2 ^ 29 ≤ k.a ∧ k.a < 2 ^ 29) :
    (∃ s', mdbDel s (uniqueKey n k) = some s') ↔ ∃ e, Owns s n k.a k.v e := by
  rw [← Option.isSome_iff_exists, mdbDel_isSome hr.ok (uniqueKey_inRange hn ha),
    Option.isSome_iff_exists]
  constructor
  · rintro ⟨d, hd⟩
    obtain ⟨e, -, he⟩ := (hr.get_unique hn ha).mp hd
    exact ⟨e, he⟩
  · rintro ⟨e, he⟩
    exact ⟨_, (hr.get_unique hn ha).mpr ⟨e, rfl, he⟩⟩

end Entries

/-! ### Free values -/

/--
What the code takes for a value that an entity may have: its index entry, if there
is one, is the entity's own; and if there is none, the last datom of the entity,
unless it has none or it is the greatest of the database, has an entry to give up.
-/
structure Free (s : Store) (n : Nat) (e a : Int) (p : Value) : Prop where
  own : ∀ e', Owns s n a p e' → e' = e
  last : (¬ ∃ e', Owns s n a p e') → ∀ x ∈ s, x.1.sort = sortEATV → x.1.ns = n → x.1.e = e →
    x.1.a = a → IsLast s x → BeyondGroup s x → ∃ e', Owns s n a x.1.v e'

section Check

variable {sha256 : Bytes → Value} {s : Store} {k : CustomKey}

/-- **The check lets an assertion pass exactly if its value is free.** -/
theorem checkUnique_isSome_iff {o : Oracle} (ho : o.Faultless) {i : Nat} {txn : Txn}
    (hr : RepInv sha256 s) (hk : Searchable k) (hns : k.ns = txn.ns)
    (hex : nsExists s txn.ns = true) (ha : k.a ∈ txn.eUnique) :
    (∃ s', checkUnique o i txn s k false = some s') ↔ Free s txn.ns k.e k.a k.v := by
  have hn : txn.ns < 2 ^ 31 := hns ▸ hk.ns_lt
  have hlast := lastDatom_iff hr.ok (hns ▸ hr.based txn.ns hn hex) hk
  constructor
  · rintro ⟨s', h⟩
    rcases (checkUnique_faultless ho ha).mp h with ⟨hc, -⟩ | ⟨-, -, d, hd, hde⟩ |
      ⟨-, hnone, hl, -⟩ | ⟨-, hnone, last, s₁, hl, hdel, -⟩
    · exact absurd hc (by simp)
    · obtain ⟨e, rfl, he⟩ := (hr.get_unique hn hk.a_range).mp hd
      refine ⟨fun e' he' => ?_, fun hc => absurd ⟨e, he⟩ hc⟩
      rw [he'.unique hr.ok he]
      exact hde
    · rw [hr.get_unique_eq_none hn hk.a_range] at hnone
      refine ⟨fun e' he' => absurd ⟨e', he'⟩ hnone, fun _ x hx hsort hxn hxe hxa hxl hxb => ?_⟩
      have := (hlast x.1).mpr ⟨x.2, hx, ⟨hsort, hxn.trans hns.symm, hxe, hxa⟩, hxl, hxb⟩
      rw [hl] at this
      exact absurd this (by simp)
    · rw [hr.get_unique_eq_none hn hk.a_range] at hnone
      refine ⟨fun e' he' => absurd ⟨e', he'⟩ hnone, fun _ x hx hsort hxn hxe hxa hxl hxb => ?_⟩
      have := (hlast x.1).mpr ⟨x.2, hx, ⟨hsort, hxn.trans hns.symm, hxe, hxa⟩, hxl, hxb⟩
      rw [hl, Option.some.injEq] at this
      have hla := (lastDatom_fields hl).2.1
      have := (hr.del_unique_isSome hn (by rw [hla]; exact hk.a_range)).mp ⟨s₁, hdel⟩
      rw [hla] at this
      rw [← ‹last = x.1›]
      exact this
  · intro h
    by_cases hown : ∃ e', Owns s txn.ns k.a k.v e'
    · obtain ⟨e', he'⟩ := hown
      have hget := (hr.get_unique hn hk.a_range).mpr ⟨e', rfl, he'⟩
      exact ⟨_, (checkUnique_faultless ho ha).mpr (Or.inr (Or.inl ⟨rfl, rfl, _, hget, h.own e' he'⟩))⟩
    · have hnone := (hr.get_unique_eq_none hn hk.a_range).mpr hown
      cases hl : lastDatom s k with
      | none =>
          exact ⟨_, (checkUnique_faultless ho ha).mpr (Or.inr (Or.inr (Or.inl ⟨rfl, hnone, hl, rfl⟩)))⟩
      | some last =>
          obtain ⟨d, hmem, hg, hxl, hxb⟩ := (hlast last).mp hl
          have howner := h.last hown _ hmem hg.1 (hg.2.1.trans hns) hg.2.2.1 hg.2.2.2 hxl hxb
          have hla := (lastDatom_fields hl).2.1
          rw [← hla] at howner
          obtain ⟨s₁, hdel⟩ := (hr.del_unique_isSome hn (by rw [hla]; exact hk.a_range)).mpr howner
          exact ⟨_, (checkUnique_faultless ho ha).mpr
            (Or.inr (Or.inr (Or.inr ⟨rfl, hnone, last, s₁, hl, hdel, rfl⟩)))⟩

end Check

/-! ### Refused requests -/

/-- In an answer no other entity holds the value. -/
def NoOtherHolder (e a : Int) (v : FactValue) : Reply → Prop
  | .facts _ fs => ∀ f ∈ fs, f.a = a → f.v = v → f.e = e
  | _ => True

instance (e a : Int) (v : FactValue) (r : Reply) : Decidable (NoOtherHolder e a v r) :=
  match r with
  | .facts _ fs => inferInstanceAs (Decidable (∀ f ∈ fs, f.a = a → f.v = v → f.e = e))
  | .ackOk => inferInstanceAs (Decidable True)
  | .ackErr => inferInstanceAs (Decidable True)
  | .response _ _ _ => inferInstanceAs (Decidable True)

section Requests

variable {sha256 : Bytes → Value} {o : Oracle} {s : Store} {n : Nat} {tx id : Int} {ids : Ids}
  {j : Json} {w : Write}

/-- What an element reads has a key that can be searched for, if its numbers are in range. -/
theorem searchable_of_read {txn : Txn} {eRef : List Int} {ids₀ : Ids} (hids : ids₀.Ok)
    (hn : txn.ns < 2 ^ 31) (hread : readElement sha256 eRef ids₀ j = some (ids, some w))
    (he : w.e < 2 ^ 29) (ha : -2 ^ 29 ≤ w.a ∧ w.a < 2 ^ 29)
    (hv : ∀ x, w.enc.shown = .int x → -2 ^ 29 ≤ x ∧ x < 2 ^ 29) {sort : Nat} :
    Searchable (w.key txn sort) := by
  obtain ⟨h11, henc⟩ := readElement_write hids hread
  cases hs : w.enc.shown with
  | int x =>
      rw [hs] at henc
      have hx := hv x hs
      refine ⟨Or.inl (congrArg Encoded.type henc), hn, ⟨h11, he⟩, ha, ?_, fun _ => ?_⟩
      · show -2 ^ 15 ≤ w.enc.pad ∧ w.enc.pad < 2 ^ 15
        rw [henc]
        exact ⟨by show (-2 ^ 15 : Int) ≤ 0; norm_num, by show (0 : Int) < 2 ^ 15; norm_num⟩
      · show -2 ^ 29 ≤ w.enc.v.i ∧ w.enc.v.i < 2 ^ 29
        rw [henc]
        show -2 ^ 29 ≤ (Value.zero.setI x).i ∧ (Value.zero.setI x).i < 2 ^ 29
        rw [Value.i_setI _ ⟨by omega, by omega⟩]
        exact hx
  | str str =>
      rw [hs] at henc
      have htype : w.enc.type = .keyBlob := by
        rw [henc]
        exact encodeStr_type sha256 str
      refine ⟨Or.inr htype, hn, ⟨h11, he⟩, ha, ?_, fun hi => ?_⟩
      · show -2 ^ 15 ≤ w.enc.pad ∧ w.enc.pad < 2 ^ 15
        rw [henc]
        exact encodeStr_pad_range sha256 str
      · exact absurd (htype.symm.trans hi) (by simp)

/-- The puts of a datom that has passed the check do not fail. -/
def PutsGoThrough (o : Oracle) (txn : Txn) (s : Store) (w : Write) : Prop :=
  ∀ s', checkUnique o 0 txn s (w.key txn sortEATV) w.retract = some s' →
    ∃ sm, putDatom o 0 (s', none) (datomKey txn w.e w.a w.enc w.retract) w.enc.data = some sm

/-- An element is accepted exactly if the check lets it pass. -/
theorem transactFact_isSome_iff {txn : Txn} {st : TxnState} (ho : o.Faultless)
    (hmc : st.mc = none) (hread : readElement sha256 txn.eRef st.ids j = some (ids, some w))
    (hput : PutsGoThrough o txn st.store w) :
    (transactFact sha256 o 0 txn st j).isSome = true ↔
      ∃ s', checkUnique o 0 txn st.store (w.key txn sortEATV) w.retract = some s' := by
  rw [transactFact_eq, hread, Option.bind_some]
  simp only [insertWrite, ho _, Bool.and_false, Bool.false_eq_true, if_false]
  show (Option.bind (checkUnique o 0 txn st.store (w.key txn sortEATV) w.retract) _).isSome = true ↔ _
  rw [hmc]
  cases hc : checkUnique o 0 txn st.store (w.key txn sortEATV) w.retract with
  | none => simp
  | some s' =>
      obtain ⟨sm, hsm⟩ := hput s' hc
      simp [hsm]

/--
**When a free value is refused.**  A request with one assertion on a unique
attribute, whose value no other entity holds, is accepted exactly if the value is
free as the code takes it.
-/
theorem transact_not_refused_iff {o₀ q : Oracle} {is : List Input} (ho₀ : o₀.SetupFaultless)
    (ho : o.Faultless) (his : Along (step sha256) (InputInRange sha256) (dbOpen o₀ []) is)
    (hn : n < 2 ^ 31) (htx : getMeta (run (step sha256) (dbOpen o₀ []) is) n metaTx = some tx)
    (hid : getMeta (run (step sha256) (dbOpen o₀ []) is) n metaId = some id)
    (hread : readElement sha256 (refSet o (run (step sha256) (dbOpen o₀ []) is) n tx) ⟨[], id⟩ j =
      some (ids, some w))
    (hret : w.retract = false)
    (hu : w.a ∈ uniqueSet o (run (step sha256) (dbOpen o₀ []) is) n tx)
    (he : w.e < 2 ^ 29) (ha : -2 ^ 29 ≤ w.a ∧ w.a < 2 ^ 29)
    (hv : ∀ x, w.enc.shown = .int x → -2 ^ 29 ≤ x ∧ x < 2 ^ 29)
    (hput : PutsGoThrough o (beginTxn o (run (step sha256) (dbOpen o₀ []) is) n tx)
      (run (step sha256) (dbOpen o₀ []) is) w) :
    (NoOtherHolder w.e w.a w.enc.shown
        (handleFacts q (run (step sha256) (dbOpen o₀ []) is) n (some (.int64 (-1)))) →
      (handleTransact sha256 o (run (step sha256) (dbOpen o₀ []) is) n (some (.array [j]))).1 ≠
        .ackErr) ↔
    (NoOtherHolder w.e w.a w.enc.shown
        (handleFacts q (run (step sha256) (dbOpen o₀ []) is) n (some (.int64 (-1)))) →
      Free (run (step sha256) (dbOpen o₀ []) is) n w.e w.a w.enc.v) := by
  have hr := repInv_run (repInv_dbOpen ho₀) his
  set s := run (step sha256) (dbOpen o₀ []) is
  have hk : Searchable (w.key (beginTxn o s n tx) sortEATV) :=
    searchable_of_read (beginState_ids_ok hr.sound hn hid) hn hread he ha hv
  have hex : nsExists s n = true := by simp [nsExists, htx]
  have hcheck := checkUnique_isSome_iff ho (i := 0) hr hk rfl hex hu
  rw [handleTransact_single ho htx hid, transactFact_isSome_iff ho rfl hread hput, hret]
  exact imp_congr_right fun _ => hcheck

end Requests

/-- A first ident in a new database. -/
theorem transact_not_refused_iff_sample :
    (NoOtherHolder 11 1 (.int 7)
        (handleFacts .calm (run (step .ofBytes) (dbOpen .calm []) []) 0 (some (.int64 (-1)))) →
      (handleTransact .ofBytes .calm (run (step .ofBytes) (dbOpen .calm []) []) 0
        (some (.array [.array [.int64 11, .int64 1, .int64 7, .int64 0]]))).1 ≠ .ackErr) ↔
    (NoOtherHolder 11 1 (.int 7)
        (handleFacts .calm (run (step .ofBytes) (dbOpen .calm []) []) 0 (some (.int64 (-1)))) →
      Free (run (step .ofBytes) (dbOpen .calm []) []) 0 11 1 (encodeInt 7).v) := by
  have htx : getMeta (run (step .ofBytes) (dbOpen .calm []) []) 0 metaTx = some 1 := by
    decide +kernel
  have hid : getMeta (run (step .ofBytes) (dbOpen .calm []) []) 0 metaId = some 11 := by
    decide +kernel
  have hread : readElement .ofBytes (refSet .calm (run (step .ofBytes) (dbOpen .calm []) []) 0 1)
      ⟨[], 11⟩ (.array [.int64 11, .int64 1, .int64 7, .int64 0]) =
        some (⟨[], 11⟩, some ⟨11, 1, encodeInt 7, false⟩) := by
    have h7 : ¬ ((7 : Int64).toInt < 0) := by decide
    have h0 : ¬ ((11 : Int64).toInt < 0) := by decide
    have h11 : ¬ ((11 : Int64).toInt < dbInitialId) := by decide
    simp only [readElement, resolveEntity, readValue, resolveValue, h7, h0, h11, and_false,
      if_false, Option.map_some]
    rfl
  have his : Along (step .ofBytes) (InputInRange .ofBytes) (dbOpen .calm []) [] := trivial
  refine transact_not_refused_iff Oracle.calm_faultless.setup Oracle.calm_faultless his
    (by norm_num) htx hid hread rfl (by decide +kernel) (by norm_num) (by norm_num) ?_ ?_
  · intro x hx
    cases hx
    norm_num
  · intro s' _
    obtain ⟨mc, h⟩ := putDatom_faultless (encodeInt_plain 7) Oracle.calm_faultless 0 s' none
      (k := datomKey (beginTxn .calm (run (step .ofBytes) (dbOpen .calm []) []) 0 1) 11 1
        (encodeInt 7) false) rfl
    exact ⟨_, h⟩

/-- Three requests: an attribute is declared unique, and given two values by one entity. -/
def staleRun : List Input :=
  [[.int64 50, .int64 4, .int64 10, .int64 0], [.int64 60, .int64 50, .int64 7, .int64 0],
    [.int64 60, .int64 50, .int64 8, .int64 0]].map fun fact =>
      (.calm, .transact 0 (some (.array [.array fact])))

/-- The first value is held by nobody, and refused to anybody else. -/
theorem refused_stale :
    NoOtherHolder 61 50 (.int 7)
      (handleFacts .calm (run (step .ofBytes) (dbOpen .calm []) staleRun) 0 (some (.int64 (-1)))) ∧
    50 ∈ uniqueSet .calm (run (step .ofBytes) (dbOpen .calm []) staleRun) 0 4 ∧
    (handleTransact .ofBytes .calm (run (step .ofBytes) (dbOpen .calm []) staleRun) 0
      (some (.array [.array [.int64 61, .int64 50, .int64 7, .int64 0]]))).1 = .ackErr := by
  decide +kernel

end Nstore

/-
Uniqueness of values.

A unique attribute is kept so by the index: an assertion claims the entry of its
value, and gives up the entry of the entity's last value.  That works as long as
the entries given up are the entity's own and no longer stand for what it holds.
`KeepsIndex` is that condition on one write; `Indexed` is what it preserves: what
an entity holds, the index says it owns.

The entities of `setup` whose idents are not entered in the index are left out,
and with them the values they hold.
-/
import Nstore.Proofs.Index
import Nstore.Proofs.History

namespace Nstore

open Machine

/-! ### Owners -/

/-- The index entry of an attribute and payload names an entity. -/
def Owns (s : Store) (n : Nat) (a : Int) (p : Value) (e : Int) : Prop :=
  ∃ u ∈ s, u.1.type = .keyUnique ∧ u.1.ns = n ∧ u.1.a = a ∧ u.1.v = p ∧ u.2 = .num e

section Owners

variable {s s' : Store} {n : Nat} {a e e' : Int} {p : Value} {k : CustomKey}

theorem owns_iff (hs : StoreOk s) (hn : n < 2 ^ 31) (ha : -2 ^ 29 ≤ k.a ∧ k.a < 2 ^ 29) :
    mdbGet s (uniqueKey n k) = some (.num e) ↔ Owns s n k.a k.v e :=
  mdbGet_unique hs hn ha

theorem Owns.unique (hs : StoreOk s) (h : Owns s n a p e) (h' : Owns s n a p e') : e = e' := by
  obtain ⟨u, hu, ht, hns, ha, hv, he⟩ := h
  obtain ⟨u', hu', ht', hns', ha', hv', he'⟩ := h'
  have hc : u.1.coords = u'.1.coords := by
    simp only [CustomKey.coords, ht, ht', hns, hns', ha, ha', hv, hv']
  rw [hs.unique hu hu' hc, he'] at he
  simpa using he.symm

theorem owns_put (hs : StoreOk s) (hn : n < 2 ^ 31) (hk : -2 ^ 29 ≤ k.a ∧ k.a < 2 ^ 29) :
    Owns (mdbPut s (uniqueKey n k) (.num e)) n a p e' ↔
      ((a = k.a ∧ p = k.v) ∧ e' = e) ∨ (¬ (a = k.a ∧ p = k.v) ∧ Owns s n a p e') := by
  have hmem := mem_mdbPut (d := .num e) hs (uniqueKey_inRange hn hk)
  constructor
  · rintro ⟨u, hu, ht, hns, ha, hv, he⟩
    rcases (hmem u).mp hu with rfl | ⟨hu, hne⟩
    · exact Or.inl ⟨⟨ha.symm, hv.symm⟩, by simpa using he.symm⟩
    · refine Or.inr ⟨fun hc => hne ?_, u, hu, ht, hns, ha, hv, he⟩
      exact coords_eq_unique.mpr ⟨hns, ht, ha.trans hc.1, hv.trans hc.2⟩
  · rintro (⟨⟨rfl, rfl⟩, rfl⟩ | ⟨hne, u, hu, ht, hns, ha, hv, he⟩)
    · exact ⟨_, (hmem _).mpr (Or.inl rfl), rfl, rfl, rfl, rfl, rfl⟩
    · refine ⟨u, (hmem u).mpr (Or.inr ⟨hu, fun hc => hne ?_⟩), ht, hns, ha, hv, he⟩
      obtain ⟨-, -, h3, h4⟩ := coords_eq_unique.mp hc
      exact ⟨ha ▸ h3, hv ▸ h4⟩

theorem owns_del (hs : StoreOk s) (hn : n < 2 ^ 31) (hk : -2 ^ 29 ≤ k.a ∧ k.a < 2 ^ 29)
    (h : mdbDel s (uniqueKey n k) = some s') :
    Owns s' n a p e ↔ Owns s n a p e ∧ ¬ (a = k.a ∧ p = k.v) := by
  have hmem := mem_mdbDel hs (uniqueKey_inRange hn hk) h
  constructor
  · rintro ⟨u, hu, ht, hns, ha, hv, he⟩
    obtain ⟨hu, hne⟩ := (hmem u).mp hu
    refine ⟨⟨u, hu, ht, hns, ha, hv, he⟩, fun hc => hne ?_⟩
    exact coords_eq_unique.mpr ⟨hns, ht, ha.trans hc.1, hv.trans hc.2⟩
  · rintro ⟨⟨u, hu, ht, hns, ha, hv, he⟩, hne⟩
    refine ⟨u, (hmem u).mpr ⟨hu, fun hc => hne ?_⟩, ht, hns, ha, hv, he⟩
    obtain ⟨-, -, h3, h4⟩ := coords_eq_unique.mp hc
    exact ⟨ha ▸ h3, hv ▸ h4⟩

/-- Datoms do not matter to who owns what. -/
theorem owns_putBoth {sha256 : Bytes → Value} {txn : Txn} {w : Write} (htx : txn.Ok)
    (hw : w.Ok sha256) (hs : StoreOk s) :
    Owns (putBoth s (datomKey txn w.e w.a w.enc w.retract) w.enc.item) n a p e ↔ Owns s n a p e := by
  have hmem : ∀ {u : Entry}, u.1.type = .keyUnique →
      (u ∈ putBoth s (datomKey txn w.e w.a w.enc w.retract) w.enc.item ↔ u ∈ s) := fun ht =>
    mem_putBoth_of_not htx hw hs fun hc => not_isDatom_of_unique ht hc.1
  constructor
  · rintro ⟨u, hu, ht, h⟩
    exact ⟨u, (hmem ht).mp hu, ht, h⟩
  · rintro ⟨u, hu, ht, h⟩
    exact ⟨u, (hmem ht).mpr hu, ht, h⟩

end Owners

/-! ### The check where no call fails -/

/-- What the constraint check has found when it lets a fact of a unique attribute pass. -/
theorem checkUnique_faultless {o : Oracle} (ho : o.Faultless) {i : Nat} {txn : Txn} {s s' : Store}
    {ck : CustomKey} {retract : Bool} (ha : ck.a ∈ txn.eUnique) :
    checkUnique o i txn s ck retract = some s' ↔
      (retract = true ∧ mdbDel s (uniqueKey txn.ns ck) = some s') ∨
      (retract = false ∧ s' = mdbPut s (uniqueKey txn.ns ck) (.num ck.e) ∧
        ∃ d, mdbGet s (uniqueKey txn.ns ck) = some d ∧ d.i64 = ck.e) ∨
      (retract = false ∧ mdbGet s (uniqueKey txn.ns ck) = none ∧ lastDatom s ck = none ∧
        s' = mdbPut s (uniqueKey txn.ns ck) (.num ck.e)) ∨
      (retract = false ∧ mdbGet s (uniqueKey txn.ns ck) = none ∧
        ∃ last s₁, lastDatom s ck = some last ∧ mdbDel s (uniqueKey txn.ns last) = some s₁ ∧
          s' = mdbPut s₁ (uniqueKey txn.ns ck) (.num ck.e)) := by
  cases retract with
  | true =>
      unfold checkUnique
      rw [if_neg (by simpa using ha)]
      simp [ho _]
  | false =>
      rw [checkUnique_assert_iff (ho _) (ho _) ha]
      simp only [ho _, Bool.false_eq_true, false_and, false_or, true_and]
      exact or_congr_left ⟨fun ⟨d, hget, hd, hs⟩ => ⟨hs, d, hget, hd⟩,
        fun ⟨hs, d, hget, hd⟩ => ⟨d, hget, hd, hs⟩⟩

/-! ### What a write must not do -/

/-- The idents that `setup` writes without an index entry. -/
def unindexedIdents : List Value :=
  [":db.type/value", ":db.type/ref", ":db.cardinality/one", ":db.cardinality/many",
    ":db.unique/no", ":db.unique/yes"].map fun name => .ofBytes (ascii name)

/--
A write to a unique attribute that only gives up the entity's own entries, and not
the entry of a value that stays the last one; and that does not claim an ident
that is taken without the index knowing.
-/
structure KeepsIndex (txn : Txn) (s : Store) (w : Write) : Prop where
  retracts : w.retract = true → ∀ d,
    mdbGet s (uniqueKey txn.ns (w.key txn sortEATV)) = some d → d = .num w.e
  replaces : w.retract = false → mdbGet s (uniqueKey txn.ns (w.key txn sortEATV)) = none →
    ∀ last, lastDatom s (w.key txn sortEATV) = some last →
      (∀ d, mdbGet s (uniqueKey txn.ns last) = some d → d = .num w.e) ∧
        last.tv < (w.key txn sortEATV).tv
  claims : w.retract = false → w.a = dbIdent → w.enc.v ∉ unindexedIdents

/-! ### What is held is owned -/

/-- An entity and attribute whose value `setup` did not enter in the index. -/
def Unindexed (a e : Int) : Prop := a = dbIdent ∧ dbTypeValue ≤ e ∧ e ≤ dbUniqueYes

/-- The `EATV` assertions of an attribute in a namespace. -/
structure Asserts (n : Nat) (a : Int) (x : Entry) : Prop where
  sort : x.1.sort = sortEATV
  ns : x.1.ns = n
  a : x.1.a = a
  even : x.1.t % 2 = 0

/-- What an entity holds, it owns. -/
structure Indexed (n : Nat) (a : Int) (s : Store) : Prop where
  owned : ∀ x ∈ s, Asserts n a x → IsLast s x → ¬ Unindexed a x.1.e → Owns s n a x.1.v x.1.e
  claimed : a = dbIdent → ∀ x ∈ s, Asserts n a x → dbInitialId ≤ x.1.e → x.1.v ∉ unindexedIdents

/-- It depends on the datoms and index entries of the namespace only. -/
theorem Indexed.congr {n : Nat} {a : Int} {s s' : Store} (hok : StoreOk s) (hok' : StoreOk s')
    (h : Indexed n a s)
    (hs : ∀ x : Entry, x.1.ns = n → x.1.type ≠ .keyMeta → (x ∈ s' ↔ x ∈ s)) : Indexed n a s' := by
  have hdatom : ∀ {x : Entry}, x.1.ns = n → x.1.sort = sortEATV → (x ∈ s' ↔ x ∈ s) := by
    intro x hxn hsort
    constructor
    · intro hx
      refine (hs x hxn fun hc => ?_).mp hx
      exact not_isDatom_of_meta hc (isDatom_of_sort (hok'.keys x hx) (Or.inl hsort))
    · intro hx
      refine (hs x hxn fun hc => ?_).mpr hx
      exact not_isDatom_of_meta hc (isDatom_of_sort (hok.keys x hx) (Or.inl hsort))
  refine ⟨fun x hx ha hl hu => ?_, fun hi x hx ha he => ?_⟩
  · have hl' : IsLast s x := fun y hy hg =>
      hl y ((hdatom (hg.2.1.trans ha.ns) hg.1).mpr hy) hg
    obtain ⟨u, hu, ht, hns, h⟩ := h.owned x ((hdatom ha.ns ha.sort).mp hx) ha hl' hu
    exact ⟨u, (hs u hns (by rw [ht]; simp)).mpr hu, ht, hns, h⟩
  · exact h.claimed hi x ((hdatom ha.ns ha.sort).mp hx) ha he

section Insertion

variable {sha256 : Bytes → Value} {o : Oracle} {txn : Txn} {w : Write} {a : Int}
  {st st' : TxnState} {i : Nat}

/-- The last datom of a group after an insertion is the new one, or was last before it. -/
theorem Inserted.isLast {s s' : Store} (hs : StoreOk s) (hw : w.Ok sha256)
    (hins : Inserted txn w s s') {x : Entry} (hx : x ∈ s') (ha : Asserts txn.ns a x)
    (hl : IsLast s' x) :
    x = (w.key txn sortEATV, w.enc.item) ∨
      (x ∈ s ∧ IsLast s x ∧ (x.1.e = w.e → x.1.a = w.a → (w.key txn sortEATV).tv ≤ x.1.tv)) := by
  have hxd := isDatom_of_sort (hins.ok.keys x hx) (Or.inl ha.sort)
  have hnew : (w.key txn sortEATV, w.enc.item) ∈ s' :=
    (hins.datoms _ (Write.key_isDatom hw (Or.inl rfl))).mpr (Or.inl (Or.inl rfl))
  have hle : x.1.e = w.e → x.1.a = w.a → (w.key txn sortEATV).tv ≤ x.1.tv := fun he hxa =>
    hl _ hnew ⟨rfl, ha.ns.symm, he.symm, hxa.symm⟩
  rcases (hins.datoms x hxd).mp hx with (h | ⟨-, h⟩) | ⟨hxs, -⟩
  · exact Or.inl h
  · have := ha.sort
    rw [h] at this
    exact absurd this (by show sortAETV ≠ sortEATV; decide)
  · refine Or.inr ⟨hxs, fun y hy hg => ?_, hle⟩
    by_cases hr : w.Replaces txn y
    · -- what was replaced has the time and value of what replaced it
      obtain ⟨⟨-, he, hya, htv⟩, -⟩ := hr
      rw [htv]
      exact hle (hg.2.2.1.symm.trans he) (hg.2.2.2.symm.trans hya)
    · have hyd := isDatom_of_sort (hs.keys y hy) (Or.inl hg.1)
      exact hl y ((hins.datoms y hyd).mpr (Or.inr ⟨hy, hr⟩)) hg

/-- The check leaves the entries of other attributes alone. -/
theorem owns_checkUnique {s s₁ : Store} {e : Int} {p : Value} (hs : StoreOk s)
    (htx : txn.Ok) (hw : w.Ok sha256) (hne : a ≠ w.a)
    (h : checkUnique o i txn s (w.key txn sortEATV) w.retract = some s₁) :
    Owns s₁ txn.ns a p e ↔ Owns s txn.ns a p e := by
  have hka : ∀ {k : CustomKey}, k.a = w.a → -2 ^ 29 ≤ k.a ∧ k.a < 2 ^ 29 := fun hk => by
    rw [hk]; exact hw.a_range
  have hdel : ∀ {k : CustomKey} {s₁ : Store}, k.a = w.a → mdbDel s (uniqueKey txn.ns k) = some s₁ →
      (Owns s₁ txn.ns a p e ↔ Owns s txn.ns a p e) := fun hk h => by
    rw [owns_del hs htx.ns_lt (hka hk) h]
    exact and_iff_left fun hc => hne (hc.1.trans hk)
  have hput : ∀ {s : Store}, StoreOk s →
      (Owns (mdbPut s (uniqueKey txn.ns (w.key txn sortEATV)) (.num w.e)) txn.ns a p e ↔
        Owns s txn.ns a p e) := fun hs => by
    rw [owns_put hs htx.ns_lt hw.a_range]
    have : ¬ (a = (w.key txn sortEATV).a ∧ p = (w.key txn sortEATV).v) := fun hc => hne hc.1
    simp only [this, false_and, false_or, not_false_eq_true, true_and]
  rcases checkUnique_cases h with ⟨-, rfl⟩ | ⟨-, -, h⟩ | ⟨-, -, s₂, hs₂, rfl⟩
  · exact Iff.rfl
  · exact hdel rfl h
  · rcases hs₂ with rfl | ⟨last, hl, h⟩
    · exact hput hs
    · rw [← hdel (lastDatom_fields hl).2.1 h]
      exact hput (mdbDel_ok hs h)

/-- Writes to other attributes keep it. -/
theorem Indexed.insert_other (htx : txn.Ok) (hw : w.Ok sha256) (hs : StoreOk st.store)
    (hne : a ≠ w.a) (hi : Indexed txn.ns a st.store) (h : insertWrite o i txn st w = some st') :
    Indexed txn.ns a st'.store := by
  have hins := insertWrite_inserted htx hw hs h
  obtain ⟨s₁, hcheck, hstore, -, -⟩ := insertWrite_cases htx hw hs h
  have hok₁ := (checkUnique_step hs htx.ns_lt hw.a_range hcheck).ok
  have hkey : ∀ x : Entry, Asserts txn.ns a x → x ≠ (w.key txn sortEATV, w.enc.item) := by
    rintro x ha rfl
    exact hne ha.a.symm
  refine ⟨fun x hx ha hl hu => ?_, fun hid x hx ha he => ?_⟩
  · rcases hins.isLast hs hw hx ha hl with h | ⟨hxs, hl', -⟩
    · exact absurd h (hkey x ha)
    · rw [hstore, owns_putBoth htx hw hok₁, owns_checkUnique hs htx hw hne hcheck]
      exact hi.owned x hxs ha hl' hu
  · rcases (hins.datoms x (isDatom_of_sort (hins.ok.keys x hx) (Or.inl ha.sort))).mp hx with
      (h | ⟨-, h⟩) | ⟨hxs, -⟩
    · exact absurd h (hkey x ha)
    · have := ha.a
      rw [h] at this
      exact absurd this (Ne.symm hne)
    · exact hi.claimed hid x hxs ha he

theorem Write.retract_of_even {sort : Nat} (htx : txn.Ok) (h : (w.key txn sort).t % 2 = 0) :
    w.retract = false := by
  rw [Write.key_t htx] at h
  cases hc : w.retract with
  | false => rfl
  | true =>
      rw [hc] at h
      simp only [if_true] at h
      omega

/-- What the check leaves owned, for a write to the attribute itself. -/
theorem Indexed.owned_check {s s₁ : Store} (ho : o.Faultless) (htx : txn.Ok) (hw : w.Ok sha256)
    (hs : StoreOk s) (hbase : ∀ x ∈ setupWrites txn.ns, x.1.IsDatom → x ∈ s)
    (hu : w.a ∈ txn.eUnique) (hcond : KeepsIndex txn s w) (hi : Indexed txn.ns w.a s)
    (hcheck : checkUnique o i txn s (w.key txn sortEATV) w.retract = some s₁) {x : Entry}
    (hx : x ∈ s) (ha : Asserts txn.ns w.a x) (hl : IsLast s x) (hun : ¬ Unindexed w.a x.1.e)
    (hle : x.1.e = w.e → (w.key txn sortEATV).tv ≤ x.1.tv)
    (hret : w.retract = true → x.1.e ≠ w.e) : Owns s₁ txn.ns w.a x.1.v x.1.e := by
  have hown := hi.owned x hx ha hl hun
  have hget : ∀ {k : CustomKey}, k.a = w.a → k.v = x.1.v →
      mdbGet s (uniqueKey txn.ns k) = some (.num x.1.e) := fun hk hv => by
    rw [owns_iff hs htx.ns_lt (by rw [hk]; exact hw.a_range), hk, hv]
    exact hown
  rcases (checkUnique_faultless ho hu).mp hcheck with ⟨hr, h⟩ | ⟨hr, rfl, d, hd, hde⟩ |
    ⟨hr, hnone, -, rfl⟩ | ⟨hr, hnone, last, s₂, hlast, h, rfl⟩
  · -- a retraction gives up the entity's own entry
    rw [owns_del hs htx.ns_lt hw.a_range h]
    refine ⟨hown, fun hc => hret hr ?_⟩
    have := hcond.retracts hr _ (hget rfl hc.2.symm)
    simpa using this
  · rw [owns_put hs htx.ns_lt hw.a_range]
    by_cases hv : x.1.v = (w.key txn sortEATV).v
    · refine Or.inl ⟨⟨rfl, hv⟩, ?_⟩
      rw [hget rfl hv.symm, Option.some.injEq] at hd
      rw [← hd] at hde
      exact hde
    · exact Or.inr ⟨fun hc => hv hc.2, hown⟩
  · rw [owns_put hs htx.ns_lt hw.a_range]
    refine Or.inr ⟨fun hc => ?_, hown⟩
    rw [hget rfl hc.2.symm] at hnone
    exact absurd hnone (by simp)
  · -- the last value's entry is given up: it is the entity's, and another entity's stays
    obtain ⟨hmine, hlt⟩ := hcond.replaces hr hnone last hlast
    obtain ⟨d, hmem, hg, hmax⟩ := lastDatom_spec hs hbase (Write.searchable htx hw) hlast
    have hla : last.a = w.a := (lastDatom_fields hlast).2.1
    have hne : x.1.e ≠ w.e := fun he => by
      have h1 := hle he
      have h2 := hmax x hx ⟨ha.sort, ha.ns, he, ha.a⟩
      exact absurd (lt_of_lt_of_le hlt h1) (not_lt.mpr h2)
    have hlar : -2 ^ 29 ≤ last.a ∧ last.a < 2 ^ 29 := by rw [hla]; exact hw.a_range
    rw [owns_put (mdbDel_ok hs h) htx.ns_lt hw.a_range]
    refine Or.inr ⟨fun hc => ?_, ?_⟩
    · rw [hget rfl hc.2.symm] at hnone
      exact absurd hnone (by simp)
    · rw [owns_del hs htx.ns_lt hlar h]
      refine ⟨hown, fun hc => hne ?_⟩
      simpa using hmine _ (hget hla hc.2.symm)

/-- **A write that keeps the index in step.** -/
theorem Indexed.insert (ho : o.Faultless) (htx : txn.Ok) (hw : w.Ok sha256)
    (hs : StoreOk st.store) (hbase : ∀ x ∈ setupWrites txn.ns, x.1.IsDatom → x ∈ st.store)
    (htimes : ∀ x ∈ st.store, x.1.IsDatom → x.1.ns = txn.ns → x.1.t / 2 ≤ txn.tx)
    (hu : w.a ∈ txn.eUnique) (hcond : KeepsIndex txn st.store w)
    (hi : Indexed txn.ns w.a st.store) (h : insertWrite o i txn st w = some st') :
    Indexed txn.ns w.a st'.store := by
  have hins := insertWrite_inserted htx hw hs h
  obtain ⟨s₁, hcheck, hstore, -, -⟩ := insertWrite_cases htx hw hs h
  have hok₁ := (checkUnique_step hs htx.ns_lt hw.a_range hcheck).ok
  have hkt : (w.key txn sortEATV).t = _ := Write.key_t htx
  refine ⟨fun x hx ha hl hun => ?_, fun hid x hx ha he => ?_⟩
  · rw [hstore, owns_putBoth htx hw hok₁]
    rcases hins.isLast hs hw hx ha hl with rfl | ⟨hxs, hl', hle⟩
    · -- the new assertion has just claimed its entry
      have hr := Write.retract_of_even htx ha.even
      rcases (checkUnique_faultless ho hu).mp hcheck with ⟨hc, -⟩ | ⟨-, rfl, -⟩ | ⟨-, -, -, rfl⟩ |
        ⟨-, -, last, s₂, -, hdel, rfl⟩
      · rw [hr] at hc
        exact absurd hc (by simp)
      · exact (owns_put hs htx.ns_lt hw.a_range).mpr (Or.inl ⟨⟨rfl, rfl⟩, rfl⟩)
      · exact (owns_put hs htx.ns_lt hw.a_range).mpr (Or.inl ⟨⟨rfl, rfl⟩, rfl⟩)
      · exact (owns_put (mdbDel_ok hs hdel) htx.ns_lt hw.a_range).mpr (Or.inl ⟨⟨rfl, rfl⟩, rfl⟩)
    · refine hi.owned_check ho htx hw hs hbase hu hcond hcheck hxs ha hl' hun
        (fun he => hle he ha.a) fun hr he => ?_
      -- a retraction comes after every assertion of its entity
      have hxt := htimes x hxs (isDatom_of_sort (hs.keys x hxs) (Or.inl ha.sort)) ha.ns
      have heven := ha.even
      have := hle he ha.a
      rw [CustomKey.tv, CustomKey.tv, hkt, hr, ← not_lt, List.cons_lt_cons_iff] at this
      simp only [if_true] at this
      omega
  · rcases (hins.datoms x (isDatom_of_sort (hins.ok.keys x hx) (Or.inl ha.sort))).mp hx with
      (rfl | ⟨-, rfl⟩) | ⟨hxs, -⟩
    · exact hcond.claims (Write.retract_of_even htx ha.even) hid
    · exact absurd ha.sort (by show sortAETV ≠ sortEATV; decide)
    · exact hi.claimed hid x hxs ha he

end Insertion

end Nstore

/-
What one round of the loop of `handle_transact` can do.

An insertion checks and moves the unique index, and puts the datom in one or two
sort orders; `Inserted` says all it changes.  What every result about runs needs of
a transaction is `Frame`: it touches no counter, no other namespace, and no datom
of another time.
-/
import Nstore.Proofs.Element

namespace Nstore

/-! ### The unique index -/

/-- What the constraint check does when it lets a fact pass. -/
theorem checkUnique_cases {o : Oracle} {i : Nat} {txn : Txn} {s s' : Store} {ck : CustomKey}
    {retract : Bool} (h : checkUnique o i txn s ck retract = some s') :
    (ck.a ∉ txn.eUnique ∧ s' = s) ∨
    (ck.a ∈ txn.eUnique ∧ retract = true ∧ mdbDel s (uniqueKey txn.ns ck) = some s') ∨
    (ck.a ∈ txn.eUnique ∧ retract = false ∧
      ∃ s₁, (s₁ = s ∨ ∃ last, lastDatom s ck = some last ∧
          mdbDel s (uniqueKey txn.ns last) = some s₁) ∧
        s' = mdbPut s₁ (uniqueKey txn.ns ck) (.num ck.e)) := by
  unfold checkUnique at h
  split at h
  · rename_i ha
    exact Or.inl ⟨ha, by simpa using h.symm⟩
  · rename_i ha
    have ha : ck.a ∈ txn.eUnique := by simpa using ha
    simp only at h
    split at h
    · rename_i hr
      split at h
      · exact absurd h (by simp)
      · exact Or.inr (Or.inl ⟨ha, hr, h⟩)
    · rename_i hr
      have hr : retract = false := by simpa using hr
      rw [Option.bind_eq_some_iff] at h
      obtain ⟨s₁, h1, h2⟩ := h
      refine Or.inr (Or.inr ⟨ha, hr, s₁, ?_, ?_⟩)
      · split at h1
        · split at h1
          · exact absurd h1 (by simp)
          · exact Or.inl (by simpa using h1.symm)
        · unfold removeLast at h1
          split at h1
          · exact Or.inl (by simpa using h1.symm)
          · rename_i last hl
            split at h1
            · exact absurd h1 (by simp)
            · split at hl
              · exact absurd hl (by simp)
              · exact Or.inr ⟨last, hl, h1⟩
      · split at h2
        · exact absurd h2 (by simp)
        · simpa using h2.symm

/-- What the check of an assertion has found when it lets the fact pass, and the other way round. -/
theorem checkUnique_assert_iff {o : Oracle} {i : Nat} {txn : Txn} {s s' : Store} {ck : CustomKey}
    (hoget : o.fails (.uniqueGet i) = false) (holast : o.fails (.lastDatom i) = false)
    (ha : ck.a ∈ txn.eUnique) :
    checkUnique o i txn s ck false = some s' ↔ o.fails (.uniquePut i) = false ∧
      ((∃ d, mdbGet s (uniqueKey txn.ns ck) = some d ∧ d.i64 = ck.e ∧
        s' = mdbPut s (uniqueKey txn.ns ck) (.num ck.e)) ∨
      (mdbGet s (uniqueKey txn.ns ck) = none ∧ lastDatom s ck = none ∧
        s' = mdbPut s (uniqueKey txn.ns ck) (.num ck.e)) ∨
      (mdbGet s (uniqueKey txn.ns ck) = none ∧ o.fails (.lastDel i) = false ∧
        ∃ last s₁, lastDatom s ck = some last ∧ mdbDel s (uniqueKey txn.ns last) = some s₁ ∧
          s' = mdbPut s₁ (uniqueKey txn.ns ck) (.num ck.e))) := by
  unfold checkUnique removeLast
  rw [if_neg (by simpa using ha)]
  simp only [hoget, holast, Bool.false_eq_true, if_false]
  cases hput : o.fails (.uniquePut i) with
  | true => simp
  | false =>
      cases hget : mdbGet s (uniqueKey txn.ns ck) with
      | some d =>
          by_cases hd : d.i64 = ck.e
          · simp [hd, eq_comm (a := s')]
          · simp [hd]
      | none =>
          cases hlast : lastDatom s ck with
          | none => simp [eq_comm (a := s')]
          | some last =>
              cases hdel : mdbDel s (uniqueKey txn.ns last) with
              | none => simp [hdel]
              | some s₁ =>
                  cases o.fails (.lastDel i) with
                  | true => simp
                  | false => simp [hdel, eq_comm (a := s')]

theorem lastDatom_fields {s : Store} {start last : CustomKey} (h : lastDatom s start = some last) :
    last.e = start.e ∧ last.a = start.a ∧ last.ns = start.ns := by
  unfold lastDatom at h
  split at h
  · exact absurd h (by simp)
  · split at h
    · exact absurd h (by simp)
    · split at h
      · exact absurd h (by simp)
      · rename_i k d hp hne
        rw [Option.some.injEq] at h
        subst h
        push Not at hne
        exact ⟨hne.1.symm, hne.2.1.symm, hne.2.2.symm⟩

/-- A step that only changes index entries of one namespace, adding at most one. -/
structure IndexStep (ns : Nat) (added : Entry → Prop) (s s' : Store) : Prop where
  ok : StoreOk s'
  others : ∀ x : Entry, ¬ (x.1.type = .keyUnique ∧ x.1.ns = ns) → (x ∈ s' ↔ x ∈ s)
  index : ∀ x ∈ s', x.1.type = .keyUnique → x ∈ s ∨ added x

theorem indexStep_del {ns : Nat} {added : Entry → Prop} {s s' : Store} {k : CustomKey}
    (hs : StoreOk s) (hns : ns < 2 ^ 31) (ha : -2 ^ 29 ≤ k.a ∧ k.a < 2 ^ 29)
    (h : mdbDel s (uniqueKey ns k) = some s') : IndexStep ns added s s' := by
  have hmem := mem_mdbDel hs (uniqueKey_inRange hns ha) h
  refine ⟨mdbDel_ok hs h, fun x hx => ?_, fun x hx _ => Or.inl ((hmem x).mp hx).1⟩
  rw [hmem]
  refine ⟨fun h => h.1, fun h => ⟨h, fun hc => hx ?_⟩⟩
  obtain ⟨h1, h2, -⟩ := coords_eq_unique.mp hc
  exact ⟨h2, h1⟩

private theorem indexStep_put {ns : Nat} {added : Entry → Prop} {s : Store} {k : CustomKey}
    {d : Item} (hs : StoreOk s) (hns : ns < 2 ^ 31) (ha : -2 ^ 29 ≤ k.a ∧ k.a < 2 ^ 29)
    (hadd : added (uniqueKey ns k, d)) : IndexStep ns added s (mdbPut s (uniqueKey ns k) d) := by
  have hk := uniqueKey_inRange (k := k) hns ha
  have hmem := mem_mdbPut (d := d) hs hk
  refine ⟨mdbPut_ok hs hk, fun x hx => ?_, fun x hx _ => ?_⟩
  · rw [hmem]
    constructor
    · rintro (rfl | ⟨h, -⟩)
      · exact absurd ⟨rfl, rfl⟩ hx
      · exact h
    · refine fun h => Or.inr ⟨h, fun hc => hx ?_⟩
      obtain ⟨h1, h2, -⟩ := coords_eq_unique.mp hc
      exact ⟨h2, h1⟩
  · rcases (hmem x).mp hx with rfl | ⟨h, -⟩
    · exact Or.inr hadd
    · exact Or.inl h

theorem IndexStep.refl {ns : Nat} {added : Entry → Prop} {s : Store} (hs : StoreOk s) :
    IndexStep ns added s s := ⟨hs, fun _ _ => Iff.rfl, fun _ hx _ => Or.inl hx⟩

theorem IndexStep.trans {ns : Nat} {added : Entry → Prop} {s s₁ s₂ : Store}
    (h1 : IndexStep ns added s s₁) (h2 : IndexStep ns added s₁ s₂) : IndexStep ns added s s₂ := by
  refine ⟨h2.ok, fun x hx => (h2.others x hx).trans (h1.others x hx), fun x hx ht => ?_⟩
  rcases h2.index x hx ht with h | h
  · exact h1.index x h ht
  · exact Or.inr h

/-- The constraint check as a step: what it may add is the entry of an assertion. -/
theorem checkUnique_step {o : Oracle} {i : Nat} {txn : Txn} {s s' : Store} {ck : CustomKey}
    {retract : Bool} (hs : StoreOk s) (hns : txn.ns < 2 ^ 31) (ha : -2 ^ 29 ≤ ck.a ∧ ck.a < 2 ^ 29)
    (h : checkUnique o i txn s ck retract = some s') :
    IndexStep txn.ns (fun x => retract = false ∧ x = (uniqueKey txn.ns ck, .num ck.e)) s s' := by
  rcases checkUnique_cases h with ⟨-, rfl⟩ | ⟨-, -, hdel⟩ | ⟨-, hr, s₁, hlast, rfl⟩
  · exact .refl hs
  · exact indexStep_del hs hns ha hdel
  · have h1 : IndexStep txn.ns
        (fun x => retract = false ∧ x = (uniqueKey txn.ns ck, .num ck.e)) s s₁ := by
      rcases hlast with rfl | ⟨last, hl, hdel⟩
      · exact .refl hs
      · exact indexStep_del hs hns (by rw [(lastDatom_fields hl).2.1]; exact ha) hdel
    exact h1.trans (indexStep_put h1.ok hns ha ⟨hr, rfl⟩)

/-! ### What an insertion changes -/

/-- The entries a write puts. -/
def Write.Puts (txn : Txn) (w : Write) (x : Entry) : Prop :=
  x = (w.key txn sortEATV, w.enc.item) ∨
    (w.a < dbInitialId ∧ x = (w.key txn sortAETV, w.enc.item))

/-- The datoms those entries replace. -/
def Write.Replaces (txn : Txn) (w : Write) (x : Entry) : Prop :=
  (x.1.ns = txn.ns ∧ x.1.e = w.e ∧ x.1.a = w.a ∧ x.1.tv = (w.key txn sortEATV).tv) ∧
    (x.1.sort = sortEATV ∨ w.a < dbInitialId)

/-- All that an insertion changes. -/
structure Inserted (txn : Txn) (w : Write) (s s' : Store) : Prop where
  ok : StoreOk s'
  metas : ∀ x : Entry, x.1.type = .keyMeta → (x ∈ s' ↔ x ∈ s)
  foreign : ∀ x : Entry, x.1.ns ≠ txn.ns → (x ∈ s' ↔ x ∈ s)
  datoms : ∀ x : Entry, x.1.IsDatom → (x ∈ s' ↔ w.Puts txn x ∨ (x ∈ s ∧ ¬ w.Replaces txn x))
  index : ∀ x ∈ s', x.1.type = .keyUnique →
    x ∈ s ∨ (w.retract = false ∧ x = (uniqueKey txn.ns (w.key txn sortEATV), .num w.e))

section Insert

variable {sha256 : Bytes → Value} {txn : Txn} {w : Write} {s s' : Store}

theorem putBoth_eq (s : Store) (txn : Txn) (w : Write) :
    putBoth s (datomKey txn w.e w.a w.enc w.retract) w.enc.item =
      if w.a < dbInitialId then
        mdbPut (mdbPut s (w.key txn sortEATV) w.enc.item) (w.key txn sortAETV) w.enc.item
      else mdbPut s (w.key txn sortEATV) w.enc.item := rfl

theorem putBoth_ok (htx : txn.Ok) (hw : w.Ok sha256) (hs : StoreOk s) :
    StoreOk (putBoth s (datomKey txn w.e w.a w.enc w.retract) w.enc.item) := by
  have hE := mdbPut_ok (d := w.enc.item) hs (Write.key_inRange htx hw (Or.inl rfl))
  rw [putBoth_eq]
  split
  · exact mdbPut_ok hE (Write.key_inRange htx hw (Or.inr rfl))
  · exact hE

/-- Keys that are no datoms, and keys of other namespaces, stay. -/
theorem mem_putBoth_of_not (htx : txn.Ok) (hw : w.Ok sha256) (hs : StoreOk s) {x : Entry}
    (hx : ¬ (x.1.IsDatom ∧ x.1.ns = txn.ns)) :
    x ∈ putBoth s (datomKey txn w.e w.a w.enc w.retract) w.enc.item ↔ x ∈ s := by
  have hput : ∀ (sort : Nat) (s : Store), StoreOk s → sort = sortEATV ∨ sort = sortAETV →
      (x ∈ mdbPut s (w.key txn sort) w.enc.item ↔ x ∈ s) := by
    intro sort s hs hsort
    rw [mem_mdbPut hs (Write.key_inRange htx hw hsort)]
    constructor
    · rintro (rfl | ⟨h, -⟩)
      · exact absurd ⟨Write.key_isDatom hw hsort, rfl⟩ hx
      · exact h
    · refine fun h => Or.inr ⟨h, fun hc => hx ?_⟩
      exact ⟨isDatom_of_coords_eq (hs.keys x h) (Write.key_isDatom hw hsort) hc, (coords_family hc).1⟩
  rw [putBoth_eq]
  split
  · rw [hput _ _ (mdbPut_ok hs (Write.key_inRange htx hw (Or.inl rfl))) (Or.inr rfl),
      hput _ _ hs (Or.inl rfl)]
  · exact hput _ _ hs (Or.inl rfl)

private theorem mem_putBoth (htx : txn.Ok) (hw : w.Ok sha256) (hs : StoreOk s) {x : Entry}
    (hx : x.1.IsDatom) :
    x ∈ putBoth s (datomKey txn w.e w.a w.enc w.retract) w.enc.item ↔
      w.Puts txn x ∨ (x ∈ s ∧ ¬ w.Replaces txn x) := by
  have hE : InRange (w.key txn sortEATV) := Write.key_inRange htx hw (Or.inl rfl)
  have hA : InRange (w.key txn sortAETV) := Write.key_inRange htx hw (Or.inr rfl)
  have hne : sortEATV ≠ sortAETV := by decide
  -- an `EATV` key never compares equal to an `AETV` key
  have hsort : ∀ {sort}, sort = sortEATV ∨ sort = sortAETV →
      x.1.coords = (w.key txn sort).coords → x.1.sort = sort := fun hso hc =>
    ((coords_eq_datom hx (Write.key_isDatom hw hso)).mp hc).2.1
  have hrepl : w.Replaces txn x ↔ x.1.coords = (w.key txn sortEATV).coords ∨
      (w.a < dbInitialId ∧ x.1.coords = (w.key txn sortAETV).coords) := by
    constructor
    · rintro ⟨hf, hso⟩
      rcases hx.2 with h | h
      · exact Or.inl ((Write.coords_ne_iff hw hx h).mpr hf)
      · refine Or.inr ⟨hso.resolve_left fun hc => hne (hc.symm.trans h), ?_⟩
        exact (Write.coords_ne_iff hw hx h).mpr hf
    · rintro (h | ⟨ha, h⟩)
      · have := hsort (Or.inl rfl) h
        exact ⟨(Write.coords_ne_iff hw hx this).mp h, Or.inl this⟩
      · have := hsort (Or.inr rfl) h
        exact ⟨(Write.coords_ne_iff hw hx this).mp h, Or.inr ha⟩
  have hEA : (w.key txn sortEATV).coords ≠ (w.key txn sortAETV).coords := fun hc =>
    hne ((coords_eq_datom (Write.key_isDatom hw (Or.inl rfl))
      (Write.key_isDatom hw (Or.inr rfl))).mp hc).2.1
  rw [putBoth_eq, hrepl, Write.Puts]
  by_cases ha : w.a < dbInitialId
  · rw [if_pos ha, mem_mdbPut (mdbPut_ok hs hE) hA, mem_mdbPut hs hE]
    simp only [ha, true_and]
    constructor
    · rintro (rfl | ⟨rfl | ⟨h1, h2⟩, h3⟩)
      · exact Or.inl (Or.inr rfl)
      · exact Or.inl (Or.inl rfl)
      · exact Or.inr ⟨h1, by tauto⟩
    · rintro ((rfl | rfl) | ⟨h1, h2⟩)
      · exact Or.inr ⟨Or.inl rfl, hEA⟩
      · exact Or.inl rfl
      · exact Or.inr ⟨Or.inr ⟨h1, fun hc => h2 (Or.inl hc)⟩, fun hc => h2 (Or.inr hc)⟩
  · rw [if_neg ha, mem_mdbPut hs hE]
    simp only [ha, false_and, or_false]

/-- A round that inserts has passed the check and put its datom. -/
theorem insertWrite_inv {o : Oracle} {i : Nat} {st st' : TxnState}
    (h : insertWrite o i txn st w = some st') :
    ∃ s₁ sm, checkUnique o i txn st.store (w.key txn sortEATV) w.retract = some s₁ ∧
      putDatom o i (s₁, st.mc) (datomKey txn w.e w.a w.enc w.retract) w.enc.data = some sm ∧
      st' = { st with
        store := sm.1, mc := sm.2,
        newFacts := st.newFacts ++ [⟨w.e, w.a, w.enc.shown, txn.tx, w.retract⟩] } := by
  unfold insertWrite at h
  split at h
  · exact absurd h (by simp)
  · unfold insertFact at h
    obtain ⟨s₁, hcheck, h⟩ := Option.bind_eq_some_iff.mp h
    obtain ⟨sm, hput, rfl⟩ := Option.map_eq_some_iff.mp h
    exact ⟨s₁, sm, hcheck, hput, rfl⟩

/-- What a round that inserts has done. -/
theorem insertWrite_cases {o : Oracle} {i : Nat} {st st' : TxnState} (htx : txn.Ok)
    (hw : w.Ok sha256) (hs : StoreOk st.store) (h : insertWrite o i txn st w = some st') :
    ∃ s₁, checkUnique o i txn st.store (w.key txn sortEATV) w.retract = some s₁ ∧
      st'.store = putBoth s₁ (datomKey txn w.e w.a w.enc w.retract) w.enc.item ∧
      st'.ids = st.ids ∧
      st'.newFacts = st.newFacts ++ [⟨w.e, w.a, w.enc.shown, txn.tx, w.retract⟩] := by
  obtain ⟨s₁, sm, hcheck, hput, rfl⟩ := insertWrite_inv h
  have hok := (checkUnique_step hs htx.ns_lt hw.a_range hcheck).ok
  refine ⟨s₁, hcheck, ?_, rfl, rfl⟩
  exact putDatom_eq hw.enc hok (Write.key_inRange htx hw (Or.inl rfl))
    (Write.key_inRange htx hw (Or.inr rfl)) rfl hput

/-- Where no call fails, a plain value is inserted if it passes the check. -/
theorem insertWrite_plain {o : Oracle} (ho : o.Faultless) (hp : w.enc.Plain) (i : Nat) (txn : Txn)
    (st : TxnState) :
    (checkUnique o i txn st.store (w.key txn sortEATV) w.retract = none →
      insertWrite o i txn st w = none) ∧
    ∀ s₁, checkUnique o i txn st.store (w.key txn sortEATV) w.retract = some s₁ →
      ∃ mc, insertWrite o i txn st w = some
        { store := putBoth s₁ (datomKey txn w.e w.a w.enc w.retract) w.enc.item, mc := mc,
          ids := st.ids,
          newFacts := st.newFacts ++ [⟨w.e, w.a, w.enc.shown, txn.tx, w.retract⟩] } := by
  have hins : insertWrite o i txn st w =
      (checkUnique o i txn st.store (w.key txn sortEATV) w.retract).bind fun s =>
        (putDatom o i (s, st.mc) (datomKey txn w.e w.a w.enc w.retract) w.enc.data).map fun sm =>
          { st with
            store := sm.1, mc := sm.2,
            newFacts := st.newFacts ++ [⟨w.e, w.a, w.enc.shown, txn.tx, w.retract⟩] } := by
    unfold insertWrite
    rw [ho, if_neg (by simp)]
    rfl
  rw [hins]
  refine ⟨fun h => by rw [h]; rfl, fun s₁ h => ?_⟩
  obtain ⟨mc, hput⟩ := putDatom_faultless hp ho i s₁ st.mc
    (k := datomKey txn w.e w.a w.enc w.retract) rfl
  exact ⟨mc, by rw [h, Option.bind_some, hput]; rfl⟩

theorem insertWrite_ids {o : Oracle} {i : Nat} {st st' : TxnState}
    (h : insertWrite o i txn st w = some st') : st'.ids = st.ids := by
  obtain ⟨s₁, sm, -, -, rfl⟩ := insertWrite_inv h
  rfl

theorem not_isDatom_of_unique {k : CustomKey} (h : k.type = .keyUnique) : ¬ k.IsDatom := by
  rintro ⟨h1 | h1, -⟩ <;> rw [h] at h1 <;> exact absurd h1 (by simp)

theorem not_isDatom_of_meta {k : CustomKey} (h : k.type = .keyMeta) : ¬ k.IsDatom := by
  rintro ⟨h1 | h1, -⟩ <;> rw [h] at h1 <;> exact absurd h1 (by simp)

theorem insertWrite_inserted {o : Oracle} {i : Nat} {st st' : TxnState} (htx : txn.Ok)
    (hw : w.Ok sha256) (hs : StoreOk st.store) (h : insertWrite o i txn st w = some st') :
    Inserted txn w st.store st'.store := by
  obtain ⟨s₁, hcheck, hstore, -, -⟩ := insertWrite_cases htx hw hs h
  have hidx := checkUnique_step hs htx.ns_lt hw.a_range hcheck
  rw [hstore]
  refine ⟨putBoth_ok htx hw hidx.ok, fun x hx => ?_, fun x hx => ?_, fun x hx => ?_, fun x hx ht => ?_⟩
  · rw [mem_putBoth_of_not htx hw hidx.ok fun hc => not_isDatom_of_meta hx hc.1]
    exact hidx.others x fun hc => absurd (hx.symm.trans hc.1) (by simp)
  · rw [mem_putBoth_of_not htx hw hidx.ok fun hc => hx hc.2]
    exact hidx.others x fun hc => hx hc.2
  · rw [mem_putBoth htx hw hidx.ok hx, hidx.others x fun hc => not_isDatom_of_unique hc.1 hx]
  · rw [mem_putBoth_of_not htx hw hidx.ok fun hc => not_isDatom_of_unique ht hc.1] at hx
    exact hidx.index x hx ht

end Insert

/-! ### What a transaction leaves alone -/

/-- Counters, other namespaces, datoms of other times and base facts are as they were. -/
structure Frame (txn : Txn) (s s' : Store) : Prop where
  metas : ∀ x : Entry, x.1.type = .keyMeta → (x ∈ s' ↔ x ∈ s)
  foreign : ∀ x : Entry, x.1.ns ≠ txn.ns → (x ∈ s' ↔ x ∈ s)
  datoms : ∀ x : Entry, x.1.IsDatom → x.1.t / 2 ≠ txn.tx → (x ∈ s' ↔ x ∈ s)
  base : ∀ x : Entry, x.1.IsDatom → x.1.e < dbInitialId → (x ∈ s' ↔ x ∈ s)

theorem Frame.refl (txn : Txn) (s : Store) : Frame txn s s :=
  ⟨fun _ _ => Iff.rfl, fun _ _ => Iff.rfl, fun _ _ _ => Iff.rfl, fun _ _ _ => Iff.rfl⟩

theorem Frame.trans {txn : Txn} {s s₁ s₂ : Store} (h1 : Frame txn s s₁) (h2 : Frame txn s₁ s₂) :
    Frame txn s s₂ :=
  ⟨fun x hx => (h2.metas x hx).trans (h1.metas x hx),
    fun x hx => (h2.foreign x hx).trans (h1.foreign x hx),
    fun x hx ht => (h2.datoms x hx ht).trans (h1.datoms x hx ht),
    fun x hx he => (h2.base x hx he).trans (h1.base x hx he)⟩

theorem Write.key_tx {txn : Txn} {w : Write} {sort : Nat} (htx : txn.Ok) :
    (w.key txn sort).t / 2 = txn.tx := by
  rw [Write.key_t htx]
  split <;> omega

/-- An insertion leaves alone the datoms it neither puts nor replaces. -/
theorem Inserted.mem_iff {txn : Txn} {w : Write} {s s' : Store} (h : Inserted txn w s s')
    {x : Entry} (hx : x.1.IsDatom) (hp : ¬ w.Puts txn x) (hr : ¬ w.Replaces txn x) :
    x ∈ s' ↔ x ∈ s := by
  rw [h.datoms x hx]
  tauto

theorem Inserted.frame {sha256 : Bytes → Value} {txn : Txn} {w : Write} {s s' : Store}
    (htx : txn.Ok) (hw : w.Ok sha256) (h : Inserted txn w s s') : Frame txn s s' := by
  refine ⟨h.metas, h.foreign, fun x hx ht => h.mem_iff hx ?_ ?_, fun x hx he => h.mem_iff hx ?_ ?_⟩
  · rintro (rfl | ⟨-, rfl⟩) <;> exact ht (Write.key_tx htx)
  · intro hc
    have htv : x.1.t = (w.key txn sortEATV).t := (List.cons.inj hc.1.2.2.2).1
    exact ht (by rw [htv, Write.key_tx htx])
  · have := hw.e_range.1
    rintro (rfl | ⟨-, rfl⟩) <;> exact absurd he (not_lt.mpr this)
  · intro hc
    have := hw.e_range.1
    rw [hc.1.2.1] at he
    omega

/-! ### The loop -/

theorem transactFact_ids {sha256 : Bytes → Value} {o : Oracle} {i : Nat} {txn : Txn}
    {st st' : TxnState} {v : Json} (hids : st.ids.Ok)
    (h : transactFact sha256 o i txn st v = some st') :
    st'.ids.Ok ∧ st.ids.id ≤ st'.ids.id := by
  obtain ⟨ids, ⟨hr, rfl⟩ | ⟨w, hr, hw⟩⟩ := transactFact_cases h
  · exact ⟨(readElement_spec hids hr).1, (readElement_spec hids hr).2.1⟩
  · rw [insertWrite_ids hw]
    exact ⟨(readElement_spec hids hr).1, (readElement_spec hids hr).2.1⟩

/-- Ids only grow. -/
theorem transactLoop_ids {sha256 : Bytes → Value} {o : Oracle} {txn : Txn} :
    ∀ {vs : List Json} {i : Nat} {st st' : TxnState}, st.ids.Ok →
      transactLoop sha256 o txn i st vs = some st' → st'.ids.Ok ∧ st.ids.id ≤ st'.ids.id := by
  intro vs
  induction vs with
  | nil =>
      intro i st st' hids h
      rw [transactLoop, Option.some.injEq] at h
      exact h ▸ ⟨hids, le_refl _⟩
  | cons v rest ih =>
      intro i st st' hids h
      rw [transactLoop, Option.bind_eq_some_iff] at h
      obtain ⟨st₁, h1, h2⟩ := h
      obtain ⟨hids₁, hle₁⟩ := transactFact_ids hids h1
      obtain ⟨h3, h4⟩ := ih hids₁ h2
      exact ⟨h3, by omega⟩

/-- Every write the loop reads meets a condition in the store it is read in. -/
def LoopMeets (sha256 : Bytes → Value) (o : Oracle) (txn : Txn) (P : Store → Write → Prop) :
    Nat → TxnState → List Json → Prop
  | _, _, [] => True
  | i, st, v :: rest =>
      (∀ ids w, readElement sha256 txn.eRef st.ids v = some (ids, some w) → P st.store w) ∧
        ∀ st', transactFact sha256 o i txn st v = some st' →
          LoopMeets sha256 o txn P (i + 1) st' rest

private theorem loopMeets_true (sha256 : Bytes → Value) (o : Oracle) (txn : Txn) :
    ∀ vs i st, LoopMeets sha256 o txn (fun _ _ => True) i st vs := by
  intro vs
  induction vs with
  | nil => intro i st; trivial
  | cons v rest ih => exact fun i st => ⟨fun _ _ _ => trivial, fun st' _ => ih (i + 1) st'⟩

/--
An invariant of the loop: what every write in range that meets the condition
preserves, a loop that ends with its ids in range preserves.
-/
theorem transactLoop_rule {sha256 : Bytes → Value} {o : Oracle} {txn : Txn}
    {P : Store → Write → Prop} (Inv : Store → Prop)
    (hstep : ∀ i st st' w, Inv st.store → w.Ok sha256 → P st.store w →
      insertWrite o i txn st w = some st' → Inv st'.store) :
    ∀ {vs : List Json} {i : Nat} {st st' : TxnState}, (∀ v ∈ vs, v.FactInRange) →
      LoopMeets sha256 o txn P i st vs → st.ids.Ok → Inv st.store →
      transactLoop sha256 o txn i st vs = some st' → st'.ids.id ≤ 2 ^ 29 → Inv st'.store := by
  intro vs
  induction vs with
  | nil =>
      intro i st st' _ _ hids hinv h _
      rw [transactLoop, Option.some.injEq] at h
      exact h ▸ hinv
  | cons v rest ih =>
      intro i st st' hvs hmeets hids hinv h hbound
      rw [transactLoop, Option.bind_eq_some_iff] at h
      obtain ⟨st₁, h1, h2⟩ := h
      obtain ⟨hids₁, -⟩ := transactFact_ids hids h1
      -- ids only grow, so the bound at the end is one here
      have hbound₁ : st₁.ids.id ≤ 2 ^ 29 := le_trans (transactLoop_ids hids₁ h2).2 hbound
      refine ih (fun x hx => hvs x (by simp [hx])) (hmeets.2 st₁ h1) hids₁ ?_ h2 hbound
      obtain ⟨ids, ⟨hr, rfl⟩ | ⟨w, hr, hw⟩⟩ := transactFact_cases h1
      · exact hinv
      · have hst : st₁.ids = ids := insertWrite_ids hw
        have hwok := (readElement_spec hids hr).2.2 (hvs v (by simp)) (hst ▸ hbound₁) w rfl
        exact hstep i { st with ids := ids } st₁ w hinv hwok (hmeets.1 ids w hr) hw

/-- The same for what follows from `Inserted` alone. -/
theorem transactLoop_invariant {sha256 : Bytes → Value} {o : Oracle} {txn : Txn} (htx : txn.Ok)
    (Inv : Store → Prop) (hok : ∀ s, Inv s → StoreOk s)
    (hins : ∀ s s' w, Inv s → w.Ok sha256 → Inserted txn w s s' → Inv s') {vs : List Json} {i : Nat}
    {st st' : TxnState} (hvs : ∀ v ∈ vs, v.FactInRange) (hids : st.ids.Ok) (hinv : Inv st.store)
    (h : transactLoop sha256 o txn i st vs = some st') (hbound : st'.ids.id ≤ 2 ^ 29) :
    Inv st'.store :=
  transactLoop_rule Inv (fun _ st st' w hst hw _ h =>
    hins st.store st'.store w hst hw (insertWrite_inserted htx hw (hok _ hst) h)) hvs
    (loopMeets_true sha256 o txn vs i st) hids hinv h hbound

/-! ### The whole transaction -/

/-- What the loop does not change, as a transaction begins. -/
def beginTxn (o : Oracle) (s : Store) (ns : Nat) (tx : Int) : Txn :=
  { ns := ns, tx := tx, eUnique := uniqueSet o s ns tx, eRef := refSet o s ns tx }

/-- What it does. -/
def beginState (s : Store) (id : Int) : TxnState :=
  { store := s, mc := none, ids := { newIds := [], id := id }, newFacts := [] }

/-- The store a transaction commits. -/
def commitStore (ns : Nat) (tx : Int) (st : TxnState) : Store :=
  putMeta (putMeta st.store ns metaTx (tx + 1)) ns metaId st.ids.id

theorem transactBegin_cases {o : Oracle} {s : Store} {ns : Nat} {p : Txn × TxnState}
    (h : transactBegin o s ns = some p) :
    ∃ tx id, getMeta s ns metaTx = some tx ∧ getMeta s ns metaId = some id ∧
      p = (beginTxn o s ns tx, beginState s id) := by
  unfold transactBegin at h
  split at h
  · exact absurd h (by simp)
  · split at h
    · rename_i tx id htx hid
      split at h
      · exact absurd h (by simp)
      · rw [Option.some.injEq] at h
        refine ⟨tx, id, ?_, ?_, h.symm⟩
        · split at htx
          · exact absurd htx (by simp)
          · exact htx
        · split at hid
          · exact absurd hid (by simp)
          · exact hid
    · exact absurd h (by simp)

theorem transact_cases {sha256 : Bytes → Value} {o : Oracle} {s s' : Store} {ns : Nat}
    {facts : List Json} {r : Reply} (h : transact sha256 o s ns facts = some (r, s')) :
    ∃ tx id st, getMeta s ns metaTx = some tx ∧ getMeta s ns metaId = some id ∧
      transactLoop sha256 o (beginTxn o s ns tx) 0 (beginState s id) facts = some st ∧
      s' = commitStore ns tx st ∧ r = .response tx st.newFacts st.ids.newIds := by
  unfold transact at h
  rw [Option.bind_eq_some_iff] at h
  obtain ⟨p, hbegin, h⟩ := h
  obtain ⟨tx, id, htx, hid, rfl⟩ := transactBegin_cases hbegin
  obtain ⟨st, hloop, h⟩ := Option.bind_eq_some_iff.mp h
  obtain ⟨s₁, hend, h⟩ := Option.map_eq_some_iff.mp h
  rw [Prod.mk.injEq] at h
  obtain ⟨rfl, rfl⟩ := h
  unfold transactEnd at hend
  split at hend
  · exact absurd hend (by simp)
  · rw [Option.some.injEq] at hend
    exact ⟨tx, id, st, htx, hid, hloop, hend.symm, rfl⟩

theorem transactBegin_faultless {o : Oracle} (ho : o.Faultless) {s : Store} {n : Nat} {tx id : Int}
    (htx : getMeta s n metaTx = some tx) (hid : getMeta s n metaId = some id) :
    transactBegin o s n = some (beginTxn o s n tx, beginState s id) := by
  unfold transactBegin
  simp only [ho _, Bool.false_eq_true, if_false, htx, hid]
  rfl

/-- Where no call fails, a transaction commits if its loop ends. -/
theorem transact_faultless {sha256 : Bytes → Value} {o : Oracle} (ho : o.Faultless) {s : Store}
    {n : Nat} {tx id : Int} (htx : getMeta s n metaTx = some tx)
    (hid : getMeta s n metaId = some id) (facts : List Json) :
    transact sha256 o s n facts =
      (transactLoop sha256 o (beginTxn o s n tx) 0 (beginState s id) facts).map fun st =>
        (.response tx st.newFacts st.ids.newIds, commitStore n tx st) := by
  have hend : ∀ st, transactEnd o (beginTxn o s n tx) st = some (commitStore n tx st) := by
    intro st
    unfold transactEnd
    simp only [ho _, Bool.or_false, Bool.false_eq_true, if_false]
    rfl
  unfold transact
  simp only [transactBegin_faultless ho htx hid, Option.bind_some, hend, Option.map_some]
  cases h : transactLoop sha256 o (beginTxn o s n tx) 0 (beginState s id) facts with
  | none => rfl
  | some st => rfl

/-- A request that is not committed changes nothing. -/
theorem handleTransact_cases (sha256 : Bytes → Value) (o : Oracle) (s : Store) (ns : Nat)
    (arg : Option Json) :
    handleTransact sha256 o s ns arg = (.ackErr, s) ∨
      ∃ facts p, arg = some (.array facts) ∧ facts ≠ [] ∧ transact sha256 o s ns facts = some p ∧
        handleTransact sha256 o s ns arg = p := by
  unfold handleTransact
  split
  · rename_i facts
    split
    · exact Or.inl rfl
    · rename_i hne
      cases h : transact sha256 o s ns facts with
      | none => exact Or.inl rfl
      | some p => exact Or.inr ⟨facts, p, rfl, fun hc => hne (by simp [hc]), h, rfl⟩
  · exact Or.inl rfl

end Nstore

/-
Transact is all or nothing.

A transaction that commits answers with a fact for each element that has a value,
in order, and each of those facts has its datom in the store it commits.  An
element whose value is neither an integer nor a string is skipped without a trace,
so a request is answered in full exactly if it has no such element, or is refused.
-/
import Nstore.Proofs.Invariant

namespace Nstore

/-! ### What a reply should say -/

/-- Elements whose value position holds an integer or a string. -/
def Json.hasValue : Json → Bool
  | .array [_, _, .int64 _, _] => true
  | .array [_, _, .string _, _] => true
  | _ => false

/-- An id of a request, resolved by the new ids of its reply if it is a tempid. -/
def Resolved (newIds : List (Int × Int)) (x y : Int) : Prop :=
  if x < 0 then newIds.lookup x = some y else y = x

/-- A value, resolved if it is a tempid of an attribute with a type. -/
def ResolvedValue (eRef : List Int) (newIds : List (Int × Int)) (a : Int) : Json → FactValue → Prop
  | .int64 x, .int y => if a ∈ eRef then Resolved newIds x.toInt y else y = x.toInt
  | .string s, .str s' => s' = s
  | _, _ => False

/-- A fact of the reply that answers an element. -/
def Answers (eRef : List Int) (tx : Int) (newIds : List (Int × Int)) (v : Json) (f : Fact) : Prop :=
  ∃ (e a : Int64) (jv jr : Json), v = .array [.int64 e, .int64 a, jv, jr] ∧
    Resolved newIds e.toInt f.e ∧ f.a = a.toInt ∧ ResolvedValue eRef newIds f.a jv f.v ∧
    f.tx = tx ∧ f.retract = retractFlag jr

/-- The `EATV` datom of a fact. -/
def factEntry (sha256 : Bytes → Value) (ns : Nat) (f : Fact) : Entry :=
  ({ CustomKey.zeroed with
      ns := ns, type := (encodeFact sha256 f.v).type, sort := sortEATV,
      pad := (encodeFact sha256 f.v).pad, e := f.e, a := f.a,
      t := 2 * f.tx + (if f.retract then 1 else 0), v := (encodeFact sha256 f.v).v },
    (encodeFact sha256 f.v).item)

/-- A committed transaction that has done all it was asked for. -/
structure AllDone (sha256 : Bytes → Value) (o : Oracle) (s : Store) (ns : Nat) (facts : List Json)
    (s' : Store) (tx : Int) (fs : List Fact) (newIds : List (Int × Int)) : Prop where
  number : getMeta s ns metaTx = some tx
  answers : List.Forall₂ (Answers (refSet o s ns tx) tx newIds) facts fs
  stored : ∀ f ∈ fs, factEntry sha256 ns f ∈ s'
  counted : getMeta s' ns metaTx = some (tx + 1)

/-- The request is refused and changes nothing, or is done in full. -/
def AllOrNothing (sha256 : Bytes → Value) (o : Oracle) (s : Store) (ns : Nat)
    (facts : List Json) : Prop :=
  handleTransact sha256 o s ns (some (.array facts)) = (.ackErr, s) ∨
    ∃ tx fs newIds s', handleTransact sha256 o s ns (some (.array facts)) =
      (.response tx fs newIds, s') ∧ AllDone sha256 o s ns facts s' tx fs newIds

/-! ### Tempids -/

theorem Ids.resolve_prefix (ids : Ids) (x : Int) : ids.newIds <+: (ids.resolve x).2.newIds := by
  unfold Ids.resolve
  split
  · exact List.prefix_refl _
  · exact List.prefix_append _ _

theorem Ids.lookup_resolve (ids : Ids) (x : Int) :
    (ids.resolve x).2.newIds.lookup x = some (ids.resolve x).1 := by
  unfold Ids.resolve
  split
  · rename_i id h
    exact h
  · rename_i h
    simp [List.lookup_append, h]

theorem Ids.resolve_id_le (ids : Ids) (x : Int) : (ids.resolve x).2.id ≤ ids.id + 1 := by
  unfold Ids.resolve
  split
  · show ids.id ≤ ids.id + 1; omega
  · exact le_refl _

/-- Ids once given out stay as they are. -/
theorem Resolved.mono {newIds newIds' : List (Int × Int)} {x y : Int} (h : newIds <+: newIds')
    (hr : Resolved newIds x y) : Resolved newIds' x y := by
  unfold Resolved at *
  split
  · rename_i hx
    rw [if_pos hx] at hr
    exact h.lookup_eq_some hr
  · rename_i hx
    rw [if_neg hx] at hr
    exact hr

private theorem resolveEntity_resolved {ids ids' : Ids} {x e : Int}
    (h : resolveEntity ids x = some (e, ids')) :
    ids.newIds <+: ids'.newIds ∧ ids'.id ≤ ids.id + 1 ∧ Resolved ids'.newIds x e := by
  unfold resolveEntity at h
  split at h
  · rename_i hx
    rw [Option.some.injEq] at h
    have h1 := Ids.resolve_prefix ids x
    have h2 := Ids.resolve_id_le ids x
    have h3 := Ids.lookup_resolve ids x
    rw [h] at h1 h2 h3
    exact ⟨h1, h2, by unfold Resolved; rw [if_pos hx]; exact h3⟩
  · rename_i hx
    split at h
    · exact absurd h (by simp)
    · rw [Option.some.injEq, Prod.mk.injEq] at h
      obtain ⟨rfl, rfl⟩ := h
      exact ⟨List.prefix_refl _, by omega, by unfold Resolved; rw [if_neg hx]⟩

private theorem resolveValue_resolved (eRef : List Int) (ids : Ids) (a x : Int) :
    ids.newIds <+: (resolveValue eRef ids a x).2.newIds ∧
      (resolveValue eRef ids a x).2.id ≤ ids.id + 1 ∧
      (if a ∈ eRef then Resolved (resolveValue eRef ids a x).2.newIds x (resolveValue eRef ids a x).1
        else (resolveValue eRef ids a x).1 = x) := by
  unfold resolveValue
  split
  · rename_i h
    refine ⟨Ids.resolve_prefix ids x, Ids.resolve_id_le ids x, ?_⟩
    rw [if_pos h.1]
    unfold Resolved
    rw [if_pos h.2]
    exact Ids.lookup_resolve ids x
  · rename_i h
    refine ⟨List.prefix_refl _, by show ids.id ≤ ids.id + 1; omega, ?_⟩
    split
    · rename_i ha
      unfold Resolved
      rw [if_neg fun hx => h ⟨ha, hx⟩]
    · rfl

theorem ResolvedValue.mono {eRef : List Int} {newIds newIds' : List (Int × Int)} {a : Int}
    {j : Json} {v : FactValue} (h : newIds <+: newIds') (hr : ResolvedValue eRef newIds a j v) :
    ResolvedValue eRef newIds' a j v := by
  cases j with
  | int64 x =>
      cases v with
      | int y =>
          simp only [ResolvedValue] at *
          split
          · rename_i ha
            rw [if_pos ha] at hr
            exact hr.mono h
          · rename_i ha
            rw [if_neg ha] at hr
            exact hr
      | str s => exact hr
  | string s => cases v <;> exact hr
  | _ => exact absurd hr (by simp [ResolvedValue])

theorem Answers.mono {eRef : List Int} {tx : Int} {newIds newIds' : List (Int × Int)} {v : Json}
    {f : Fact} (h : newIds <+: newIds') (hr : Answers eRef tx newIds v f) :
    Answers eRef tx newIds' v f := by
  obtain ⟨e, a, jv, jr, hv, he, ha, hval, ht, hret⟩ := hr
  exact ⟨e, a, jv, jr, hv, he.mono h, ha, hval.mono h, ht, hret⟩

/-- The fact a write is answered with. -/
def Write.fact (tx : Int) (w : Write) : Fact := ⟨w.e, w.a, w.enc.shown, tx, w.retract⟩

/-- An element that is read with a value is answered, one that is skipped has none. -/
theorem readElement_answers {sha256 : Bytes → Value} {eRef : List Int} {ids ids' : Ids} {v : Json}
    {w : Option Write} (h : readElement sha256 eRef ids v = some (ids', w)) (tx : Int) :
    ids.newIds <+: ids'.newIds ∧ ids'.id ≤ ids.id + 2 ∧ v.hasValue = w.isSome ∧
      ∀ x ∈ w, Answers eRef tx ids'.newIds v (x.fact tx) := by
  unfold readElement at h
  split at h
  · rename_i e a jv jr
    rw [Option.map_eq_some_iff] at h
    obtain ⟨⟨e', ids₁⟩, he, hr⟩ := h
    obtain ⟨hpre, hle, hres⟩ := resolveEntity_resolved he
    cases jv with
    | int64 x =>
        simp only [readValue, Prod.mk.injEq] at hr
        obtain ⟨rfl, rfl⟩ := hr
        obtain ⟨hpre', hle', hval⟩ := resolveValue_resolved eRef ids₁ a.toInt x.toInt
        refine ⟨hpre.trans hpre', by omega, rfl, fun w hw => ?_⟩
        rw [Option.mem_def, Option.some.injEq] at hw
        subst hw
        exact ⟨e, a, _, jr, rfl, hres.mono hpre', rfl, hval, rfl, rfl⟩
    | string str =>
        simp only [readValue, Prod.mk.injEq] at hr
        obtain ⟨rfl, rfl⟩ := hr
        refine ⟨hpre, by omega, rfl, fun w hw => ?_⟩
        rw [Option.mem_def, Option.some.injEq] at hw
        subst hw
        refine ⟨e, a, _, jr, rfl, hres, rfl, ?_, rfl, rfl⟩
        simp only [Write.fact, encodeStr_shown, ResolvedValue]
    | _ =>
        simp only [readValue, Prod.mk.injEq] at hr
        obtain ⟨rfl, rfl⟩ := hr
        exact ⟨hpre, by omega, rfl, fun w hw => absurd hw (by simp)⟩
  · exact absurd h (by simp)

/-! ### Datoms that were put stay -/

/-- The strings among the values of a request. -/
def stringsOf (facts : List Json) : List Bytes :=
  facts.filterMap fun
    | .array [_, _, .string s, _] => some s
    | _ => none

/-- No two of the strings have the same hash. -/
def NoCollision (sha256 : Bytes → Value) (strs : List Bytes) : Prop :=
  ∀ s ∈ strs, ∀ s' ∈ strs, sha256 s = sha256 s' → s = s'

/-- A key tells what it was encoded from, short of a collision. -/
theorem encodeFact_inj {sha256 : Bytes → Value} {strs : List Bytes} (hnc : NoCollision sha256 strs)
    {v v' : FactValue} (hv : (encodeFact sha256 v).Ok sha256) (hv' : (encodeFact sha256 v').Ok sha256)
    (hin : ∀ s, v = .str s → s ∈ strs) (hin' : ∀ s, v' = .str s → s ∈ strs) {k k' : CustomKey}
    (ht : k.type = (encodeFact sha256 v).type) (ht' : k'.type = (encodeFact sha256 v').type)
    (hp : k.pad = (encodeFact sha256 v).pad) (hp' : k'.pad = (encodeFact sha256 v').pad)
    (hu : k.v = (encodeFact sha256 v).v) (hu' : k'.v = (encodeFact sha256 v').v)
    (h : k.valueCoords = k'.valueCoords) : v = v' := by
  have htype : k.type = .keyInteger ∨ k.type = .keyBlob := by rw [ht]; exact hv.type
  obtain ⟨hty, hval⟩ := (valueCoords_eq_iff htype).mp h
  have hblob := encodeStr_type sha256
  have hrange : ∀ {x : Int}, (encodeFact sha256 (.int x)).Ok sha256 → IsInt64 x := by
    rintro x (⟨y, hy, heq⟩ | ⟨s, -, heq⟩)
    · have : FactValue.int x = .int y := congrArg Encoded.shown heq
      simp only [FactValue.int.injEq] at this
      subst this
      exact ⟨by omega, by omega⟩
    · have := congrArg Encoded.type heq
      rw [hblob] at this
      exact absurd this (by simp [encodeFact, encodeInt])
  cases v with
  | int x =>
      cases v' with
      | int x' =>
          rw [ht] at hval
          have hi : k.v.i = k'.v.i := hval
          rw [hu, hu'] at hi
          have h1 : (Value.zero.setI x).i = (Value.zero.setI x').i := hi
          rw [Value.i_setI _ (hrange hv), Value.i_setI _ (hrange hv')] at h1
          rw [h1]
      | str s' =>
          rw [ht, ht'] at hty
          exact absurd (hty.trans (hblob s')) (by simp [encodeFact, encodeInt])
  | str s =>
      cases v' with
      | int x' =>
          rw [ht, ht'] at hty
          exact absurd ((hblob s).symm.trans hty) (by simp [encodeFact, encodeInt])
      | str s' =>
          rw [ht] at hval
          have hb : (encodeFact sha256 (.str s)).type = .keyBlob := hblob s
          rw [hb] at hval
          obtain ⟨hpad, hpay⟩ := hval
          rw [hp, hp'] at hpad
          rw [hu, hu'] at hpay
          have hin := hin s rfl
          have hin' := hin' s' rfl
          simp only [encodeFact, encodeStr] at hpad hpay
          by_cases hl : s.length > 32 <;> by_cases hl' : s'.length > 32
          · rw [if_pos hl, if_pos hl'] at hpay
            rw [hnc s hin s' hin' hpay]
          · rw [if_pos hl, if_neg hl'] at hpad
            simp only at hpad
            split at hpad <;> omega
          · rw [if_neg hl, if_pos hl'] at hpad
            simp only at hpad
            split at hpad <;> omega
          · rw [if_neg hl, if_neg hl'] at hpad hpay
            have hlen : s.length = s'.length := by
              simp only at hpad
              omega
            have h1 := take_ofBytes (s := s) (by omega)
            have h2 := take_ofBytes (s := s') (by omega)
            have h3 : Value.ofBytes s = Value.ofBytes s' := hpay
            rw [h3, hlen, h2] at h1
            rw [h1]

section Stored

variable {sha256 : Bytes → Value} {txn : Txn} {w : Write} {s s' : Store}

theorem Write.entry_eq (htx : txn.Ok) (henc : w.enc = encodeFact sha256 w.enc.shown) :
    (w.key txn sortEATV, w.enc.item) = factEntry sha256 txn.ns (w.fact txn.tx) := by
  have ht : (w.key txn sortEATV).t = _ := Write.key_t htx
  unfold factEntry Write.fact
  simp only
  rw [← henc, ← ht]
  rfl

/-- A fact put earlier in the transaction is there after an insertion. -/
theorem Inserted.stored {strs : List Bytes} (hnc : NoCollision sha256 strs) (htx : txn.Ok)
    (hw : w.Ok sha256) (henc : w.enc = encodeFact sha256 w.enc.shown)
    (hstr : ∀ s, w.enc.shown = .str s → s ∈ strs) (h : Inserted txn w s s') {f : Fact}
    (hf : factEntry sha256 txn.ns f ∈ s) (hok : (encodeFact sha256 f.v).Ok sha256)
    (hftx : f.tx = txn.tx) (hfstr : ∀ s, f.v = .str s → s ∈ strs) :
    factEntry sha256 txn.ns f ∈ s' := by
  have hd : (factEntry sha256 txn.ns f).1.IsDatom := ⟨hok.type, Or.inl rfl⟩
  rw [h.datoms _ hd]
  by_cases hr : w.Replaces txn (factEntry sha256 txn.ns f)
  · -- it is replaced by itself
    refine Or.inl (Or.inl ?_)
    obtain ⟨⟨-, he, ha, htv⟩, -⟩ := hr
    obtain ⟨ht, hval⟩ := List.cons.inj htv
    have hokw : (encodeFact sha256 w.enc.shown).Ok sha256 := henc ▸ hw.enc
    have hv : f.v = w.enc.shown := encodeFact_inj hnc hok hokw hfstr hstr rfl (by rw [← henc]; rfl)
      rfl (by rw [← henc]; rfl) rfl (by rw [← henc]; rfl) hval
    have hret : f.retract = w.retract := by
      rw [Write.key_t htx] at ht
      have ht : 2 * f.tx + (if f.retract then 1 else 0) = 2 * txn.tx + if w.retract then 1 else 0 := ht
      cases hf : f.retract <;> cases hw : w.retract <;> simp [hf, hw] at ht ⊢ <;> omega
    have hfact : f = w.fact txn.tx := by
      obtain ⟨e, a, v, t, r⟩ := f
      simp only at hv hret hftx
      have he : e = w.e := he
      have ha : a = w.a := ha
      rw [Write.fact, he, ha, hv, hret, hftx]
    rw [Write.entry_eq htx henc, hfact]
  · exact Or.inr ⟨hf, hr⟩

/-- The facts a transaction has answered with so far, with their datoms in the store. -/
def FactsStored (sha256 : Bytes → Value) (strs : List Bytes) (txn : Txn) (st : TxnState) : Prop :=
  ∀ f ∈ st.newFacts, factEntry sha256 txn.ns f ∈ st.store ∧ (encodeFact sha256 f.v).Ok sha256 ∧
    f.tx = txn.tx ∧ ∀ s, f.v = .str s → s ∈ strs

/-- One round: it answers its element if that has a value, and loses no datom. -/
theorem transactFact_answers {o : Oracle} {i : Nat} {strs : List Bytes}
    (hnc : NoCollision sha256 strs) (htx : txn.Ok) {st st' : TxnState} {v : Json}
    (hv : v.FactInRange) (hstrs : ∀ s ∈ stringsOf [v], s ∈ strs) (hids : st.ids.Ok)
    (hs : StoreOk st.store) (hst : FactsStored sha256 strs txn st)
    (h : transactFact sha256 o i txn st v = some st') (hbound : st'.ids.id ≤ 2 ^ 29) :
    StoreOk st'.store ∧ FactsStored sha256 strs txn st' ∧ st.ids.newIds <+: st'.ids.newIds ∧
      ∃ fs, st'.newFacts = st.newFacts ++ fs ∧
        List.Forall₂ (Answers txn.eRef txn.tx st'.ids.newIds) ([v].filter Json.hasValue) fs := by
  obtain ⟨ids, ⟨hr, rfl⟩ | ⟨w, hr, hw⟩⟩ := transactFact_cases h
  · obtain ⟨hpre, -, hval, -⟩ := readElement_answers hr txn.tx
    refine ⟨hs, hst, hpre, [], (List.append_nil _).symm, ?_⟩
    rw [List.filter_cons, hval]
    exact List.Forall₂.nil
  · obtain ⟨hpre, -, hval, hans⟩ := readElement_answers hr txn.tx
    have hans := hans w rfl
    have henc := (readElement_write hids hr).2
    have hst' : st'.ids = ids := insertWrite_ids hw
    have hwok := (readElement_spec hids hr).2.2 hv (hst' ▸ hbound) w rfl
    have hs' : StoreOk ({ st with ids := ids } : TxnState).store := hs
    have hins := insertWrite_inserted htx hwok hs' hw
    obtain ⟨-, -, -, -, hfacts⟩ := insertWrite_cases htx hwok hs' hw
    have hwstr : ∀ s, w.enc.shown = .str s → s ∈ strs := by
      intro s hshown
      obtain ⟨e, a, jv, jr, rfl, -, -, hrv, -, -⟩ := hans
      simp only [Write.fact, hshown] at hrv
      cases jv with
      | string s' =>
          have : s = s' := hrv
          exact hstrs s (by simp [stringsOf, this])
      | _ => exact absurd hrv (by simp [ResolvedValue])
    have hokw : (encodeFact sha256 w.enc.shown).Ok sha256 := henc ▸ hwok.enc
    refine ⟨hins.ok, fun f hf => ?_, hst' ▸ hpre, [w.fact txn.tx], hfacts, ?_⟩
    · rw [hfacts] at hf
      rcases List.mem_append.mp hf with hf | hf
      · obtain ⟨h1, h2, h3, h4⟩ := hst f hf
        exact ⟨hins.stored hnc htx hwok henc hwstr h1 h2 h3 h4, h2, h3, h4⟩
      · rw [List.mem_singleton.mp hf]
        refine ⟨?_, hokw, rfl, hwstr⟩
        rw [show (⟨w.e, w.a, w.enc.shown, txn.tx, w.retract⟩ : Fact) = w.fact txn.tx from rfl,
          ← Write.entry_eq htx henc]
        exact (hins.datoms _ (Write.key_isDatom hwok (Or.inl rfl))).mpr (Or.inl (Or.inl rfl))
    · rw [List.filter_cons, hval, hst']
      exact List.Forall₂.cons hans List.Forall₂.nil

/-- The whole loop. -/
theorem transactLoop_answers {o : Oracle} {strs : List Bytes} (hnc : NoCollision sha256 strs)
    (htx : txn.Ok) : ∀ {vs : List Json} {i : Nat} {st st' : TxnState},
      (∀ v ∈ vs, v.FactInRange) → (∀ s ∈ stringsOf vs, s ∈ strs) → st.ids.Ok → StoreOk st.store →
      FactsStored sha256 strs txn st → transactLoop sha256 o txn i st vs = some st' →
      st'.ids.id ≤ 2 ^ 29 →
      StoreOk st'.store ∧ FactsStored sha256 strs txn st' ∧ st.ids.newIds <+: st'.ids.newIds ∧
        ∃ fs, st'.newFacts = st.newFacts ++ fs ∧
          List.Forall₂ (Answers txn.eRef txn.tx st'.ids.newIds) (vs.filter Json.hasValue) fs := by
  intro vs
  induction vs with
  | nil =>
      intro i st st' _ _ _ hs hst h _
      rw [transactLoop, Option.some.injEq] at h
      subst h
      exact ⟨hs, hst, List.prefix_refl _, [], (List.append_nil _).symm, List.Forall₂.nil⟩
  | cons v rest ih =>
      intro i st st' hvs hstrs hids hs hst h hbound
      rw [transactLoop, Option.bind_eq_some_iff] at h
      obtain ⟨st₁, h1, h2⟩ := h
      have hids₁ := (transactFact_ids hids h1).1
      have hbound₁ : st₁.ids.id ≤ 2 ^ 29 := le_trans (transactLoop_ids hids₁ h2).2 hbound
      have hsplit : stringsOf (v :: rest) = stringsOf [v] ++ stringsOf rest := by
        unfold stringsOf
        rw [← List.filterMap_append]
        rfl
      rw [hsplit] at hstrs
      obtain ⟨hs₁, hst₁, hpre₁, fs₁, hf₁, ha₁⟩ := transactFact_answers hnc htx (hvs v (by simp))
        (fun s hs => hstrs s (List.mem_append_left _ hs)) hids hs hst h1 hbound₁
      obtain ⟨hs₂, hst₂, hpre₂, fs₂, hf₂, ha₂⟩ := ih (fun x hx => hvs x (by simp [hx]))
        (fun s hs => hstrs s (List.mem_append_right _ hs)) hids₁ hs₁ hst₁ h2 hbound
      refine ⟨hs₂, hst₂, hpre₁.trans hpre₂, fs₁ ++ fs₂, ?_, ?_⟩
      · rw [hf₂, hf₁, List.append_assoc]
      · rw [show (v :: rest).filter Json.hasValue =
          [v].filter Json.hasValue ++ rest.filter Json.hasValue from List.filter_append [v] rest]
        exact List.rel_append (ha₁.imp fun _ _ h => h.mono hpre₂) ha₂

/-- A round gives out at most two ids. -/
theorem transactFact_ids_le {o : Oracle} {i : Nat} {st st' : TxnState} {v : Json}
    (h : transactFact sha256 o i txn st v = some st') : st'.ids.id ≤ st.ids.id + 2 := by
  obtain ⟨ids, ⟨hr, rfl⟩ | ⟨w, hr, hw⟩⟩ := transactFact_cases h
  · exact (readElement_answers hr txn.tx).2.1
  · rw [insertWrite_ids hw]
    exact (readElement_answers hr txn.tx).2.1

private theorem transactLoop_ids_le {o : Oracle} : ∀ {vs : List Json} {i : Nat} {st st' : TxnState},
    transactLoop sha256 o txn i st vs = some st' → st'.ids.id ≤ st.ids.id + 2 * vs.length := by
  intro vs
  induction vs with
  | nil =>
      intro i st st' h
      rw [transactLoop, Option.some.injEq] at h
      rw [← h]
      simp
  | cons v rest ih =>
      intro i st st' h
      rw [transactLoop, Option.bind_eq_some_iff] at h
      obtain ⟨st₁, h1, h2⟩ := h
      have hle₁ := transactFact_ids_le h1
      have hle₂ := ih h2
      rw [List.length_cons]
      push_cast
      omega

end Stored

/-! ### The request as a whole -/

/-- A namespace and its counters, with room for a request of some length. -/
structure Ready (s : Store) (ns : Nat) (n : Nat) : Prop where
  ok : StoreOk s
  ns_lt : ns < 2 ^ 31
  tx_range : ∀ tx, getMeta s ns metaTx = some tx → 0 ≤ tx ∧ tx < 2 ^ 29
  id_range : ∀ id, getMeta s ns metaId = some id → dbInitialId ≤ id ∧ id + 2 * n ≤ 2 ^ 29

/-- What a committed request has done, elements without a value apart. -/
theorem transact_answers {sha256 : Bytes → Value} {o : Oracle} {s s' : Store} {ns : Nat}
    {facts : List Json} {r : Reply} (hs : Ready s ns facts.length)
    (hfacts : ∀ v ∈ facts, v.FactInRange) (hnc : NoCollision sha256 (stringsOf facts))
    (h : transact sha256 o s ns facts = some (r, s')) :
    ∃ tx fs newIds, r = .response tx fs newIds ∧ getMeta s ns metaTx = some tx ∧
      List.Forall₂ (Answers (refSet o s ns tx) tx newIds) (facts.filter Json.hasValue) fs ∧
      (∀ f ∈ fs, factEntry sha256 ns f ∈ s') ∧ getMeta s' ns metaTx = some (tx + 1) := by
  obtain ⟨tx, id, st, htx, hid, hloop, rfl, rfl⟩ := transact_cases h
  have htxn : (beginTxn o s ns tx).Ok := ⟨hs.ns_lt, hs.tx_range tx htx⟩
  have hids : (beginState s id).ids.Ok :=
    ⟨(hs.id_range id hid).1, fun p hp => absurd hp (by simp [beginState])⟩
  have hbound : st.ids.id ≤ 2 ^ 29 := by
    have h1 : st.ids.id ≤ id + 2 * facts.length := transactLoop_ids_le hloop
    have h2 := (hs.id_range id hid).2
    omega
  obtain ⟨hs', hst, -, fs, hf, hans⟩ := transactLoop_answers hnc htxn hfacts (fun _ h => h) hids
    hs.ok (fun f hf => absurd hf (by simp [beginState])) hloop hbound
  have hf : st.newFacts = fs := hf
  rw [hf]
  refine ⟨tx, fs, st.ids.newIds, rfl, htx, hans, fun f hmem => ?_,
    (getMeta_commitStore ns tx st (lt_trans hs.ns_lt (by norm_num))).1⟩
  rw [mem_commitStore hs' hs.ns_lt]
  · exact (hst f (hf ▸ hmem)).1
  · intro hc
    have := (hst f (hf ▸ hmem)).2.1.type
    rw [show (encodeFact sha256 f.v).type = .keyMeta from hc] at this
    exact absurd this (by simp)

/--
A request that goes through: a list with an element in it, whose transaction begins, which
no element and no call stops, and whose counters are put and committed.
-/
def GoesThrough (sha256 : Bytes → Value) (o : Oracle) (s : Store) (ns : Nat)
    (facts : List Json) : Prop :=
  facts.length ≠ 0 ∧
    (∃ txn st, transactBegin o s ns = some (txn, st) ∧
      transactLoop sha256 o txn 0 st facts ≠ none) ∧
    o.fails (.putMeta metaTx) = false ∧ o.fails (.putMeta metaId) = false ∧
    o.fails .commit = false

/-- What does not go through is refused, and changes nothing. -/
theorem handleTransact_refused {sha256 : Bytes → Value} {o : Oracle} {s : Store} {ns : Nat}
    {facts : List Json} (h : ¬ GoesThrough sha256 o s ns facts) :
    handleTransact sha256 o s ns (some (.array facts)) = (.ackErr, s) := by
  rcases handleTransact_cases sha256 o s ns (some (.array facts)) with hr |
    ⟨facts', p, harg, hne, htr, -⟩
  · exact hr
  · obtain rfl : facts = facts' := by simpa using harg
    refine absurd ⟨?_, ?_⟩ h
    · simpa using hne
    unfold transact at htr
    obtain ⟨⟨txn, st⟩, hbegin, htr⟩ := Option.bind_eq_some_iff.mp htr
    obtain ⟨st', hloop, htr⟩ := Option.bind_eq_some_iff.mp htr
    obtain ⟨s', hend, -⟩ := Option.map_eq_some_iff.mp htr
    refine ⟨⟨txn, st, hbegin, by simp [hloop]⟩, ?_⟩
    unfold transactEnd at hend
    split at hend
    · cases hend
    · rename_i hfails
      simpa [and_assoc] using hfails

/-- What goes through is answered and committed. -/
theorem GoesThrough.transact {sha256 : Bytes → Value} {o : Oracle} {s : Store} {ns : Nat}
    {facts : List Json} (h : GoesThrough sha256 o s ns facts) :
    ∃ r s', transact sha256 o s ns facts = some (r, s') ∧
      handleTransact sha256 o s ns (some (.array facts)) = (r, s') := by
  obtain ⟨hne, ⟨txn, st, hbegin, hloop⟩, htx, hid, hcommit⟩ := h
  obtain ⟨st', hloop⟩ := Option.ne_none_iff_exists'.mp hloop
  have htr : Nstore.transact sha256 o s ns facts =
      some (.response txn.tx st'.newFacts st'.ids.newIds,
        putMeta (putMeta st'.store txn.ns metaTx (txn.tx + 1)) txn.ns metaId st'.ids.id) := by
    simp [Nstore.transact, hbegin, hloop, transactEnd, htx, hid, hcommit]
  refine ⟨_, _, htr, ?_⟩
  simp [handleTransact, hne, htr]

/--
**When transact is all or nothing.**  A request whose elements all have an integer or a
string for a value is, whatever becomes of it.  Any other is if and only if it does not go
through, and is refused.
-/
theorem transact_allOrNothing {sha256 : Bytes → Value} {o : Oracle} {s : Store} {ns : Nat}
    {facts : List Json} (hs : Ready s ns facts.length) (hfacts : ∀ v ∈ facts, v.FactInRange)
    (hnc : NoCollision sha256 (stringsOf facts)) :
    AllOrNothing sha256 o s ns facts ↔
      (∀ v ∈ facts, v.hasValue = true) ∨ ¬ GoesThrough sha256 o s ns facts := by
  by_cases hthrough : GoesThrough sha256 o s ns facts
  · obtain ⟨r, s', htr, h⟩ := hthrough.transact
    obtain ⟨tx, fs, newIds, rfl, htx, hans, hstored, hcount⟩ := transact_answers hs hfacts hnc htr
    rw [or_iff_left (not_not.mpr hthrough)]
    constructor
    · rintro (hc | ⟨tx', fs', newIds', s'', hc, hdone⟩)
      · rw [h] at hc
        cases hc
      · -- the reply has a fact for each element that has a value
        rw [h, Prod.mk.injEq, Reply.response.injEq] at hc
        obtain ⟨⟨-, rfl, -⟩, -⟩ := hc
        have hlen : (facts.filter Json.hasValue).length = facts.length :=
          hans.length_eq.trans hdone.answers.length_eq.symm
        exact List.length_filter_eq_length_iff.mp hlen
    · intro hall
      rw [List.filter_eq_self.mpr hall] at hans
      exact .inr ⟨tx, fs, newIds, s', h, htx, hans, hstored, hcount⟩
  · exact iff_of_true (.inl (handleTransact_refused hthrough)) (.inr hthrough)

theorem ready_dbOpen : Ready (dbOpen .calm []) 0 1 := by
  have htx : getMeta (dbOpen .calm []) 0 metaTx = some 1 := by decide +kernel
  have hid : getMeta (dbOpen .calm []) 0 metaId = some 11 := by decide +kernel
  have hr : RepInv .ofBytes (dbOpen .calm []) := repInv_dbOpen Oracle.calm_faultless.setup
  refine ⟨hr.ok, by norm_num, fun tx h => ?_, fun id h => ?_⟩
  · cases htx.symm.trans h
    norm_num
  · cases hid.symm.trans h
    simp [dbInitialId]

theorem transact_allOrNothing_sample :
    AllOrNothing .ofBytes .calm (dbOpen .calm []) 0
      [.array [.int64 (-1), .int64 100, .int64 5, .int64 0]] := by
  refine (transact_allOrNothing ready_dbOpen (fun v hv => ?_) fun s hs => ?_).mpr
    (.inl fun v hv => ?_)
  · rw [List.mem_singleton.mp hv]
    decide
  · exact absurd hs (by simp [stringsOf])
  · rw [List.mem_singleton.mp hv]
    rfl

/-- A request whose only element is skipped is answered as if it had been done. -/
theorem not_allOrNothing_null :
    ¬ AllOrNothing .ofBytes .calm (dbOpen .calm []) 0
      [.array [.int64 11, .int64 100, .null, .int64 0]] := by
  have hreply : (handleTransact .ofBytes .calm (dbOpen .calm []) 0
      (some (.array [.array [.int64 11, .int64 100, .null, .int64 0]]))).1 = .response 1 [] [] := by
    decide +kernel
  rintro (h | ⟨tx, fs, newIds, s', h, hdone⟩)
  · rw [h] at hreply
    exact absurd hreply (by simp)
  · rw [h, Reply.response.injEq] at hreply
    have := hdone.answers.length_eq
    rw [hreply.2.1] at this
    exact absurd this (by simp)

end Nstore

/-
Who frees the values of a unique attribute.

An index entry belongs to the entity in its data item.  A retraction deletes the entry
of its value without looking whose it is, and an assertion that takes a new value
deletes the entry of the entity's last datom, which need not be its own either.  So
the other entities keep what they own exactly if the entry that is given up is the
entity's own.  Nothing here needs the order of the keys: what is said holds in any
store.
-/
import Nstore.Proofs.Refs

namespace Nstore

/-! ### Owned entries -/

/-- The index entries an entity of a namespace owns. -/
def claimsOf (n : Nat) (e : Int) (s : Store) : Store :=
  s.filter fun x => x.1.type = .keyUnique ∧ x.1.ns = n ∧ x.2.i64 = e

/-- Every entity but one has the index entries it had. -/
def OthersKept (n : Nat) (e : Int) (s s' : Store) : Prop :=
  ∀ (n' : Nat) (e' : Int), ¬ (toNamespace n' = toNamespace n ∧ e' = e) →
    claimsOf n' e' s' = claimsOf n' e' s

section Claims

variable {s s' : Store} {n : Nat} {e : Int} {k : CustomKey}

/-- Only index entries matter. -/
theorem claimsOf_congr (h : ofType .keyUnique s' = ofType .keyUnique s) (n : Nat) (e : Int) :
    claimsOf n e s' = claimsOf n e s := by
  have hof : ∀ s, claimsOf n e s =
      (ofType .keyUnique s).filter fun x => x.1.ns = n ∧ x.2.i64 = e := by
    intro s
    unfold claimsOf ofType
    rw [List.filter_filter]
    refine List.filter_congr fun x _ => ?_
    simp only [Bool.decide_and]
    rw [Bool.and_comm]
  rw [hof, hof, h]

/-- An entry that is found under an index key is one of the namespace's. -/
theorem compare_uniqueKey {y : CustomKey} (h : customKeyCompare (uniqueKey n k) y = 0) :
    y.type = .keyUnique ∧ toNamespace y.ns = toNamespace n := by
  have hcode : (uniqueKey n k).type.code < KeyType.keyMinSentinel.code := by
    show KeyType.keyUnique.code < KeyType.keyMinSentinel.code
    decide
  obtain ⟨htype, hns⟩ := type_of_compare (Or.inl hcode) h
  have hns : ((n : Int) - y.ns) % 2 ^ 32 = 0 := hns
  refine ⟨htype, ?_⟩
  unfold toNamespace
  omega

/-- **A deletion leaves what others own as it was exactly if the entry it finds is not theirs.** -/
theorem othersKept_del (h : mdbDel s (uniqueKey n k) = some s') :
    OthersKept n e s s' ↔ ∀ d, mdbGet s (uniqueKey n k) = some d → d.i64 = e := by
  obtain ⟨l, x, r, rfl, rfl, hx, hfind⟩ := OrderedMap.del_cases h
  have hget : mdbGet (l ++ x :: r) (uniqueKey n k) = some x.2 := hfind
  obtain ⟨htype, hns⟩ := compare_uniqueKey hx
  constructor
  · intro hkept d hd
    rw [hget, Option.some.injEq] at hd
    subst hd
    by_contra hne
    have hlost := congrArg List.length (hkept x.1.ns x.2.i64 fun hc => hne hc.2)
    simp [claimsOf, htype] at hlost
  · intro hown n' e' hne
    have hxe := hown _ hget
    have hother : ¬ (x.1.type = .keyUnique ∧ x.1.ns = n' ∧ x.2.i64 = e') := by
      rintro ⟨-, rfl, rfl⟩
      exact hne ⟨hns, hxe⟩
    simp [claimsOf, hother]

/-- A put under an index key that is free or the entity's own changes nothing for others. -/
theorem othersKept_put (hown : ∀ d, mdbGet s (uniqueKey n k) = some d → d.i64 = e) :
    OthersKept n e s (mdbPut s (uniqueKey n k) (.num e)) := by
  intro n' e' hne
  obtain ⟨l, m, r, hs, hput, hm⟩ : ∃ l m r, s = l ++ m ++ r ∧
      mdbPut s (uniqueKey n k) (.num e) = l ++ (uniqueKey n k, .num e) :: r ∧
      (m = [] ∨ ∃ x, m = [x] ∧ customKeyCompare (uniqueKey n k) x.1 = 0 ∧
        mdbGet s (uniqueKey n k) = some x.2) := OrderedMap.put_cases (Item.num e) s
  have hnew : ¬ ((uniqueKey n k).type = .keyUnique ∧ (uniqueKey n k).ns = n' ∧
      (Item.num e).i64 = e') := by
    rintro ⟨-, rfl, rfl⟩
    exact hne ⟨rfl, rfl⟩
  have hold : claimsOf n' e' m = [] := by
    rcases hm with rfl | ⟨x, rfl, hx, hfind⟩
    · rfl
    · have hxe := hown _ hfind
      have hother : ¬ (x.1.type = .keyUnique ∧ x.1.ns = n' ∧ x.2.i64 = e') := by
        rintro ⟨-, rfl, rfl⟩
        exact hne ⟨(compare_uniqueKey hx).2, hxe⟩
      simp [claimsOf, hother]
  rw [hput, hs]
  unfold claimsOf at hold ⊢
  rw [List.filter_append, List.filter_append, List.filter_append, hold, List.filter_cons,
    if_neg (by simpa using hnew), List.append_nil]

/-- What is not found is not found after a deletion. -/
theorem mdbGet_none_of_mdbDel {k' : CustomKey} (h : mdbDel s k = some s')
    (hget : mdbGet s k' = none) : mdbGet s' k' = none := by
  unfold mdbGet OrderedMap.find? at hget ⊢
  rw [Option.map_eq_none_iff, List.find?_eq_none] at hget ⊢
  exact fun x hx => hget x ((OrderedMap.del_sublist h).subset hx)

end Claims

/-! ### The constraint check -/

/-- A write to a unique attribute gives up only the entity's own index entry. -/
structure ReleasesOwn (txn : Txn) (s : Store) (w : Write) : Prop where
  /-- A retraction finds the entity's own entry. -/
  retracts : w.retract = true → ∀ d,
    mdbGet s (uniqueKey txn.ns (w.key txn sortEATV)) = some d → d.i64 = w.e
  /-- An assertion of a value that is free finds it for the entity's last datom. -/
  replaces : w.retract = false → mdbGet s (uniqueKey txn.ns (w.key txn sortEATV)) = none →
    ∀ last, lastDatom s (w.key txn sortEATV) = some last →
      ∀ d, mdbGet s (uniqueKey txn.ns last) = some d → d.i64 = w.e

section Check

variable {sha256 : Bytes → Value} {o : Oracle} {i : Nat} {txn : Txn} {s s' : Store} {w : Write}

/-- The lookups of the check of an assertion do not fail. -/
def LookupsSucceed (o : Oracle) (i : Nat) : Prop :=
  o.fails (.uniqueGet i) = false ∧ o.fails (.lastDatom i) = false

/-- **The check leaves what others own as it was exactly if it gives up the entity's own entry.** -/
theorem othersKept_checkUnique (ho : w.retract = false → LookupsSucceed o i)
    (hu : w.a ∈ txn.eUnique)
    (h : checkUnique o i txn s (w.key txn sortEATV) w.retract = some s') :
    OthersKept txn.ns w.e s s' ↔ ReleasesOwn txn s w := by
  cases hr : w.retract with
  | true =>
      rw [hr] at h
      rcases checkUnique_cases h with ⟨ha, -⟩ | ⟨-, -, hdel⟩ | ⟨-, hc, -⟩
      · exact absurd hu ha
      · rw [othersKept_del hdel]
        constructor
        · intro hown
          exact ⟨fun _ => hown, fun hc => absurd (hr.symm.trans hc) (by simp)⟩
        · intro hown
          exact hown.retracts hr
      · exact absurd hc (by simp)
  | false =>
      rw [hr] at h
      have hretract : w.retract = true → ∀ d,
          mdbGet s (uniqueKey txn.ns (w.key txn sortEATV)) = some d → d.i64 = w.e := fun hc =>
        absurd (hr.symm.trans hc) (by simp)
      obtain ⟨-, h⟩ := (checkUnique_assert_iff (ho hr).1 (ho hr).2 hu).mp h
      rcases h with ⟨d, hget, hd, rfl⟩ | ⟨hget, hlast, rfl⟩ | ⟨hget, -, last, s₁, hlast, hdel, rfl⟩
      · have hkept : OthersKept txn.ns w.e s _ := othersKept_put (k := w.key txn sortEATV)
          fun d' hd' => by
            rw [hget, Option.some.injEq] at hd'
            exact hd' ▸ hd
        refine iff_of_true hkept ⟨hretract, fun _ hc => ?_⟩
        exact absurd (hget.symm.trans hc) (by simp)
      · have hkept : OthersKept txn.ns w.e s _ := othersKept_put (k := w.key txn sortEATV)
          fun d' hd' => absurd (hget.symm.trans hd') (by simp)
        refine iff_of_true hkept ⟨hretract, fun _ _ last hc => ?_⟩
        exact absurd (hlast.symm.trans hc) (by simp)
      · -- the put that follows the deletion changes nothing for others
        have hput : OthersKept txn.ns w.e s₁ _ := othersKept_put (k := w.key txn sortEATV)
          fun d' hd' => absurd ((mdbGet_none_of_mdbDel hdel hget).symm.trans hd') (by simp)
        have hboth : OthersKept txn.ns w.e s
            (mdbPut s₁ (uniqueKey txn.ns (w.key txn sortEATV)) (.num w.e)) ↔
            OthersKept txn.ns w.e s s₁ := by
          refine forall_congr' fun n' => forall_congr' fun e' => imp_congr_right fun hne => ?_
          rw [hput n' e' hne]
        refine hboth.trans ((othersKept_del hdel).trans ?_)
        constructor
        · intro hown
          refine ⟨hretract, fun _ _ last' hc => ?_⟩
          rw [hlast, Option.some.injEq] at hc
          exact hc ▸ hown
        · intro hown
          exact hown.replaces hr hget last hlast

/-- What is inserted after the check is no index entry. -/
theorem othersKept_insertWrite {st st' : TxnState} (ho : w.retract = false → LookupsSucceed o i)
    (hu : w.a ∈ txn.eUnique) (hw : w.enc.type ≠ .keyUnique) (hmc : st.mc.Off .keyUnique)
    (h : insertWrite o i txn st w = some st') :
    OthersKept txn.ns w.e st.store st'.store ↔ ReleasesOwn txn st.store w := by
  obtain ⟨s₁, hcheck, hkeeps⟩ := insertWrite_keeps (by decide) hw hmc h
  rw [← othersKept_checkUnique ho hu hcheck]
  refine forall_congr' fun n' => forall_congr' fun e' => imp_congr_right fun _ => ?_
  rw [claimsOf_congr hkeeps.1]

end Check

/-! ### Transactions -/

section Transactions

variable {sha256 : Bytes → Value} {o : Oracle} {txn : Txn}

/-- A write that is about another entity, or about no unique attribute, and gives up its own. -/
def SparesEntity (txn : Txn) (n : Nat) (e : Int) (s : Store) (w : Write) : Prop :=
  w.a ∈ txn.eUnique → ReleasesOwn txn s w ∧ ¬ (toNamespace n = toNamespace txn.ns ∧ e = w.e)

/-- An entity that the loop spares has the index entries it had. -/
theorem claimsOf_transactLoop {n : Nat} {e : Int} (ho : ∀ i, LookupsSucceed o i) :
    ∀ {vs : List Json} {i : Nat} {st st' : TxnState}, st.mc.Off .keyUnique →
      LoopMeets sha256 o txn (SparesEntity txn n e) i st vs →
      transactLoop sha256 o txn i st vs = some st' →
      claimsOf n e st'.store = claimsOf n e st.store := by
  intro vs
  induction vs with
  | nil =>
      intro i st st' _ _ h
      rw [transactLoop, Option.some.injEq] at h
      rw [h]
  | cons v rest ih =>
      intro i st st' hmc hmeets h
      rw [transactLoop, Option.bind_eq_some_iff] at h
      obtain ⟨st₁, h1, h2⟩ := h
      have hrest := hmeets.2 st₁ h1
      obtain ⟨ids, ⟨-, rfl⟩ | ⟨w, hr, hw⟩⟩ := transactFact_cases h1
      · rw [ih (by exact hmc) hrest h2]
      · have htype : w.enc.type ≠ .keyUnique := readElement_type (by decide) hr
        obtain ⟨s₁, hcheck, hkeeps⟩ := insertWrite_keeps (by decide) htype (by exact hmc) hw
        rw [ih hkeeps.2 hrest h2]
        by_cases hu : w.a ∈ txn.eUnique
        · obtain ⟨hown, hne⟩ := hmeets.1 ids w hr hu
          have hkept := (othersKept_insertWrite (fun _ => ho i) hu htype (by exact hmc) hw).mpr hown
          exact hkept n e hne
        · rcases checkUnique_cases hcheck with ⟨-, rfl⟩ | ⟨hc, -⟩ | ⟨hc, -⟩
          · exact claimsOf_congr hkeeps.1 n e
          · exact absurd hc hu
          · exact absurd hc hu

private theorem claimsOf_commitStore {m n : Nat} {e tx : Int} {st : TxnState} :
    claimsOf n e (commitStore m tx st) = claimsOf n e st.store := by
  refine claimsOf_congr ?_ n e
  unfold commitStore putMeta
  have hmeta : ∀ id, (metaKey m id).type ≠ .keyUnique := by
    intro id
    show KeyType.keyMeta ≠ .keyUnique
    decide
  rw [ofType_mdbPut (by decide) (hmeta _), ofType_mdbPut (by decide) (hmeta _)]

/--
**Whose unique values a transaction frees**, in any store.  For every element on a unique
attribute that the loop lets pass: the entities other than its own keep their index
entries exactly if the entry it gives up is its entity's own.  So if every element of a
request gives up its own, an entity without an element on a unique attribute keeps all
it has.
-/
theorem transact_releases_own {s : Store} {n : Nat} {st₀ : TxnState}
    (hbegin : transactBegin o s n = some (txn, st₀)) :
    (∀ (pre : List Json) (v : Json) (st st' : TxnState) (ids : Ids) (w : Write),
      transactLoop sha256 o txn 0 st₀ pre = some st →
      readElement sha256 txn.eRef st.ids v = some (ids, some w) → w.a ∈ txn.eUnique →
      (w.retract = false → LookupsSucceed o pre.length) →
      transactFact sha256 o pre.length txn st v = some st' →
      (OthersKept n w.e st.store st'.store ↔ ReleasesOwn txn st.store w)) ∧
    (∀ (fs : List Json) (r : Reply) (s' : Store) (n' : Nat) (e' : Int),
      (∀ i, LookupsSucceed o i) → transact sha256 o s n fs = some (r, s') →
      LoopMeets sha256 o txn (SparesEntity txn n' e') 0 st₀ fs →
      claimsOf n' e' s' = claimsOf n' e' s) := by
  obtain ⟨tx, id, htx, hid, hp⟩ := transactBegin_cases hbegin
  rw [Prod.mk.injEq] at hp
  obtain ⟨rfl, rfl⟩ := hp
  refine ⟨fun pre v st st' ids w hpre hread hu ho h => ?_, fun fs r s' n' e' ho h hmeets => ?_⟩
  · have hmc : st.mc.Off .keyUnique := off_transactLoop (by decide) (off_beginState s id) hpre
    obtain ⟨ids', ⟨hr, -⟩ | ⟨w', hr, hw⟩⟩ := transactFact_cases h
    · exact absurd (hr.symm.trans hread) (by simp)
    · have hww : w' = w := by
        have := hr.symm.trans hread
        simp only [Option.some.injEq, Prod.mk.injEq] at this
        exact this.2
      subst hww
      have hiff := othersKept_insertWrite ho hu (readElement_type (by decide) hr) (by exact hmc) hw
      exact hiff
  · obtain ⟨tx', id', st, htx', hid', hloop, rfl, -⟩ := transact_cases h
    rw [htx, Option.some.injEq] at htx'
    rw [hid, Option.some.injEq] at hid'
    subst htx' hid'
    rw [claimsOf_commitStore]
    exact claimsOf_transactLoop ho (off_beginState s id) hmeets hloop

end Transactions

/-- Attribute 50 is unique, and 60 has the value 7. -/
def uniqueRun : List Input := [assertRequest 50 4 10, assertRequest 60 50 7]

/-- A retraction of 60 frees only what 60 owns. -/
theorem own_retraction_spares :
    ∃ st', transactFact .ofBytes .calm 0
        (beginTxn .calm (Machine.run (step .ofBytes) (dbOpen .calm []) uniqueRun) 0 3)
        (beginState (Machine.run (step .ofBytes) (dbOpen .calm []) uniqueRun) 11)
        (.array [.int64 60, .int64 50, .int64 7, .int64 1]) = some st' ∧
      OthersKept 0 60 (Machine.run (step .ofBytes) (dbOpen .calm []) uniqueRun) st'.store := by
  generalize hs : Machine.run (step .ofBytes) (dbOpen .calm []) uniqueRun = s
  have hstate : getMeta s 0 metaTx = some 3 ∧ getMeta s 0 metaId = some 11 ∧
      50 ∈ uniqueSet .calm s 0 3 ∧
      (transactFact .ofBytes .calm 0 (beginTxn .calm s 0 3) (beginState s 11)
        (.array [.int64 60, .int64 50, .int64 7, .int64 1])).isSome = true ∧
      (mdbGet s (uniqueKey 0 (Write.key (beginTxn .calm s 0 3) ⟨60, 50, encodeInt 7, true⟩
        sortEATV))).all (fun d => d.i64 = 60) = true := by
    rw [← hs]
    decide +kernel
  obtain ⟨htx, hid, hu, hsome, hown⟩ := hstate
  obtain ⟨st', hst'⟩ := Option.isSome_iff_exists.mp hsome
  have hread : readElement .ofBytes (beginTxn .calm s 0 3).eRef (beginState s 11).ids
      (.array [.int64 60, .int64 50, .int64 7, .int64 1]) =
      some ((beginState s 11).ids, some ⟨60, 50, encodeInt 7, true⟩) := by
    simp [readElement, readValue, resolveEntity, resolveValue, dbInitialId, retractFlag]
  refine ⟨st', hst', ?_⟩
  have hiff := (transact_releases_own (transactBegin_faultless Oracle.calm_faultless htx hid)).1
    [] _ _ st' _ _ rfl hread hu (fun h => absurd h (by simp)) hst'
  refine hiff.mpr ⟨fun _ d hd => ?_, fun h => absurd h (by simp)⟩
  rw [beginState] at hd
  rw [show (beginTxn .calm s 0 3).ns = 0 from rfl] at hd
  rw [hd] at hown
  simpa using hown

/-- A retraction of 61 frees the value of 60. -/
theorem foreign_retraction_frees :
    claimsOf 0 60 (Machine.run (step .ofBytes) (dbOpen .calm []) uniqueRun) ≠ [] ∧
    reply .ofBytes (Machine.run (step .ofBytes) (dbOpen .calm []) uniqueRun)
      (retractRequest 61 50 7) = .response 3 [⟨61, 50, .int 7, 3, true⟩] [] ∧
    ¬ OthersKept 0 61 (Machine.run (step .ofBytes) (dbOpen .calm []) uniqueRun)
      (step .ofBytes (Machine.run (step .ofBytes) (dbOpen .calm []) uniqueRun)
        (retractRequest 61 50 7)) := by
  have hstate : claimsOf 0 60 (Machine.run (step .ofBytes) (dbOpen .calm []) uniqueRun) ≠ [] ∧
      reply .ofBytes (Machine.run (step .ofBytes) (dbOpen .calm []) uniqueRun)
        (retractRequest 61 50 7) = .response 3 [⟨61, 50, .int 7, 3, true⟩] [] ∧
      claimsOf 0 60 (step .ofBytes (Machine.run (step .ofBytes) (dbOpen .calm []) uniqueRun)
        (retractRequest 61 50 7)) = [] := by
    decide +kernel
  obtain ⟨hbefore, hrep, hafter⟩ := hstate
  refine ⟨hbefore, hrep, fun h => hbefore ?_⟩
  rw [← h 0 60 (by decide), hafter]

end Nstore

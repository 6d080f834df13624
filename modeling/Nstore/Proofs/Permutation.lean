/-
The order of facts within a transaction.

An element that names its entity and asks for a value as it is, on an attribute that
is not unique, is read the same wherever it stands, and all it does is put its datom.
So a transaction of such elements is a list of puts.  Two elements whose datoms have
one key ask for the same thing, short of a collision, and then the order of the puts
does not matter.
-/
import Nstore.Proofs.Tempids

namespace Nstore

open Machine

/-! ### Elements that do not depend on each other -/

/-- An element with a given entity and value, on an attribute that is not unique. -/
def Json.Independent (eUnique eRef : List Int) : Json → Prop
  | .array [.int64 e, .int64 a, .int64 x, _] =>
      (dbInitialId ≤ e.toInt ∧ e.toInt < 2 ^ 29) ∧ (-2 ^ 29 ≤ a.toInt ∧ a.toInt < 2 ^ 29) ∧
        a.toInt ∉ eUnique ∧ (-2 ^ 29 ≤ x.toInt ∧ x.toInt < 2 ^ 29) ∧
        (x.toInt < 0 → a.toInt ∉ eRef)
  | .array [.int64 e, .int64 a, .string str, _] =>
      (dbInitialId ≤ e.toInt ∧ e.toInt < 2 ^ 29) ∧ (-2 ^ 29 ≤ a.toInt ∧ a.toInt < 2 ^ 29) ∧
        a.toInt ∉ eUnique ∧ (str.length ≤ 32 ∨ str.length % 8 ≠ 0)
  | _ => False

/-- What an element asks for when nothing in it is a tempid. -/
def Json.asIs (sha256 : Bytes → Value) (v : Json) : Option Write := v.mapped sha256 [] id

/-- The entries a write puts, in order. -/
def Write.entries (txn : Txn) (w : Write) : List Entry :=
  (w.key txn sortEATV, w.enc.item) ::
    if w.a < dbInitialId then [(w.key txn sortAETV, w.enc.item)] else []

/-- The entries a request puts, in order. -/
def requestEntries (sha256 : Bytes → Value) (txn : Txn) (fs : List Json) : List Entry :=
  (fs.filterMap (Json.asIs sha256)).flatMap (Write.entries txn)

section Independent

variable {eUnique eRef : List Int} {v : Json}

theorem resolveEntity_explicit {x : Int} (h : dbInitialId ≤ x) (ids : Ids) :
    resolveEntity ids x = some (x, ids) := by
  simp only [dbInitialId] at h
  unfold resolveEntity dbInitialId
  rw [if_neg (by omega), if_neg (by omega)]

/-- What is known of such an element, whichever of the two kinds it is. -/
theorem Json.Independent.read (sha256 : Bytes → Value) (h : v.Independent eUnique eRef) :
    ∃ w, v.asIs sha256 = some w ∧ w.Ok sha256 ∧ w.enc.Plain ∧ w.a ∉ eUnique ∧
      (∀ ids, readElement sha256 eRef ids v = some (ids, some w)) ∧
      ∀ str, w.enc.shown = .str str → str ∈ stringsOf [v] := by
  unfold Json.Independent at h
  split at h
  · rename_i e a x r
    obtain ⟨he, ha, hu, hx, hneg⟩ := h
    have hmap : mapId id e.toInt = e.toInt := by simp [mapId]
    refine ⟨⟨e.toInt, a.toInt, encodeInt x.toInt, retractFlag r⟩, ?_,
      ⟨he, ha, Or.inl ⟨_, hx, rfl⟩⟩, encodeInt_plain _, hu, fun ids => ?_, fun str hs => ?_⟩
    · simp [Json.asIs, Json.mapped, hmap]
    · have hres := resolveEntity_explicit he.1 ids
      have hval : resolveValue eRef ids a.toInt x.toInt = (x.toInt, ids) := by
        unfold resolveValue
        rw [if_neg]
        rintro ⟨h1, h2⟩
        exact hneg h2 h1
      simp [readElement, readValue, hres, hval]
    · exact absurd hs (by simp [encodeInt])
  · rename_i e a str r
    obtain ⟨he, ha, hu, hlen⟩ := h
    have hmap : mapId id e.toInt = e.toInt := by simp [mapId]
    have hstored : (Json.string str).StoredAsIs := by
      rcases hlen with h | h
      · exact Or.inl h
      · exact Or.inr (Or.inl h)
    refine ⟨⟨e.toInt, a.toInt, encodeStr sha256 str, retractFlag r⟩, ?_,
      ⟨he, ha, Or.inr ⟨str, hstored, rfl⟩⟩, encodeStr_plain sha256 hlen, hu, fun ids => ?_,
      fun str' hs => ?_⟩
    · simp [Json.asIs, Json.mapped, hmap]
    · have hres := resolveEntity_explicit he.1 ids
      simp [readElement, readValue, hres]
    · rw [encodeStr_shown, FactValue.str.injEq] at hs
      simp [stringsOf, hs]
  · exact absurd h id

end Independent

/-! ### A transaction as a list of puts -/

section Puts

variable {sha256 : Bytes → Value} {o : Oracle} {txn : Txn} {w : Write} {s : Store}

private theorem putBoth_eq_puts : putBoth s (datomKey txn w.e w.a w.enc w.retract) w.enc.item =
    OrderedMap.puts customKeyCompare s (w.entries txn) := by
  rw [putBoth_eq, Write.entries]
  split <;> rfl

/-- An attribute that is not unique passes the check as it is. -/
theorem checkUnique_of_not_mem {i : Nat} {ck : CustomKey} {retract : Bool}
    (h : ck.a ∉ txn.eUnique) : checkUnique o i txn s ck retract = some s := by
  unfold checkUnique
  rw [if_pos h]

private theorem requestEntries_cons {v : Json} {rest : List Json} (h : v.asIs sha256 = some w) :
    requestEntries sha256 txn (v :: rest) = w.entries txn ++ requestEntries sha256 txn rest := by
  simp [requestEntries, h]

/-- What the loop has put when it ends. -/
theorem transactLoop_puts (htx : txn.Ok) :
    ∀ {vs : List Json} {i : Nat} {st st' : TxnState},
      (∀ v ∈ vs, v.Independent txn.eUnique txn.eRef) → StoreOk st.store →
      transactLoop sha256 o txn i st vs = some st' →
      st'.store = OrderedMap.puts customKeyCompare st.store (requestEntries sha256 txn vs) ∧
        st'.ids = st.ids := by
  intro vs
  induction vs with
  | nil =>
      intro i st st' _ _ h
      rw [transactLoop, Option.some.injEq] at h
      exact h ▸ ⟨rfl, rfl⟩
  | cons v rest ih =>
      intro i st st' hvs hs h
      rw [transactLoop, Option.bind_eq_some_iff] at h
      obtain ⟨st₁, h1, h2⟩ := h
      obtain ⟨w, hasIs, hw, -, hu, hread, -⟩ := (hvs v (by simp)).read sha256
      rw [transactFact_eq, hread] at h1
      have hins : insertWrite o i txn st w = some st₁ := h1
      obtain ⟨s₁, hcheck, hstore, hids, -⟩ := insertWrite_cases htx hw hs hins
      rw [checkUnique_of_not_mem (by exact hu), Option.some.injEq] at hcheck
      subst hcheck
      have hok : StoreOk st₁.store := hstore ▸ putBoth_ok htx hw hs
      obtain ⟨hrest, hids'⟩ := ih (fun v hv => hvs v (by simp [hv])) hok h2
      refine ⟨?_, hids'.trans hids⟩
      rw [hrest, hstore, putBoth_eq_puts, requestEntries_cons hasIs]
      simp [OrderedMap.puts]

/-- Where no call fails the loop ends. -/
theorem transactLoop_ends (ho : o.Faultless) :
    ∀ {vs : List Json} (i : Nat) (st : TxnState),
      (∀ v ∈ vs, v.Independent txn.eUnique txn.eRef) →
      ∃ st', transactLoop sha256 o txn i st vs = some st' := by
  intro vs
  induction vs with
  | nil => exact fun i st _ => ⟨st, rfl⟩
  | cons v rest ih =>
      intro i st hvs
      obtain ⟨w, -, -, hplain, hu, hread, -⟩ := (hvs v (by simp)).read sha256
      obtain ⟨mc, hins⟩ := (insertWrite_plain ho hplain i txn st).2 st.store
        (checkUnique_of_not_mem (by exact hu))
      obtain ⟨st', hrest⟩ := ih (i + 1) _ fun v hv => hvs v (by simp [hv])
      refine ⟨st', ?_⟩
      rw [transactLoop, transactFact_eq, hread]
      show (insertWrite o i txn st w).bind _ = _
      rw [hins]
      exact hrest

/-! ### Entries with one key -/

/-- Writes of one transaction whose datoms have one key are the same, short of a collision. -/
theorem Write.eq_of_tv {strs : List Bytes} (hnc : NoCollision sha256 strs) (htx : txn.Ok)
    {w' : Write} (hw : w.Ok sha256) (hw' : w'.Ok sha256)
    (hstr : ∀ str, w.enc.shown = .str str → str ∈ strs)
    (hstr' : ∀ str, w'.enc.shown = .str str → str ∈ strs) (he : w.e = w'.e) (ha : w.a = w'.a)
    (htv : (w.key txn sortEATV).tv = (w'.key txn sortEATV).tv) : w = w' := by
  obtain ⟨ht, hval⟩ := List.cons.inj htv
  have henc := hw.enc.eq_encodeFact
  have henc' := hw'.enc.eq_encodeFact
  have hshown : w.enc.shown = w'.enc.shown :=
    encodeFact_inj hnc (henc ▸ hw.enc) (henc' ▸ hw'.enc) hstr hstr'
      (by rw [← henc]; rfl) (by rw [← henc']; rfl) (by rw [← henc]; rfl) (by rw [← henc']; rfl)
      (by rw [← henc]; rfl) (by rw [← henc']; rfl) hval
  have henc_eq : w.enc = w'.enc := by rw [henc, henc', hshown]
  have hret : w.retract = w'.retract := by
    rw [Write.key_t htx, Write.key_t htx] at ht
    cases hr : w.retract <;> cases hr' : w'.retract <;> simp [hr, hr'] at ht ⊢
  obtain ⟨e, a, enc, r⟩ := w
  obtain ⟨e', a', enc', r'⟩ := w'
  simp only at he ha henc_eq hret
  rw [he, ha, henc_eq, hret]

private theorem mem_entries {x : Entry} (h : x ∈ w.entries txn) :
    ∃ sort, (sort = sortEATV ∨ sort = sortAETV) ∧ x = (w.key txn sort, w.enc.item) := by
  unfold Write.entries at h
  rcases List.mem_cons.mp h with rfl | h
  · exact ⟨sortEATV, Or.inl rfl, rfl⟩
  · split at h
    · exact ⟨sortAETV, Or.inr rfl, List.mem_singleton.mp h⟩
    · exact absurd h List.not_mem_nil

/-- An entry of a request is one of a write in range, whose string, if it has one, is there. -/
theorem requestEntries_cases {fs : List Json}
    (hfs : ∀ v ∈ fs, v.Independent txn.eUnique txn.eRef) {x : Entry}
    (hx : x ∈ requestEntries sha256 txn fs) :
    ∃ (w : Write) (sort : Nat), w.Ok sha256 ∧
      (∀ str, w.enc.shown = .str str → str ∈ stringsOf fs) ∧
      (sort = sortEATV ∨ sort = sortAETV) ∧ x = (w.key txn sort, w.enc.item) := by
  obtain ⟨w, hw, hx⟩ := List.mem_flatMap.mp hx
  obtain ⟨v, hv, hvw⟩ := List.mem_filterMap.mp hw
  obtain ⟨w', hasIs, hw, -, -, -, hstr⟩ := (hfs v hv).read sha256
  rw [hvw, Option.some.injEq] at hasIs
  subst hasIs
  obtain ⟨sort, hsort, rfl⟩ := mem_entries hx
  refine ⟨w, sort, hw, fun str hs => ?_, hsort, rfl⟩
  exact (List.Sublist.filterMap _ (List.singleton_sublist.mpr hv)).subset (hstr str hs)

private theorem requestEntries_inRange {fs : List Json} (htx : txn.Ok)
    (hfs : ∀ v ∈ fs, v.Independent txn.eUnique txn.eRef) :
    ∀ x ∈ requestEntries sha256 txn fs, InRange x.1 := by
  intro x hx
  obtain ⟨w, sort, hw, -, hsort, rfl⟩ := requestEntries_cases hfs hx
  exact Write.key_inRange htx hw hsort

/-- No two entries of a request have one key and different data. -/
theorem requestEntries_one {fs : List Json} (htx : txn.Ok)
    (hnc : NoCollision sha256 (stringsOf fs))
    (hfs : ∀ v ∈ fs, v.Independent txn.eUnique txn.eRef) :
    ∀ x ∈ requestEntries sha256 txn fs, ∀ y ∈ requestEntries sha256 txn fs,
      x.1.coords = y.1.coords → x = y := by
  intro x hx y hy hc
  obtain ⟨w, sort, hw, hstr, hsort, rfl⟩ := requestEntries_cases hfs hx
  obtain ⟨w', sort', hw', hstr', hsort', rfl⟩ := requestEntries_cases hfs hy
  obtain ⟨-, hs, he, ha, htv⟩ := (coords_eq_datom (Write.key_isDatom hw hsort)
    (Write.key_isDatom hw' hsort')).mp hc
  have hs : sort = sort' := hs
  have hww : w = w' := Write.eq_of_tv hnc htx hw hw' hstr hstr' he ha htv
  rw [hs, hww]

end Puts

/-! ### Requests -/

section Requests

variable {sha256 : Bytes → Value} {o₁ o₂ : Oracle} {s : Store} {n : Nat} {tx : Int}
  {fs gs : List Json}

/-- The stores two orders of a request commit. -/
theorem commitStore_perm {id : Int} {st₁ st₂ : TxnState} (hs : StoreOk s)
    (htxn : (beginTxn o₁ s n tx).Ok) (hperm : fs.Perm gs)
    (hnc : NoCollision sha256 (stringsOf fs))
    (hfs : ∀ v ∈ fs, v.Independent (uniqueSet o₁ s n tx) (refSet o₁ s n tx))
    (hgs : ∀ v ∈ gs, v.Independent (uniqueSet o₂ s n tx) (refSet o₂ s n tx))
    (h₁ : transactLoop sha256 o₁ (beginTxn o₁ s n tx) 0 (beginState s id) fs = some st₁)
    (h₂ : transactLoop sha256 o₂ (beginTxn o₂ s n tx) 0 (beginState s id) gs = some st₂) :
    commitStore n tx st₁ = commitStore n tx st₂ := by
  have htxn' : (beginTxn o₂ s n tx).Ok := ⟨htxn.ns_lt, htxn.tx_range⟩
  obtain ⟨hst₁, hids₁⟩ := transactLoop_puts htxn hfs (by exact hs) h₁
  obtain ⟨hst₂, hids₂⟩ := transactLoop_puts htxn' hgs (by exact hs) h₂
  -- the keys of a write do not depend on what the schema queries have found
  have hentries : (requestEntries sha256 (beginTxn o₁ s n tx) fs).Perm
      (requestEntries sha256 (beginTxn o₂ s n tx) gs) := (hperm.filterMap _).flatMap_right _
  have hstore : st₁.store = st₂.store := by
    rw [hst₁, hst₂]
    exact OrderedMap.puts_perm agrees_inRange hentries (requestEntries_inRange htxn hfs)
      (requestEntries_one htxn hnc hfs) (by exact hs)
  unfold commitStore
  rw [hstore, hids₁, hids₂]

/-- One store, and so one reply to whatever is asked later. -/
structure SameAfter (sha256 : Bytes → Value) (s₁ s₂ : Store) : Prop where
  store : s₁ = s₂
  facts : ∀ (js : List Input) (o : Oracle) (m : Nat) (arg : Option Json),
    handleFacts o (run (step sha256) s₁ js) m arg = handleFacts o (run (step sha256) s₂ js) m arg

theorem SameAfter.of_eq {s₁ s₂ : Store} (h : s₁ = s₂) : SameAfter sha256 s₁ s₂ :=
  ⟨h, fun _ _ _ _ => by rw [h]⟩

/-- What the elements of a request are as its transaction sees them. -/
def RequestIndependent (o : Oracle) (s : Store) (n : Nat) (fs : List Json) : Prop :=
  ∀ tx, getMeta s n metaTx = some tx →
    tx < 2 ^ 29 ∧ ∀ v ∈ fs, v.Independent (uniqueSet o s n tx) (refSet o s n tx)

/-- Where no call fails a request of such elements commits. -/
theorem transact_independent_commits {o : Oracle} (ho : o.Faultless)
    (hfs : RequestIndependent o s n fs) {id : Int} (htx : getMeta s n metaTx = some tx)
    (hid : getMeta s n metaId = some id) (hne : fs ≠ []) :
    isCommit sha256 n s (o, .transact n (some (.array fs))) = true := by
  obtain ⟨st, hloop⟩ : ∃ st, transactLoop sha256 o (beginTxn o s n tx) 0 (beginState s id) fs =
      some st := transactLoop_ends ho 0 (beginState s id) (hfs tx htx).2
  have htr : transact sha256 o s n fs = _ := transact_faultless ho htx hid fs
  rw [hloop] at htr
  have hlen : ¬ fs.length = 0 := fun hc => hne (List.length_eq_zero_iff.mp hc)
  simp [isCommit, reply, serve, handleTransact, htr, hlen]

/-- What a request that commits has done. -/
theorem commit_cases {o : Oracle}
    (h : isCommit sha256 n s (o, .transact n (some (.array fs))) = true) :
    fs ≠ [] ∧ ∃ tx id st, getMeta s n metaTx = some tx ∧ getMeta s n metaId = some id ∧
      transactLoop sha256 o (beginTxn o s n tx) 0 (beginState s id) fs = some st ∧
      step sha256 s (o, .transact n (some (.array fs))) = commitStore n tx st := by
  rcases handleTransact_cases sha256 o s n (some (.array fs)) with
    hrep | ⟨gs, p, heq, hne, htr, hp⟩
  · exact absurd h (by simp [isCommit, reply, serve, hrep])
  · simp only [Option.some.injEq, Json.array.injEq] at heq
    subst heq
    obtain ⟨tx, id, st, htx, hid, hloop, hs, -⟩ := transact_cases htr
    exact ⟨hne, tx, id, st, htx, hid, hloop, (congrArg Prod.snd hp).trans hs⟩

/-- A request that does not commit leaves the store as it was. -/
theorem step_of_not_commit {o : Oracle}
    (h : isCommit sha256 n s (o, .transact n (some (.array fs))) = false) :
    step sha256 s (o, .transact n (some (.array fs))) = s := by
  rcases step_transact_cases sha256 o s n (some (.array fs)) with
    ⟨hs, -⟩ | ⟨gs, tx, facts, newIds, -, -, hrep⟩
  · exact hs
  · exact absurd h (by simp [isCommit, hrep])

/-- **Two orders of a request that both commit.** -/
theorem step_perm (hr : Sound s) (hn : n < 2 ^ 31) (hperm : fs.Perm gs)
    (hnc : NoCollision sha256 (stringsOf fs)) (hfs : RequestIndependent o₁ s n fs)
    (hgs : RequestIndependent o₂ s n gs)
    (h₁ : isCommit sha256 n s (o₁, .transact n (some (.array fs))) = true)
    (h₂ : isCommit sha256 n s (o₂, .transact n (some (.array gs))) = true) :
    step sha256 s (o₁, .transact n (some (.array fs))) =
      step sha256 s (o₂, .transact n (some (.array gs))) := by
  obtain ⟨-, tx, id, st₁, htx, hid, hloop₁, hs₁⟩ := commit_cases h₁
  obtain ⟨-, tx', id', st₂, htx', hid', hloop₂, hs₂⟩ := commit_cases h₂
  rw [htx, Option.some.injEq] at htx'
  rw [hid, Option.some.injEq] at hid'
  subst htx' hid'
  rw [hs₁, hs₂]
  exact commitStore_perm hr.ok (transact_txn_ok hr hn htx (hfs tx htx).1) hperm hnc (hfs tx htx).2
    (hgs tx htx).2 hloop₁ hloop₂

/--
**The order of independent facts does not matter.**  In every state reached by requests in
range, for every two orders of a request whose elements name their entities, ask for
values as they are, and are on attributes that are not unique: if both commit, they leave
the same store, and every later facts request is answered the same.  They do both
commit, in a namespace with its counters, where no call fails.
-/
theorem run_order_irrelevant {o₀ : Oracle} {is : List Input}
    (his : Along (step sha256) (InputBounded sha256) (dbOpen o₀ []) is) (hn : n < 2 ^ 31)
    (hperm : fs.Perm gs) (hnc : NoCollision sha256 (stringsOf fs))
    (hfs : RequestIndependent o₁ (run (step sha256) (dbOpen o₀ []) is) n fs)
    (hgs : RequestIndependent o₂ (run (step sha256) (dbOpen o₀ []) is) n gs) :
    (isCommit sha256 n (run (step sha256) (dbOpen o₀ []) is)
        (o₁, .transact n (some (.array fs))) = true →
      isCommit sha256 n (run (step sha256) (dbOpen o₀ []) is)
        (o₂, .transact n (some (.array gs))) = true →
      SameAfter sha256
        (step sha256 (run (step sha256) (dbOpen o₀ []) is) (o₁, .transact n (some (.array fs))))
        (step sha256 (run (step sha256) (dbOpen o₀ []) is) (o₂, .transact n (some (.array gs))))) ∧
    (o₁.Faultless → o₂.Faultless →
      SameAfter sha256
        (step sha256 (run (step sha256) (dbOpen o₀ []) is) (o₁, .transact n (some (.array fs))))
        (step sha256 (run (step sha256) (dbOpen o₀ []) is) (o₂, .transact n (some (.array gs)))) ∧
      (fs ≠ [] → ∀ tx id, getMeta (run (step sha256) (dbOpen o₀ []) is) n metaTx = some tx →
        getMeta (run (step sha256) (dbOpen o₀ []) is) n metaId = some id →
        isCommit sha256 n (run (step sha256) (dbOpen o₀ []) is)
            (o₁, .transact n (some (.array fs))) = true ∧
          isCommit sha256 n (run (step sha256) (dbOpen o₀ []) is)
            (o₂, .transact n (some (.array gs))) = true)) := by
  have hr : Sound (run (step sha256) (dbOpen o₀ []) is) := sound_run (sound_dbOpen o₀) his
  generalize run (step sha256) (dbOpen o₀ []) is = s at *
  have hboth : o₁.Faultless → o₂.Faultless → fs ≠ [] → ∀ tx id, getMeta s n metaTx = some tx →
      getMeta s n metaId = some id →
      isCommit sha256 n s (o₁, .transact n (some (.array fs))) = true ∧
        isCommit sha256 n s (o₂, .transact n (some (.array gs))) = true := by
    intro ho₁ ho₂ hne tx id htx hid
    refine ⟨transact_independent_commits ho₁ hfs htx hid hne,
      transact_independent_commits ho₂ hgs htx hid fun hc => hne ?_⟩
    rw [hc] at hperm
    exact hperm.eq_nil
  refine ⟨fun h₁ h₂ => .of_eq (step_perm hr hn hperm hnc hfs hgs h₁ h₂), fun ho₁ ho₂ => ⟨?_,
    hboth ho₁ ho₂⟩⟩
  refine .of_eq ?_
  -- one commits exactly if the other does
  have hiff : isCommit sha256 n s (o₁, .transact n (some (.array fs))) = true ↔
      isCommit sha256 n s (o₂, .transact n (some (.array gs))) = true := by
    constructor
    · intro h
      obtain ⟨hne, tx, id, -, htx, hid, -⟩ := commit_cases h
      exact (hboth ho₁ ho₂ hne tx id htx hid).2
    · intro h
      obtain ⟨hne, tx, id, -, htx, hid, -⟩ := commit_cases h
      refine (hboth ho₁ ho₂ (fun hc => hne ?_) tx id htx hid).1
      rw [hc] at hperm
      exact hperm.symm.eq_nil
  by_cases h : isCommit sha256 n s (o₁, .transact n (some (.array fs))) = true
  · exact step_perm hr hn hperm hnc hfs hgs h (hiff.mp h)
  · rw [step_of_not_commit (by simpa using h), step_of_not_commit (by simpa using hiff.not.mp h)]

end Requests

/-- An assertion and a retraction of one fact, and a string. -/
def mixedFacts : List Json :=
  [.array [.int64 60, .int64 50, .int64 7, .int64 0],
   .array [.int64 60, .int64 50, .int64 7, .int64 1],
   .array [.int64 61, .int64 50, .string (ascii "a"), .int64 0]]

theorem mixedFacts_reordered :
    SameAfter .ofBytes
        (step .ofBytes (dbOpen .calm []) (.calm, .transact 0 (some (.array mixedFacts))))
        (step .ofBytes (dbOpen .calm []) (.calm, .transact 0 (some (.array mixedFacts.reverse)))) ∧
      isCommit .ofBytes 0 (dbOpen .calm []) (.calm, .transact 0 (some (.array mixedFacts))) =
        true := by
  have hstate : getMeta (dbOpen .calm []) 0 metaTx = some 1 ∧
      getMeta (dbOpen .calm []) 0 metaId = some 11 ∧
      50 ∉ uniqueSet .calm (dbOpen .calm []) 0 1 := by
    decide +kernel
  obtain ⟨htx, hid, hu⟩ := hstate
  have hfs : RequestIndependent .calm (dbOpen .calm []) 0 mixedFacts := by
    intro tx h
    rw [htx, Option.some.injEq] at h
    subst h
    refine ⟨by norm_num, fun v hv => ?_⟩
    simp only [mixedFacts, List.mem_cons, List.not_mem_nil, or_false] at hv
    rcases hv with rfl | rfl | rfl
    · exact ⟨by decide, by decide, hu, by decide, fun h => absurd h (by decide)⟩
    · exact ⟨by decide, by decide, hu, by decide, fun h => absurd h (by decide)⟩
    · exact ⟨by decide, by decide, hu, Or.inl (by decide)⟩
  have hgs : RequestIndependent .calm (dbOpen .calm []) 0 mixedFacts.reverse := fun tx h =>
    ⟨(hfs tx h).1, fun v hv => (hfs tx h).2 v (List.mem_reverse.mp hv)⟩
  have hnc : NoCollision .ofBytes (stringsOf mixedFacts) := by
    intro s hs s' hs' _
    have hone : stringsOf mixedFacts = [ascii "a"] := rfl
    rw [hone, List.mem_singleton] at hs hs'
    rw [hs, hs']
  have his : Along (step .ofBytes) (InputBounded .ofBytes) (dbOpen .calm []) [] := trivial
  have hsame := (run_order_irrelevant his (by norm_num) (List.reverse_perm mixedFacts).symm hnc hfs
    hgs).2 Oracle.calm_faultless Oracle.calm_faultless
  exact ⟨hsame.1, (hsame.2 (by simp [mixedFacts]) 1 11 htx hid).1⟩

end Nstore

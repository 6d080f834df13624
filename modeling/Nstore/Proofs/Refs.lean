/-
Which values are taken for references.

`handle_transact` collects, for every entity with a `db_type`, whether that type is
`db_type_ref`, and then only asks whether the attribute is among those entities.  So
a negative value is taken for a tempid if its attribute has any type at all, and is
kept as it is only if the attribute has none.
-/
import Nstore.Proofs.Tempids

namespace Nstore

open FirstSeen Machine

/-! ### The fact of one element -/

theorem transactLoop_append {sha256 : Bytes → Value} {o : Oracle} {txn : Txn} :
    ∀ (vs ws : List Json) (k : Nat) (st : TxnState), transactLoop sha256 o txn k st (vs ++ ws) =
      (transactLoop sha256 o txn k st vs).bind fun st₁ =>
        transactLoop sha256 o txn (k + vs.length) st₁ ws := by
  intro vs
  induction vs with
  | nil => intro ws k st; rfl
  | cons v rest ih =>
      intro ws k st
      rw [List.cons_append, transactLoop, transactLoop, Option.bind_assoc]
      refine Option.bind_congr fun st₁ _ => ?_
      rw [ih, List.length_cons, Nat.add_right_comm, Nat.add_assoc]

/-- An element of a request that is not refused for its shape. -/
def Json.WellFormed (v : Json) : Prop :=
  ∃ (e a : Int64) (jv jr : Json), v = .array [.int64 e, .int64 a, jv, jr]

theorem readElement_wellFormed {sha256 : Bytes → Value} {eRef : List Int} {ids : Ids} {v : Json}
    {p : Ids × Option Write} (h : readElement sha256 eRef ids v = some p) : v.WellFormed := by
  unfold readElement at h
  split at h
  · exact ⟨_, _, _, _, rfl⟩
  · exact absurd h (by simp)

private theorem transactLoop_wellFormed {sha256 : Bytes → Value} {o : Oracle} {txn : Txn} :
    ∀ {vs : List Json} {k : Nat} {st st' : TxnState}, transactLoop sha256 o txn k st vs = some st' →
      ∀ v ∈ vs, v.WellFormed := by
  intro vs
  induction vs with
  | nil => intro k st st' _ v hv; exact absurd hv List.not_mem_nil
  | cons v rest ih =>
      intro k st st' h x hx
      rw [transactLoop, Option.bind_eq_some_iff] at h
      obtain ⟨st₁, h1, h2⟩ := h
      rcases List.mem_cons.mp hx with rfl | hx
      · obtain ⟨ids, ⟨hr, -⟩ | ⟨w, hr, -⟩⟩ := transactFact_cases h1
        · exact readElement_wellFormed hr
        · exact readElement_wellFormed hr
      · exact ih h2 x hx

private theorem isSome_mapped (sha256 : Bytes → Value) (eRef : List Int) (f : Int → Int) {v : Json}
    (h : v.WellFormed) : (v.mapped sha256 eRef f).isSome = v.hasValue := by
  obtain ⟨e, a, jv, jr, rfl⟩ := h
  cases jv with
  | _ => rfl

/-- The elements that ask for something are those with a value. -/
theorem length_mapped (sha256 : Bytes → Value) (eRef : List Int) (f : Int → Int) {vs : List Json}
    (h : ∀ v ∈ vs, v.WellFormed) :
    (vs.filterMap (Json.mapped sha256 eRef f)).length = (vs.filter Json.hasValue).length := by
  rw [List.length_filterMap_eq_countP, ← List.countP_eq_length_filter]
  refine List.countP_congr fun v hv => ?_
  rw [isSome_mapped sha256 eRef f (h v hv)]

section Stored

variable {sha256 : Bytes → Value} {txn : Txn} {s s' : Store}

/-- An integer put earlier in the transaction is there after an insertion, whatever is inserted. -/
theorem Inserted.stored_int {w : Write} {f : Fact} {x : Int} (htx : txn.Ok) (hw : w.Ok sha256)
    (h : Inserted txn w s s') (hf : factEntry sha256 txn.ns f ∈ s) (hx : f.v = .int x)
    (hok : (encodeFact sha256 f.v).Ok sha256) (hftx : f.tx = txn.tx) :
    factEntry sha256 txn.ns f ∈ s' := by
  have henc := hw.enc.eq_encodeFact
  have hint : ∀ {strs : List Bytes} (str : Bytes), f.v = .str str → str ∈ strs := by
    intro strs str hc
    rw [hx] at hc
    exact absurd hc (by simp)
  cases hshown : w.enc.shown with
  | int y =>
      have hnc : NoCollision sha256 [] := fun str hs => absurd hs List.not_mem_nil
      exact h.stored hnc htx hw henc (fun str hc => absurd (hshown.symm.trans hc) (by simp)) hf hok
        hftx hint
  | str str =>
      have hnc : NoCollision sha256 [str] := by
        intro s₁ h₁ s₂ h₂ _
        rw [List.mem_singleton.mp h₁, List.mem_singleton.mp h₂]
      refine h.stored hnc htx hw henc (fun str' hc => ?_) hf hok hftx hint
      have : FactValue.str str = .str str' := hshown.symm.trans hc
      simp only [FactValue.str.injEq] at this
      simp [this]

/-- **An integer that the loop reads is in the store it ends with.** -/
theorem transactLoop_stored_int {o : Oracle} {k : Nat} {i : Int} {pre post : List Json}
    {e a x : Int64} {jr : Json} {seen : List Int} {st st' : TxnState} (htx : txn.Ok)
    (hvs : ∀ v ∈ pre ++ Json.array [.int64 e, .int64 a, .int64 x, jr] :: post, v.FactInRange)
    (hids : st.ids.Ok) (hseen : st.ids = Ids.of i seen) (hs : StoreOk st.store)
    (h : transactLoop sha256 o txn k st (pre ++ .array [.int64 e, .int64 a, .int64 x, jr] :: post) =
      some st') (hbound : st'.ids.id ≤ 2 ^ 29) :
    StoreOk st'.store ∧
      ∀ w ∈ Json.mapped sha256 txn.eRef (number i (seeAll seen ((pre ++
          .array [.int64 e, .int64 a, .int64 x, jr] :: post).flatMap (Json.tempids txn.eRef))))
          (.array [.int64 e, .int64 a, .int64 x, jr]),
        factEntry sha256 txn.ns (w.fact txn.tx) ∈ st'.store := by
  have hok := transactLoop_invariant htx StoreOk (fun _ h => h) (fun _ _ _ _ _ hins => hins.ok) hvs
    hids hs h hbound
  refine ⟨hok, fun w hw => ?_⟩
  rw [transactLoop_append, Option.bind_eq_some_iff] at h
  obtain ⟨st₁, h1, h2⟩ := h
  rw [transactLoop, Option.bind_eq_some_iff] at h2
  obtain ⟨st₂, h2, h3⟩ := h2
  have hids₁ := (transactLoop_ids hids h1).1
  have hids₂ := (transactFact_ids hids₁ h2).1
  have hbound₂ : st₂.ids.id ≤ 2 ^ 29 := le_trans (transactLoop_ids hids₂ h3).2 hbound
  have hbound₁ : st₁.ids.id ≤ 2 ^ 29 := le_trans (transactFact_ids hids₁ h2).2 hbound₂
  have hok₁ : StoreOk st₁.store := transactLoop_invariant htx StoreOk (fun _ h => h)
    (fun _ _ _ _ _ hins => hins.ok) (fun v hv => hvs v (by simp [hv])) hids hs h1 hbound₁
  obtain ⟨hseen₁, -⟩ := transactLoop_tempids hseen h1
  obtain ⟨ids, ⟨hr, -⟩ | ⟨u, hr, hu⟩⟩ := transactFact_cases h2
  · -- an element with an integer is not skipped
    rw [hseen₁] at hr
    have := (readElement_of hr).2 _ (List.prefix_refl _)
    exact absurd this (by simp [Json.mapped])
  · have hst₂ : st₂.ids = ids := insertWrite_ids hu
    have huok := (readElement_spec hids₁ hr).2.2 (hvs _ (by simp)) (hst₂ ▸ hbound₂) u rfl
    rw [hseen₁] at hr
    have huw : u = w := by
      rw [List.flatMap_append, seeAll_append, List.flatMap_cons, seeAll_append] at hw
      exact Option.some.inj (((readElement_of hr).2 _ seeAll_extends).trans (Option.mem_def.mp hw))
    subst huw
    obtain ⟨y, hy⟩ : ∃ y, u.enc = encodeInt y := by
      simp only [Json.mapped, Option.mem_def, Option.some.injEq] at hw
      exact ⟨_, by rw [← hw]⟩
    have hok₁' : StoreOk ({ st₁ with ids := ids } : TxnState).store := hok₁
    have hins := insertWrite_inserted htx huok hok₁' hu
    have henc := huok.enc.eq_encodeFact
    have hentry : factEntry sha256 txn.ns (u.fact txn.tx) ∈ st₂.store := by
      rw [← Write.entry_eq htx henc]
      exact (hins.datoms _ (Write.key_isDatom huok (Or.inl rfl))).mpr (Or.inl (Or.inl rfl))
    have hshown : (u.fact txn.tx).v = .int y := by
      show u.enc.shown = _
      rw [hy]
      rfl
    refine (transactLoop_invariant htx
      (fun s => StoreOk s ∧ factEntry sha256 txn.ns (u.fact txn.tx) ∈ s) (fun _ h => h.1)
      (fun s s' v hinv hv hins => ⟨hins.ok, ?_⟩) (fun v hv => hvs v (by simp [hv])) hids₂
      ⟨hins.ok, hentry⟩ h3 hbound).2
    exact hins.stored_int htx hv hinv.2 hshown (henc ▸ huok.enc) rfl

end Stored

/-! ### What becomes of a value -/

/-- The current facts show an attribute to be a reference. -/
def CurrentRef (s : Store) (n : Nat) (tx a : Int) : Prop :=
  ∃ x, Answered s n tx x ∧ x.1.e = a ∧ x.1.a = dbType ∧ decode x = .int dbTypeRef

/--
A committed request has kept the integer of one of its elements: it is reported and stored
as it is, and ids are handed out as if there were no tempid in its place.
-/
structure ValueKept (sha256 : Bytes → Value) (o : Oracle) (s s' : Store) (n : Nat)
    (pre post : List Json) (e a x : Int64) (jr : Json) (tx : Int) (facts : List Fact)
    (newIds : List (Int × Int)) : Prop where
  reported : ∃ e', facts[(pre.filter Json.hasValue).length]? =
      some ⟨e', a.toInt, .int x.toInt, tx, retractFlag jr⟩ ∧
    factEntry sha256 n ⟨e', a.toInt, .int x.toInt, tx, retractFlag jr⟩ ∈ s'
  unallocated : newIds.map (·.1) = tempidsOf (refSet o s n tx)
    (pre ++ Json.array [.int64 e, .int64 a, .int64 0, jr] :: post)

section Kept

variable {sha256 : Bytes → Value} {o : Oracle} {s s' : Store} {n : Nat} {pre post : List Json}
  {e a x : Int64} {jr : Json} {tx : Int} {facts : List Fact} {newIds : List (Int × Int)}

/-- The fact that answers an element comes after those of the elements before it. -/
theorem TempidsMapped.getElem {i : Int} {f : Int → Int} {w : Write} {v : Json}
    (h : TempidsMapped sha256 o s s' n i tx (pre ++ v :: post) facts newIds f)
    (hpre : ∀ u ∈ pre, u.WellFormed) (hw : v.mapped sha256 (refSet o s n tx) f = some w) :
    facts[(pre.filter Json.hasValue).length]? = some (w.fact tx) := by
  rw [h.facts_eq, List.filterMap_append, List.filterMap_cons_some hw, List.map_append,
    ← length_mapped sha256 (refSet o s n tx) f hpre]
  simp

/-- A value that is no tempid of a typed attribute asks for no id. -/
theorem tempids_of_kept {eRef : List Int} (h : 0 ≤ x.toInt ∨ a.toInt ∉ eRef) :
    (Json.array [.int64 e, .int64 a, .int64 x, jr]).tempids eRef =
      (Json.array [.int64 e, .int64 a, .int64 0, jr]).tempids eRef := by
  rcases h with h | h
  · simp [Json.tempids, not_lt.mpr h]
  · simp [Json.tempids, h]

theorem mapped_kept {eRef : List Int} (h : 0 ≤ x.toInt ∨ a.toInt ∉ eRef) {f : Int → Int} :
    (Json.array [.int64 e, .int64 a, .int64 x, jr]).mapped sha256 eRef f =
      some ⟨mapId f e.toInt, a.toInt, encodeInt x.toInt, retractFlag jr⟩ := by
  rcases h with h | h
  · simp [Json.mapped, mapId, not_lt.mpr h]
  · simp [Json.mapped, h]

/-- **A value is kept exactly if it is not negative or its attribute has no type.** -/
theorem valueKept_iff (hr : Sound s) (hn : n < 2 ^ 31)
    (hfs : ∀ v ∈ pre ++ Json.array [.int64 e, .int64 a, .int64 x, jr] :: post, v.FactInRange)
    (htr : transact sha256 o s n (pre ++ .array [.int64 e, .int64 a, .int64 x, jr] :: post) =
      some (.response tx facts newIds, s'))
    (hbound : ∀ id, getMeta s' n metaId = some id → id ≤ 2 ^ 29)
    (htx : ∀ t, getMeta s' n metaTx = some t → t ≤ 2 ^ 29) :
    ValueKept sha256 o s s' n pre post e a x jr tx facts newIds ↔
      0 ≤ x.toInt ∨ a.toInt ∉ refSet o s n tx := by
  obtain ⟨tx', id, st, hgtx, hid, hloop, hs', hrep⟩ := transact_cases htr
  have hmap := transact_tempids hid htr
  simp only [Reply.response.injEq] at hrep
  obtain ⟨rfl, -, -⟩ := hrep
  obtain ⟨hct, hci⟩ := getMeta_commitStore n tx st (lt_trans hn (by norm_num))
  rw [hs'] at hbound htx
  have hget : ∀ {w : Write}, _ → facts[(pre.filter Json.hasValue).length]? = some (w.fact tx) :=
    hmap.getElem fun v hv => transactLoop_wellFormed hloop v (by simp [hv])
  have hmem : ∀ y ∈ (Json.array [.int64 e, .int64 a, .int64 x, jr]).tempids (refSet o s n tx),
      y ∈ tempidsOf (refSet o s n tx)
        (pre ++ .array [.int64 e, .int64 a, .int64 x, jr] :: post) := by
    intro y hy
    refine mem_seeAll.mpr (Or.inr ?_)
    simp [hy]
  constructor
  · intro hkept
    by_contra hc
    push Not at hc
    obtain ⟨hneg, href⟩ := hc
    obtain ⟨e', hfact, -⟩ := hkept.reported
    rw [hget rfl] at hfact
    -- the fact shows an id from the counter on
    have hval := congrArg Fact.v (Option.some.inj hfact)
    simp only [Write.fact, encodeInt, if_pos href, mapId, if_pos hneg, FactValue.int.injEq] at hval
    have hfrom := number_range (i := id) (hmem x.toInt (by simp [Json.tempids, href, hneg]))
    have := hr.id_pos n id hn hid
    simp only [dbInitialId] at this
    omega
  · intro hcond
    have htxn : (beginTxn o s n tx).Ok :=
      transact_txn_ok hr hn hgtx (by have := htx _ hct; omega)
    obtain ⟨hok, hstored⟩ := transactLoop_stored_int htxn hfs (beginState_ids_ok hr hn hid)
      (beginState_ids s id) hr.ok hloop (hbound _ hci)
    refine ⟨⟨_, hget (mapped_kept hcond), ?_⟩, ?_⟩
    · rw [hs', mem_commitStore hok hn]
      · exact hstored _ (mapped_kept hcond)
      · show KeyType.keyInteger ≠ .keyMeta
        decide
    · rw [hmap.reported, List.map_map]
      simp only [tempidsOf, List.flatMap_append, List.flatMap_cons, tempids_of_kept hcond]
      exact List.map_id _

/--
**Which values are rewritten.**  In every state reached by requests in range, and for every
element with an integer of a request in range that commits: unless the attribute is
currently a reference, the integer should be kept, and it is exactly if the attribute is
one, or the integer is not negative, or `query_a` finds no type of the attribute.
-/
theorem run_only_refs_rewritten {o : Oracle} {is : List Input}
    (his : Along (step sha256) (InputBounded sha256) (dbOpen o []) is) {i : Input}
    (hi : InputBounded sha256 (run (step sha256) (dbOpen o []) is) i)
    (hreq : i.2 = .transact n
      (some (.array (pre ++ .array [.int64 e, .int64 a, .int64 x, jr] :: post))))
    (hrep : reply sha256 (run (step sha256) (dbOpen o []) is) i = .response tx facts newIds) :
    (¬ CurrentRef (run (step sha256) (dbOpen o []) is) n tx a.toInt →
      ValueKept sha256 i.1 (run (step sha256) (dbOpen o []) is)
        (step sha256 (run (step sha256) (dbOpen o []) is) i) n pre post e a x jr tx facts newIds) ↔
    CurrentRef (run (step sha256) (dbOpen o []) is) n tx a.toInt ∨ 0 ≤ x.toInt ∨
      a.toInt ∉ refSet i.1 (run (step sha256) (dbOpen o []) is) n tx := by
  have hr : Sound (run (step sha256) (dbOpen o []) is) := sound_run (sound_dbOpen o) his
  generalize run (step sha256) (dbOpen o []) is = s at *
  obtain ⟨fs, harg, htr⟩ := response_transact hreq hrep
  simp only [Option.some.injEq, Json.array.injEq] at harg
  subst harg
  obtain ⟨oi, r⟩ := i
  have hreq : r = _ := hreq
  subst hreq
  obtain ⟨hn, hfs, htx, hid⟩ := hi
  rw [valueKept_iff hr hn (hfs _ rfl) htr hid htx]
  constructor
  · intro h
    by_cases href : CurrentRef s n tx a.toInt
    · exact Or.inl href
    · exact Or.inr (h href)
  · intro h hnot
    exact h.resolve_left hnot

end Kept

theorem not_currentRef {s : Store} {n : Nat} {tx a : Int}
    (h : ∀ x ∈ s, x.1.e = a → x.1.a = dbType → decode x ≠ .int dbTypeRef) :
    ¬ CurrentRef s n tx a := by
  rintro ⟨x, hx, hxe, hxa, hdec⟩
  exact h x hx.inGroup.1 hxe hxa hdec

/-- A negative value of an attribute without a type is kept. -/
theorem untyped_value_kept :
    ValueKept .ofBytes .calm (dbOpen .calm [])
      (step .ofBytes (dbOpen .calm []) (assertRequest 60 50 (-5))) 0 [] [] 60 50 (-5) (.int64 0) 1
      [⟨60, 50, .int (-5), 1, false⟩] [] := by
  have hstate : reply .ofBytes (dbOpen .calm []) (assertRequest 60 50 (-5)) =
        .response 1 [⟨60, 50, .int (-5), 1, false⟩] [] ∧
      50 ∉ refSet .calm (dbOpen .calm []) 0 1 ∧
      getMeta (step .ofBytes (dbOpen .calm []) (assertRequest 60 50 (-5))) 0 metaTx = some 2 ∧
      getMeta (step .ofBytes (dbOpen .calm []) (assertRequest 60 50 (-5))) 0 metaId = some 11 ∧
      ∀ x ∈ dbOpen .calm [], x.1.e = 50 → x.1.a = dbType → decode x ≠ .int dbTypeRef := by
    decide +kernel
  obtain ⟨hrep, href, htx, hid, hcurrent⟩ := hstate
  have hi : InputBounded .ofBytes (dbOpen .calm []) (assertRequest 60 50 (-5)) := by
    refine ⟨by norm_num [NsInRange], fun fs hfs v hv => ?_, fun t ht => ?_, fun t ht => ?_⟩
    · simp only [Option.some.injEq, Json.array.injEq] at hfs
      subst hfs
      rw [List.mem_singleton.mp hv]
      decide
    · rw [htx, Option.some.injEq] at ht
      omega
    · rw [hid, Option.some.injEq] at ht
      omega
  have his : Along (step .ofBytes) (InputBounded .ofBytes) (dbOpen .calm []) [] := trivial
  have hreq : (assertRequest 60 50 (-5)).2 = .transact 0
      (some (.array ([] ++ Json.array [.int64 60, .int64 50, .int64 (-5), .int64 0] :: []))) := rfl
  exact (run_only_refs_rewritten his hi hreq hrep).mpr (Or.inr (Or.inr href))
    (not_currentRef hcurrent)

/-- A negative value of an attribute declared to have plain values is taken for a tempid. -/
theorem typed_value_rewritten :
    ¬ CurrentRef (run (step .ofBytes) (dbOpen .calm []) [assertRequest 50 2 5]) 0 2 50 ∧
    reply .ofBytes (run (step .ofBytes) (dbOpen .calm []) [assertRequest 50 2 5])
      (assertRequest 60 50 (-5)) = .response 2 [⟨60, 50, .int 11, 2, false⟩] [(-5, 11)] ∧
    ¬ ValueKept .ofBytes .calm (run (step .ofBytes) (dbOpen .calm []) [assertRequest 50 2 5])
      (step .ofBytes (run (step .ofBytes) (dbOpen .calm []) [assertRequest 50 2 5])
        (assertRequest 60 50 (-5))) 0 [] [] 60 50 (-5) (.int64 0) 2
      [⟨60, 50, .int 11, 2, false⟩] [(-5, 11)] := by
  have hstate : (∀ x ∈ run (step .ofBytes) (dbOpen .calm []) [assertRequest 50 2 5],
        x.1.e = 50 → x.1.a = dbType → decode x ≠ .int dbTypeRef) ∧
      reply .ofBytes (run (step .ofBytes) (dbOpen .calm []) [assertRequest 50 2 5])
        (assertRequest 60 50 (-5)) = .response 2 [⟨60, 50, .int 11, 2, false⟩] [(-5, 11)] := by
    decide +kernel
  refine ⟨not_currentRef hstate.1, hstate.2, fun h => ?_⟩
  obtain ⟨e, hfact, -⟩ := h.reported
  have hval := congrArg Fact.v (Option.some.inj hfact)
  simp at hval

end Nstore

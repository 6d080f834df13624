/-
Tempids.

A negative number in entity position, or in value position of an attribute with a
type, stands for an id that the transaction hands out.  The two places share a map
and a counter, and the counter is stored with the transaction.  Nothing here asks
for numbers in range: which ids a request gets does not depend on how its keys
compare.
-/
import Nstore.Lib.FirstSeen
import Nstore.Proofs.AllOrNothing
import Nstore.Proofs.Keys

namespace Nstore

open FirstSeen Machine

/-! ### The tempids of a request -/

/-- The tempids of an element: its entity, then its value if the attribute has a type. -/
def Json.tempids (eRef : List Int) : Json → List Int
  | .array [.int64 e, .int64 a, v, _] =>
      [e.toInt].filter (· < 0) ++
        match v with
        | .int64 x => if a.toInt ∈ eRef then [x.toInt].filter (· < 0) else []
        | _ => []
  | _ => []

/-- The tempids of a request, in the order of their first occurrence. -/
def tempidsOf (eRef : List Int) (fs : List Json) : List Int :=
  seeAll [] (fs.flatMap (Json.tempids eRef))

/-- An id of a request, mapped if it is a tempid. -/
def mapId (f : Int → Int) (x : Int) : Int := if x < 0 then f x else x

/-- What an element asks for when one function maps its tempids. -/
def Json.mapped (sha256 : Bytes → Value) (eRef : List Int) (f : Int → Int) : Json → Option Write
  | .array [.int64 e, .int64 a, .int64 x, r] =>
      some ⟨mapId f e.toInt, a.toInt,
        encodeInt (if a.toInt ∈ eRef then mapId f x.toInt else x.toInt), retractFlag r⟩
  | .array [.int64 e, .int64 a, .string str, r] =>
      some ⟨mapId f e.toInt, a.toInt, encodeStr sha256 str, retractFlag r⟩
  | _ => none

/-! ### Handing out ids -/

/-- The map and the counter after some tempids, if the counter began at `i`. -/
def Ids.of (i : Int) (seen : List Int) : Ids := { newIds := numbered i seen, id := i + seen.length }

section Resolve

variable {i : Int} {seen : List Int}

theorem beginState_ids (s : Store) (i : Int) : (beginState s i).ids = Ids.of i [] := by
  simp [beginState, Ids.of, numbered]

theorem Ids.resolve_of (i : Int) (seen : List Int) (x : Int) :
    (Ids.of i seen).resolve x = (number i (see seen x) x, Ids.of i (see seen x)) := by
  unfold Ids.resolve Ids.of see
  simp only
  by_cases hx : x ∈ seen
  · rw [lookup_numbered, if_pos hx, if_pos hx]
  · rw [lookup_numbered, if_neg hx, if_neg hx, numbered_concat hx]
    simp [number, List.idxOf_append_of_notMem hx, add_assoc]

/-- A tempid is seen and mapped by its number then and from then on; other ids stay. -/
theorem resolve_mapId {x : Int} {ts : List Int} (h : seeAll seen ([x].filter (· < 0)) <+: ts) :
    (if x < 0 then (Ids.of i seen).resolve x else (x, Ids.of i seen)) =
      (mapId (number i ts) x, Ids.of i (seeAll seen ([x].filter (· < 0)))) := by
  unfold mapId
  by_cases hx : x < 0
  · rw [if_pos hx, if_pos hx, Ids.resolve_of]
    simp only [hx, decide_true, List.filter_cons_of_pos, List.filter_nil, seeAll, List.foldl_cons,
      List.foldl_nil] at h ⊢
    rw [number_eq h (mem_see.mpr (Or.inr rfl))]
  · rw [if_neg hx, if_neg hx]
    simp [hx, seeAll]

private theorem resolveEntity_of {x e : Int} {ids' : Ids}
    (h : resolveEntity (Ids.of i seen) x = some (e, ids')) :
    ids' = Ids.of i (seeAll seen ([x].filter (· < 0))) ∧
      ∀ ts, seeAll seen ([x].filter (· < 0)) <+: ts → e = mapId (number i ts) x := by
  have hmap : ∀ ts, seeAll seen ([x].filter (· < 0)) <+: ts → (e, ids') =
      (mapId (number i ts) x, Ids.of i (seeAll seen ([x].filter (· < 0)))) := by
    intro ts hts
    rw [← resolve_mapId hts]
    unfold resolveEntity at h
    split at h
    · rename_i hx
      rw [Option.some.injEq] at h
      rw [if_pos hx, h]
    · rename_i hx
      split at h
      · exact absurd h (by simp)
      · rw [Option.some.injEq] at h
        rw [if_neg hx, h]
  exact ⟨congrArg Prod.snd (hmap _ (List.prefix_refl _)), fun ts hts => congrArg Prod.fst (hmap ts hts)⟩

theorem resolveValue_of (eRef : List Int) (a x : Int) {ts : List Int}
    (h : seeAll seen (if a ∈ eRef then [x].filter (· < 0) else []) <+: ts) :
    resolveValue eRef (Ids.of i seen) a x =
      (if a ∈ eRef then mapId (number i ts) x else x,
        Ids.of i (seeAll seen (if a ∈ eRef then [x].filter (· < 0) else []))) := by
  unfold resolveValue
  by_cases ha : a ∈ eRef
  · simp only [if_pos ha] at h ⊢
    rw [← resolve_mapId h]
    by_cases hx : x < 0
    · rw [if_pos ⟨ha, hx⟩, if_pos hx]
    · rw [if_neg fun hc => hx hc.2, if_neg hx]
  · rw [if_neg ha, if_neg fun hc => ha hc.1, if_neg ha]
    rfl

/-- **Reading an element** sees its tempids in order, and maps them by their final numbers. -/
theorem readElement_of {sha256 : Bytes → Value} {eRef : List Int} {v : Json} {ids' : Ids}
    {w : Option Write} (h : readElement sha256 eRef (Ids.of i seen) v = some (ids', w)) :
    ids' = Ids.of i (seeAll seen (v.tempids eRef)) ∧
      ∀ ts, seeAll seen (v.tempids eRef) <+: ts → w = v.mapped sha256 eRef (number i ts) := by
  unfold readElement at h
  split at h
  · rename_i e a jv jr
    obtain ⟨⟨e', ids₁⟩, he, hr⟩ := Option.map_eq_some_iff.mp h
    obtain ⟨rfl, hent⟩ := resolveEntity_of he
    cases jv with
    | int64 x =>
        simp only [readValue, Prod.mk.injEq] at hr
        obtain ⟨rfl, rfl⟩ := hr
        simp only [Json.tempids, seeAll_append]
        refine ⟨by rw [resolveValue_of eRef a.toInt x.toInt (List.prefix_refl _)], fun ts hts => ?_⟩
        rw [hent ts (seeAll_extends.trans hts), resolveValue_of eRef a.toInt x.toInt hts]
        rfl
    | string str =>
        simp only [readValue, Prod.mk.injEq] at hr
        obtain ⟨rfl, rfl⟩ := hr
        simp only [Json.tempids, List.append_nil, true_and]
        intro ts hts
        rw [hent ts hts]
        rfl
    | _ =>
        simp only [readValue, Prod.mk.injEq] at hr
        obtain ⟨rfl, rfl⟩ := hr
        simp only [Json.tempids, List.append_nil, true_and]
        exact fun ts _ => rfl
  · exact absurd h (by simp)

end Resolve

/-! ### The loop -/

theorem insertWrite_newFacts {o : Oracle} {k : Nat} {txn : Txn} {w : Write} {st st' : TxnState}
    (h : insertWrite o k txn st w = some st') : st'.newFacts = st.newFacts ++ [w.fact txn.tx] := by
  unfold insertWrite at h
  split at h
  · exact absurd h (by simp)
  · obtain ⟨s₁, -, h⟩ := Option.bind_eq_some_iff.mp h
    obtain ⟨sm, -, rfl⟩ := Option.map_eq_some_iff.mp h
    rfl

/-- What the loop has written and answered, its tempids mapped by one function. -/
structure LoopMapped (txn : Txn) (ws : List Write) (st st' : TxnState) : Prop where
  facts : st'.newFacts = st.newFacts ++ ws.map (Write.fact txn.tx)
  keys : ∀ q ∈ storedKeys st'.store, q ∈ storedKeys st.store ∨ q.sort = 0 ∨
    ∃ w ∈ ws, ∃ sort, q = w.key txn sort

theorem transactLoop_tempids {sha256 : Bytes → Value} {o : Oracle} {txn : Txn} {i : Int} :
    ∀ {vs : List Json} {k : Nat} {seen : List Int} {st st' : TxnState}, st.ids = Ids.of i seen →
      transactLoop sha256 o txn k st vs = some st' →
      st'.ids = Ids.of i (seeAll seen (vs.flatMap (Json.tempids txn.eRef))) ∧
        LoopMapped txn (vs.filterMap (Json.mapped sha256 txn.eRef
          (number i (seeAll seen (vs.flatMap (Json.tempids txn.eRef)))))) st st' := by
  intro vs
  induction vs with
  | nil =>
      intro k seen st st' hids h
      rw [transactLoop, Option.some.injEq] at h
      subst h
      exact ⟨hids, by simp, fun q hq => Or.inl hq⟩
  | cons v rest ih =>
      intro k seen st st' hids h
      rw [transactLoop, Option.bind_eq_some_iff] at h
      obtain ⟨st₁, h1, h2⟩ := h
      rw [List.flatMap_cons, seeAll_append]
      generalize hts : seeAll (seeAll seen (v.tempids txn.eRef))
        (rest.flatMap (Json.tempids txn.eRef)) = ts
      have hpre : seeAll seen (v.tempids txn.eRef) <+: ts := hts ▸ seeAll_extends
      obtain ⟨ids, ⟨hr, rfl⟩ | ⟨w, hr, hw⟩⟩ := transactFact_cases h1
      · -- the element is skipped, but its entity has been seen
        rw [hids] at hr
        obtain ⟨hids', hmap⟩ := readElement_of hr
        obtain ⟨hids₂, hfacts, hkeys⟩ := ih hids' h2
        rw [hts] at hids₂ hfacts hkeys
        rw [List.filterMap_cons_none (hmap ts hpre).symm]
        exact ⟨hids₂, hfacts, hkeys⟩
      · rw [hids] at hr
        obtain ⟨hids', hmap⟩ := readElement_of hr
        obtain ⟨hids₂, hfacts, hkeys⟩ := ih ((insertWrite_ids hw).trans hids') h2
        rw [hts] at hids₂ hfacts hkeys
        rw [List.filterMap_cons_some (hmap ts hpre).symm]
        refine ⟨hids₂, ?_, fun q hq => ?_⟩
        · rw [hfacts, insertWrite_newFacts hw]
          simp
        · rcases hkeys q hq with hq | hq | ⟨w', hw', hq⟩
          · rcases storedKeys_insertWrite hw hq with hq | ⟨sort, -, hq⟩ | hq
            · exact Or.inr (Or.inl hq)
            · exact Or.inr (Or.inr ⟨w, List.mem_cons_self, sort, hq⟩)
            · exact Or.inl hq
          · exact Or.inr (Or.inl hq)
          · exact Or.inr (Or.inr ⟨w', List.mem_cons_of_mem _ hw', hq⟩)

/-! ### A transaction -/

/-- A committed transaction whose tempids are mapped by one function. -/
structure TempidsMapped (sha256 : Bytes → Value) (o : Oracle) (s s' : Store) (n : Nat) (i tx : Int)
    (fs : List Json) (facts : List Fact) (newIds : List (Int × Int)) (f : Int → Int) : Prop where
  /-- Distinct tempids get distinct ids. -/
  distinct : ∀ x ∈ tempidsOf (refSet o s n tx) fs, ∀ y ∈ tempidsOf (refSet o s n tx) fs,
    f x = f y → x = y
  /-- In the order of first occurrence the ids are `i`, `i + 1` and so on. -/
  inOrder : (tempidsOf (refSet o s n tx) fs).map f =
    (List.range (tempidsOf (refSet o s n tx) fs).length).map fun k : Nat => i + k
  reported : newIds = (tempidsOf (refSet o s n tx) fs).map fun x => (x, f x)
  facts_eq : facts = (fs.filterMap (Json.mapped sha256 (refSet o s n tx) f)).map (Write.fact tx)
  stored : ∀ q ∈ storedKeys s', q ∈ storedKeys s ∨ q.sort = 0 ∨
    ∃ w ∈ fs.filterMap (Json.mapped sha256 (refSet o s n tx) f), ∃ sort,
      q = w.key (beginTxn o s n tx) sort
  counted : getMeta s' n metaId = some (i + (tempidsOf (refSet o s n tx) fs).length)

section Transaction

variable {sha256 : Bytes → Value} {o : Oracle} {s s' : Store} {n : Nat} {fs : List Json}
  {facts : List Fact} {newIds : List (Int × Int)} {i tx : Int}

theorem transact_tempids (hid : getMeta s n metaId = some i)
    (h : transact sha256 o s n fs = some (.response tx facts newIds, s')) :
    TempidsMapped sha256 o s s' n i tx fs facts newIds
      (number i (tempidsOf (refSet o s n tx) fs)) := by
  obtain ⟨tx', id, st, -, hid', hloop, rfl, hr⟩ := transact_cases h
  simp only [Reply.response.injEq] at hr
  obtain ⟨rfl, rfl, rfl⟩ := hr
  have hi : id = i := Option.some.inj (hid'.symm.trans hid)
  subst hi
  obtain ⟨hids, hfacts, hkeys⟩ := transactLoop_tempids (beginState_ids s id) hloop
  refine ⟨fun x hx y _ hxy => number_inj hx hxy, map_number (nodup_seeAll List.nodup_nil), ?_, ?_, ?_,
    ?_⟩
  · rw [hids]
    rfl
  · exact hfacts
  · intro q hq
    rcases storedKeys_commitStore hq with hq | hq
    · exact Or.inr (Or.inl hq)
    · exact hkeys q hq
  · unfold commitStore
    rw [getMeta_putMeta, hids]
    rfl

end Transaction

/-! ### Runs -/

/-- The ids a request reports on a namespace, each with its transaction and its tempid. -/
def reportedIds (sha256 : Bytes → Value) (n : Nat) (s : Store) (i : Input) : List (Int × Int × Int) :=
  match i.2, reply sha256 s i with
  | .transact m _, .response tx _ newIds =>
      if m = n then newIds.map fun p => (tx, p.1, p.2) else []
  | _, _ => []

section Runs

variable {sha256 : Bytes → Value} {n : Nat}

private theorem reportedIds_of_not_commit {s : Store} {i : Input}
    (h : isCommit sha256 n s i = false) :
    reportedIds sha256 n s i = [] := by
  unfold reportedIds
  unfold isCommit at h
  split
  · rename_i m arg tx facts newIds hm hrep
    rw [hm, hrep] at h
    rw [if_neg (by simpa using h)]
  · rfl

/-- What a committed transaction reports, and what becomes of the counter. -/
theorem reportedIds_of_commit {s : Store} {i : Input} (hi : InputNs i) (h : isCommit sha256 n s i = true) :
    ∃ i₀ k, getMeta s n metaId = some i₀ ∧ getMeta (step sha256 s i) n metaId = some (i₀ + (k : Nat)) ∧
      (reportedIds sha256 n s i).map (·.2.2) = (List.range k).map (fun j : Nat => i₀ + j) ∧
      ∃ tx, getMeta (step sha256 s i) n metaTx = some tx := by
  obtain ⟨o, r⟩ := i
  cases r with
  | transact m arg =>
      rcases step_transact_cases sha256 o s m arg with ⟨-, hrep⟩ | ⟨fs, tx, facts, newIds, rfl, htr, hrep⟩
      · simp [isCommit, hrep] at h
      · have hm : m = n := by simpa [isCommit, hrep] using h
        subst hm
        obtain ⟨tx', id, st, -, hid, -, hs', -⟩ := transact_cases htr
        have hmap := transact_tempids hid htr
        refine ⟨id, _, hid, hmap.counted, ?_, tx' + 1, ?_⟩
        · rw [← hmap.inOrder]
          simp only [reportedIds, hrep, if_true, hmap.reported, List.map_map]
          rfl
        · rw [hs']
          exact (getMeta_commitStore m tx' st (hi m _ rfl)).1
  | newNamespace arg => simp [isCommit] at h
  | facts m arg => simp [isCommit] at h

/-- Ids are reported from the counter up, and none twice. -/
theorem record_ids_nodup (hn : n < 2 ^ 32) :
    ∀ {is : List Input} {s : Store}, (∀ i ∈ is, InputNs i) →
      ((record (step sha256) (reportedIds sha256 n) s is).map (·.2.2)).Nodup ∧
      (nsExists s n = true → ∀ i₀, getMeta s n metaId = some i₀ →
        ∀ p ∈ record (step sha256) (reportedIds sha256 n) s is, i₀ ≤ p.2.2) := by
  intro is
  induction is with
  | nil =>
      intro s _
      exact ⟨List.nodup_nil, fun _ i₀ _ p hp => absurd hp List.not_mem_nil⟩
  | cons i rest ih =>
      intro s his
      have hi := his i List.mem_cons_self
      obtain ⟨hnodup, hfrom⟩ := ih (s := step sha256 s i) fun j hj => his j (List.mem_cons_of_mem i hj)
      rw [record, List.map_append]
      cases hc : isCommit sha256 n s i with
      | false =>
          rw [reportedIds_of_not_commit hc]
          refine ⟨hnodup, fun hex i₀ hid p hp => ?_⟩
          have hcounter : ∀ {c}, 0 ≤ c ∧ c < 5 → getMeta (step sha256 s i) n c = getMeta s n c :=
            fun hrange => step_counters hi hn hex hc hrange
          refine hfrom ?_ i₀ ((hcounter (by decide)).trans hid) p hp
          rw [nsExists, hcounter (by decide)]
          exact hex
      | true =>
          obtain ⟨i₀, k, hid, hid', hids, tx, htx⟩ := reportedIds_of_commit hi hc
          have hrest := hfrom (by rw [nsExists, htx]; rfl) _ hid'
          have hnow : ∀ y ∈ (reportedIds sha256 n s i).map (·.2.2), i₀ ≤ y ∧ y < i₀ + k := by
            intro y hy
            rw [hids] at hy
            obtain ⟨j, hj, rfl⟩ := List.mem_map.mp hy
            have := List.mem_range.mp hj
            omega
          constructor
          · rw [List.nodup_append]
            refine ⟨?_, hnodup, fun y hy z hz hyz => ?_⟩
            · rw [hids]
              exact List.nodup_range.map fun a b hab => by simpa using hab
            · obtain ⟨p, hp, rfl⟩ := List.mem_map.mp hz
              have := hrest p hp
              have := hnow y hy
              omega
          · intro _ i₁ hid₁ p hp
            have h01 : i₀ = i₁ := Option.some.inj (hid.symm.trans hid₁)
            subst h01
            rcases List.mem_append.mp hp with hp | hp
            · exact (hnow _ (List.mem_map_of_mem hp)).1
            · have := hrest p hp
              omega

end Runs

/-- A request with one assertion of an integer. -/
def assertRequest (e a v : Int64) : Input :=
  (.calm, .transact 0 (some (.array [.array [.int64 e, .int64 a, .int64 v, .int64 0]])))

/-- A request with one retraction of an integer. -/
def retractRequest (e a v : Int64) : Input :=
  (.calm, .transact 0 (some (.array [.array [.int64 e, .int64 a, .int64 v, .int64 1]])))

/-- Two entities that refer to each other by tempids. -/
def tempidRequest : List Json :=
  [.array [.int64 (-1), .int64 2, .int64 (-2), .int64 0],
   .array [.int64 (-2), .int64 2, .int64 (-1), .int64 0]]

end Nstore

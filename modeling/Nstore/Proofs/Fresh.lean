/-
Tempids and the entities there already are.

Ids for tempids come from a counter, but a request may also name an entity itself,
and any number from `db_initial_id` on will do.  The counter does not move for
those, so an id it hands out later may be one that is taken.  It never is as long as
requests only name entities below the counter: then every datom of a namespace is
about an entity below it.
-/
import Nstore.Proofs.Tempids

namespace Nstore

open FirstSeen Machine

/-! ### Setting up a namespace, in any store -/

section Setup

variable {o : Oracle} {s : Store} {n : Nat}

/-- The counters of a namespace once all of them are put. -/
theorem putMetas_counters {s₁ : Store} (hn : n < 2 ^ 32)
    (hp : putMetas o n 0 (setupMetas n) s = (false, s₁)) :
    getMeta s₁ n metaTx = some 1 ∧ getMeta s₁ n metaId = some dbInitialId := by
  obtain ⟨ms, -, hputs, hall⟩ := putMetas_puts o n (setupMetas n) 0 s
  rw [hp] at hputs hall
  rw [hall rfl, setupMetas, List.map_append, OrderedMap.puts, List.foldl_append] at hputs
  generalize List.foldl _ s _ = s₂ at hputs
  have hs₁ : s₁ = putMeta (putMeta s₂ n metaTx 1) n metaId dbInitialId := hputs
  rw [hs₁, getMeta_putMeta, getMeta_putMeta_ne hn hn (by decide) (by decide) (Or.inr (by decide)),
    getMeta_putMeta]
  exact ⟨rfl, rfl⟩

private theorem storedKeys_putMetas {q : CustomKey}
    (hq : q ∈ storedKeys (putMetas o n 0 (setupMetas n) s).2) : q.sort = 0 ∨ q ∈ storedKeys s := by
  obtain ⟨ms, -, hputs, -⟩ := putMetas_puts o n (setupMetas n) 0 s
  rw [hputs] at hq
  obtain ⟨x, hx, rfl⟩ := List.mem_map.mp hq
  rcases OrderedMap.mem_of_mem_puts hx with hx | hx
  · exact Or.inr (mem_storedKeys hx)
  · obtain ⟨m, -, rfl⟩ := List.mem_map.mp hx
    exact Or.inl rfl

/-- Where `setup` writes facts, it has written the counters before. -/
theorem setup_counters {q : CustomKey} (hn : n < 2 ^ 32) (hq : q ∈ storedKeys (setup o s n).2) :
    q ∈ storedKeys s ∨ q.sort = 0 ∨
      ((∃ x ∈ setupWrites n, q = x.1) ∧ getMeta (setup o s n).2 n metaTx = some 1 ∧
        getMeta (setup o s n).2 n metaId = some dbInitialId) := by
  have hmetas := storedKeys_putMetas (o := o) (s := s) (n := n) (q := q)
  unfold setup at hq ⊢
  split at hq
  · exact Or.inl hq
  · rename_i hex
    rw [if_neg hex]
    split at hq
    · rename_i s₁ hp
      rw [hp] at hmetas
      exact (hmetas hq).symm.imp id Or.inl
    · rename_i s₁ hp
      rw [hp] at hmetas
      split at hq
      · exact (hmetas hq).symm.imp id Or.inl
      · rename_i hopen
        obtain ⟨ys, hys, hall⟩ := putAll_puts o (setupWrites n) 0 s₁
        obtain ⟨x, hx, rfl⟩ := List.mem_map.mp hq
        rw [show (false, putAll o 0 (setupWrites n) s₁).2 = _ from hall] at hx
        rcases OrderedMap.mem_of_mem_puts hx with hx | hx
        · exact (hmetas (mem_storedKeys hx)).symm.imp id Or.inl
        · obtain ⟨htx, hid⟩ := putMetas_counters hn hp
          refine Or.inr (Or.inr ⟨⟨x, hys.subset hx, rfl⟩, ?_⟩)
          rw [if_neg hopen, getMeta_putAll fun x hx => setupWrites_ne_meta hx,
            getMeta_putAll fun x hx => setupWrites_ne_meta hx]
          exact ⟨htx, hid⟩

end Setup

/-! ### Entities below the counter -/

/-- Every datom is about an entity below the id counter of its namespace. -/
def EntitiesBelow (s : Store) : Prop :=
  ∀ q ∈ storedKeys s, q.sort ≠ 0 → q.ns < 2 ^ 32 ∧ nsExists s q.ns = true ∧
    ∃ id, getMeta s q.ns metaId = some id ∧ q.e < id

/-- The entity an element names, if it is no tempid. -/
def Json.explicitEntity : Json → Option Int
  | .array [.int64 e, _, _, _] => if e.toInt < 0 then none else some e.toInt
  | _ => none

/-- A request that, if it commits, names only entities below the counter it finds. -/
def ExplicitBelow (sha256 : Bytes → Value) (s : Store) (i : Input) : Prop :=
  ∀ n fs id, i.2 = .transact n (some (.array fs)) → isCommit sha256 n s i = true →
    getMeta s n metaId = some id → ∀ v ∈ fs, ∀ e ∈ v.explicitEntity, e < id

private theorem setupWrites_zero_below : ∀ x ∈ setupWrites 0, x.1.e < dbInitialId := by
  decide +kernel

private theorem setupWrites_below {n : Nat} {x : Entry} (hx : x ∈ setupWrites n) :
    x.1.ns = n ∧ x.1.e < dbInitialId := by
  obtain ⟨y, hy, rfl⟩ := mem_setupWrites.mp hx
  exact ⟨rfl, setupWrites_zero_below y hy⟩

section Steps

variable {sha256 : Bytes → Value} {s : Store}

/-- The entity of a write is below the counter, or one the request named. -/
theorem mapped_entity {eRef : List Int} {i : Int} {ts : List Int} {v : Json} {w : Write}
    (hw : v.mapped sha256 eRef (number i ts) = some w) (hts : ∀ x ∈ v.tempids eRef, x ∈ ts) :
    w.e < i + ts.length ∨ v.explicitEntity = some w.e := by
  have hentity : ∀ (e : Int64) (rest : List Int), v.tempids eRef = [e.toInt].filter (· < 0) ++ rest →
      (∀ a jv jr, v = .array [.int64 e, a, jv, jr] → w.e = mapId (number i ts) e.toInt →
        w.e < i + ts.length ∨ v.explicitEntity = some w.e) := by
    intro e rest htemp a jv jr hv hwe
    unfold mapId at hwe
    by_cases he : e.toInt < 0
    · rw [if_pos he] at hwe
      have hmem : e.toInt ∈ ts := hts _ (by rw [htemp]; simp [he])
      exact Or.inl (hwe ▸ (number_range hmem).2)
    · rw [if_neg he] at hwe
      refine Or.inr ?_
      rw [hv, hwe]
      simp [Json.explicitEntity, he]
  unfold Json.mapped at hw
  split at hw
  · rename_i e a x r
    rw [Option.some.injEq] at hw
    exact hentity e _ rfl _ _ _ rfl (by rw [← hw])
  · rename_i e a str r
    rw [Option.some.injEq] at hw
    exact hentity e _ rfl _ _ _ rfl (by rw [← hw])
  · exact absurd hw (by simp)

/-- A datom that was there is still below the counter, unless its namespace commits. -/
theorem EntitiesBelow.keep {i : Input} (hs : EntitiesBelow s) (hns : InputNs i) {q : CustomKey}
    (hq : q ∈ storedKeys s) (hsort : q.sort ≠ 0) (hc : isCommit sha256 q.ns s i = false) :
    q.ns < 2 ^ 32 ∧ nsExists (step sha256 s i) q.ns = true ∧
      ∃ id, getMeta (step sha256 s i) q.ns metaId = some id ∧ q.e < id := by
  obtain ⟨hlt, hex, id, hid, he⟩ := hs q hq hsort
  refine ⟨hlt, ?_, id, ?_, he⟩
  · rw [nsExists, step_counters hns hlt hex hc (by decide)]
    exact hex
  · rw [step_counters hns hlt hex hc (by decide)]
    exact hid

theorem entitiesBelow_setup {o : Oracle} {n : Nat} (hs : EntitiesBelow s) (hn : n < 2 ^ 32) :
    EntitiesBelow (setup o s n).2 := by
  intro q hq hsort
  rcases setup_counters hn hq with hq | hq | ⟨⟨x, hx, rfl⟩, htx, hid⟩
  · obtain ⟨hlt, hex, id, hid, he⟩ := hs q hq hsort
    refine ⟨hlt, ?_, id, ?_, he⟩
    · rw [nsExists, getMeta_setup_of_exists hlt hn (by decide) hex]
      exact hex
    · rw [getMeta_setup_of_exists hlt hn (by decide) hex]
      exact hid
  · exact absurd hq hsort
  · obtain ⟨hxn, hxe⟩ := setupWrites_below hx
    refine ⟨hxn ▸ hn, ?_, dbInitialId, ?_, hxe⟩
    · rw [hxn, nsExists, htx]
      rfl
    · rw [hxn, hid]

theorem entitiesBelow_step {i : Input} (hs : EntitiesBelow s) (hns : InputNs i)
    (hi : ExplicitBelow sha256 s i) : EntitiesBelow (step sha256 s i) := by
  obtain ⟨o, r⟩ := i
  cases r with
  | newNamespace arg =>
      rcases step_newNamespace_cases sha256 o s arg with h | ⟨m, -, h⟩
      · rw [h]
        exact hs
      · rw [h]
        exact entitiesBelow_setup hs (toNamespace_lt _)
  | transact n arg =>
      rcases step_transact_cases sha256 o s n arg with ⟨h, -⟩ | ⟨fs, tx, facts, newIds, rfl, htr, hrep⟩
      · rw [h]
        exact hs
      · have hcommit : isCommit sha256 n s (o, .transact n (some (.array fs))) = true := by
          simp only [isCommit, hrep, decide_true]
        have hn : n < 2 ^ 32 := hns n _ rfl
        obtain ⟨tx', id, st, -, hid, -, hs', -⟩ := transact_cases htr
        have hmap := transact_tempids hid htr
        have hex : nsExists (step sha256 s (o, .transact n (some (.array fs)))) n = true := by
          rw [hs', nsExists, (getMeta_commitStore n tx' st hn).1]
          rfl
        intro q hq hsort
        rcases hmap.stored q hq with hq | hq | ⟨w, hw, sort, rfl⟩
        · by_cases hqn : q.ns = n
          · obtain ⟨-, -, id', hid', he⟩ := hs q hq hsort
            have hids : id' = id := Option.some.inj (hid'.symm.trans (hqn ▸ hid))
            rw [hqn]
            exact ⟨hn, hex, _, hmap.counted, by omega⟩
          · refine hs.keep hns hq hsort ?_
            simp only [isCommit, hrep, decide_eq_false_iff_not]
            exact fun hc => hqn hc.symm
        · exact absurd hq hsort
        · obtain ⟨v, hv, hw⟩ := List.mem_filterMap.mp hw
          refine ⟨hn, hex, _, hmap.counted, ?_⟩
          show w.e < _
          rcases mapped_entity hw fun x hx =>
            mem_seeAll.mpr (Or.inr (List.mem_flatMap.mpr ⟨v, hv, hx⟩)) with he | he
          · exact he
          · have := hi n fs id rfl hcommit hid v hv w.e he
            omega
  | facts n arg => exact hs

theorem entitiesBelow_dbOpen (o : Oracle) : EntitiesBelow (dbOpen o []) :=
  entitiesBelow_setup (fun _ hq => absurd hq List.not_mem_nil) (by norm_num)

theorem entitiesBelow_run {o : Oracle} {is : List Input}
    (his : Along (step sha256) (fun s i => InputNs i ∧ ExplicitBelow sha256 s i) (dbOpen o []) is) :
    EntitiesBelow (run (step sha256) (dbOpen o []) is) :=
  Along.invariant EntitiesBelow (fun _ _ hs hi => entitiesBelow_step hs hi.1 hi.2)
    (entitiesBelow_dbOpen o) his

end Steps

/-- The entity that the first request got an id for is named with a new tempid. -/
def namedRequest : Input :=
  (.calm, .transact 0 (some (.array [.array [.int64 11, .int64 50, .int64 8, .int64 0],
    .array [.int64 (-1), .int64 50, .int64 9, .int64 0]])))

end Nstore

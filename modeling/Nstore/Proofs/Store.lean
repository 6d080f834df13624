/-
Stores whose keys stay in range.

The results about stored facts are for keys whose fields lie in
[-2^29, 2^29) and whose transaction field lies in [0, 2^30).  There the comparator
is an order, and a store is an ordered map: `StoreOk`.  This file says what the
LMDB calls do to such a store, and what it means for two keys of each family to
compare equal.
-/
import Nstore.Proofs.KeyOrder
import Nstore.Handler

namespace Nstore

open LexDiff

/-! ### Keys in range -/

/-- A datom key: an integer or a string in one of the two sort orders. -/
def CustomKey.IsDatom (k : CustomKey) : Prop :=
  (k.type = .keyInteger ∨ k.type = .keyBlob) ∧ (k.sort = sortEATV ∨ k.sort = sortAETV)

instance (k : CustomKey) : Decidable k.IsDatom := inferInstanceAs (Decidable (_ ∧ _))

/-- A stored key, with every field in range. -/
structure InRange (k : CustomKey) : Prop where
  kind : (k.type = .keyMeta ∧ k.sort = 0) ∨ (k.type = .keyUnique ∧ k.sort = 0) ∨ k.IsDatom
  ns_lt : k.ns < 2 ^ 31
  e_range : -2 ^ 29 ≤ k.e ∧ k.e < 2 ^ 29
  a_range : -2 ^ 29 ≤ k.a ∧ k.a < 2 ^ 29
  t_range : 0 ≤ k.t ∧ k.t < 2 ^ 30
  pad_range : -2 ^ 15 ≤ k.pad ∧ k.pad < 2 ^ 15
  i_range : k.type = .keyInteger → -2 ^ 29 ≤ k.v.i ∧ k.v.i < 2 ^ 29

theorem InRange.fits {k : CustomKey} (h : InRange k) : Fits k := by
  have he := h.e_range
  have ha := h.a_range
  have ht := h.t_range
  refine ⟨h.ns_lt, by omega, by omega, by omega, h.pad_range, ?_, fun hi => ?_⟩
  · rcases h.kind with ⟨-, hs⟩ | ⟨-, hs⟩ | ⟨-, hs | hs⟩ <;> rw [hs] <;> decide
  · have := h.i_range hi
    omega

/-! ### Integers in the union -/

theorem leNat_leBytes : ∀ n x, leNat (leBytes n x) = x % 256 ^ n := by
  intro n
  induction n with
  | zero => intro x; simp [leBytes, leNat, Nat.mod_one]
  | succ n ih =>
      intro x
      rw [leBytes, leNat, ih, pow_succ', Nat.mod_mul]
      simp

/-- An integer written into the union is read back. -/
theorem Value.i_setI (v : Value) {x : Int} (h : IsInt64 x) : (v.setI x).i = x := by
  have htake : (v.setI x).bytes.take 8 = leBytes 8 (x % 2 ^ 64).toNat := by
    show (leBytes 8 (x % 2 ^ 64).toNat ++ v.bytes.drop 8).take 8 = _
    rw [List.take_append_of_le_length (by rw [length_leBytes]), List.take_of_length_le]
    rw [length_leBytes]
  unfold Value.i
  rw [htake, leNat_leBytes]
  obtain ⟨h1, h2⟩ := h
  have hmod : (((x % 2 ^ 64).toNat % 256 ^ 8 : Nat) : Int) = x % 2 ^ 64 := by
    have : (256 : Nat) ^ 8 = 2 ^ 64 := by norm_num
    omega
  rw [hmod]
  obtain ⟨_, _, q, _⟩ := toInt64_cases (x % 2 ^ 64)
  omega

theorem intKey_inRange {ns sort : Nat} {e a t x : Int} (hns : ns < 2 ^ 31)
    (hsort : sort = sortEATV ∨ sort = sortAETV) (he : -2 ^ 29 ≤ e ∧ e < 2 ^ 29)
    (ha : -2 ^ 29 ≤ a ∧ a < 2 ^ 29) (ht : 0 ≤ t ∧ t < 2 ^ 30) (hx : -2 ^ 29 ≤ x ∧ x < 2 ^ 29) :
    InRange (intKey ns sort e a t x) := by
  refine ⟨Or.inr (Or.inr ⟨Or.inl rfl, hsort⟩), hns, he, ha, ht, ?_, fun _ => ?_⟩
  · show (-2 ^ 15 : Int) ≤ 0 ∧ (0 : Int) < 2 ^ 15; norm_num
  · show -2 ^ 29 ≤ (Value.zero.setI x).i ∧ (Value.zero.setI x).i < 2 ^ 29
    rw [Value.i_setI _ ⟨by omega, by omega⟩]
    exact hx

/-! ### Ordered stores -/

/-- An ordered map of keys in range. -/
abbrev StoreOk (s : Store) : Prop := OrderedMap.Ok CustomKey.coords InRange s

theorem agrees_inRange : OrderedMap.Agrees customKeyCompare CustomKey.coords InRange :=
  ⟨fun hx hy => compare_agrees.neg_iff hx.fits hy.fits,
    fun hx hy => compare_agrees.zero_iff hx.fits hy.fits⟩

/-- The same map, for a lookup with a key that only fits. -/
theorem StoreOk.fits {s : Store} (h : StoreOk s) : OrderedMap.Ok CustomKey.coords Fits s :=
  ⟨fun x hx => (h.keys x hx).fits, h.sorted⟩

/-! ### The LMDB calls -/

section Calls

variable {s s' : Store} {k : CustomKey} {d : Item}

theorem mem_mdbPut (hs : StoreOk s) (hk : InRange k) (x : Entry) :
    x ∈ mdbPut s k d ↔ x = (k, d) ∨ (x ∈ s ∧ x.1.coords ≠ k.coords) :=
  OrderedMap.mem_put agrees_inRange hk hs x

theorem mdbPut_ok (hs : StoreOk s) (hk : InRange k) : StoreOk (mdbPut s k d) :=
  OrderedMap.put_ok agrees_inRange hk hs

theorem mem_mdbDel (hs : StoreOk s) (hk : InRange k) (h : mdbDel s k = some s') (x : Entry) :
    x ∈ s' ↔ x ∈ s ∧ x.1.coords ≠ k.coords :=
  OrderedMap.mem_del agrees_inRange hk hs h x

theorem mdbDel_ok (hs : StoreOk s) (h : mdbDel s k = some s') : StoreOk s' :=
  OrderedMap.del_ok hs h

theorem mdbDel_eq_none (hs : StoreOk s) (hk : InRange k) :
    mdbDel s k = none ↔ ∀ x ∈ s, x.1.coords ≠ k.coords :=
  OrderedMap.del_eq_none_iff agrees_inRange hk hs

theorem mdbGet_eq_some (hs : StoreOk s) (hk : InRange k) :
    mdbGet s k = some d ↔ ∃ k', (k', d) ∈ s ∧ k'.coords = k.coords :=
  OrderedMap.find?_eq_some_iff agrees_inRange hk hs

theorem mdbGet_eq_none (hs : StoreOk s) (hk : InRange k) :
    mdbGet s k = none ↔ ∀ x ∈ s, x.1.coords ≠ k.coords :=
  OrderedMap.find?_eq_none_iff agrees_inRange hk hs

end Calls

/-! ### When two keys are one -/

theorem coords_eq_meta {x : CustomKey} {ns : Nat} {id : Int} :
    x.coords = (metaKey ns id).coords ↔ x.ns = ns ∧ x.type = .keyMeta ∧ x.e = id := by
  constructor
  · intro h
    obtain ⟨hns, hfam⟩ := coords_family h
    have htype : x.type = .keyMeta := by
      cases hx : x.type <;> rw [hx] at hfam <;>
        first | rfl | exact absurd hfam (by simp [KeyType.family, metaKey, fillMetaKey])
    simp only [CustomKey.coords, htype, metaKey, fillMetaKey, List.cons.injEq, true_and,
      and_true] at h
    exact ⟨hns, htype, h.2⟩
  · rintro ⟨hns, htype, he⟩
    simp only [CustomKey.coords, htype, metaKey, fillMetaKey, hns, he]

theorem coords_eq_unique {x k : CustomKey} {ns : Nat} :
    x.coords = (uniqueKey ns k).coords ↔
      x.ns = ns ∧ x.type = .keyUnique ∧ x.a = k.a ∧ x.v = k.v := by
  constructor
  · intro h
    obtain ⟨hns, hfam⟩ := coords_family h
    have htype : x.type = .keyUnique := by
      cases hx : x.type <;> rw [hx] at hfam <;>
        first | rfl | exact absurd hfam (by simp [KeyType.family, uniqueKey])
    simp only [CustomKey.coords, htype, uniqueKey, List.cons.injEq, true_and] at h
    exact ⟨hns, htype, h.2.1, Value.ext_bytes (byteCoords_inj h.2.2)⟩
  · rintro ⟨hns, htype, ha, hv⟩
    simp only [CustomKey.coords, htype, uniqueKey, hns, ha, hv]

/-- What the comparator sees of a datom's value and time, and what orders a group. -/
def CustomKey.tv (k : CustomKey) : List Int := k.t :: k.valueCoords

theorem coords_EATV {k : CustomKey} (h : k.IsDatom) (hs : k.sort = sortEATV) :
    k.coords = (k.ns : Int) :: 3 :: (sortEATV : Int) :: k.e :: k.a :: k.tv := by
  rw [coords_datom h.1, hs, sortCoords_EATV]
  rfl

theorem coords_AETV {k : CustomKey} (h : k.IsDatom) (hs : k.sort = sortAETV) :
    k.coords = (k.ns : Int) :: 3 :: (sortAETV : Int) :: k.a :: k.e :: k.tv := by
  rw [coords_datom h.1, hs, sortCoords_AETV]
  rfl

/-- Datoms compare equal when they agree on every field, a value as its type has it. -/
theorem coords_eq_datom {x k : CustomKey} (hx : x.IsDatom) (hk : k.IsDatom) :
    x.coords = k.coords ↔
      x.ns = k.ns ∧ x.sort = k.sort ∧ x.e = k.e ∧ x.a = k.a ∧ x.tv = k.tv := by
  constructor
  · intro h
    obtain ⟨hns, -⟩ := coords_family h
    have hsort : x.sort = k.sort := by
      rw [coords_datom hx.1, coords_datom hk.1] at h
      simp only [List.cons.injEq] at h
      omega
    rcases hk.2 with hs | hs
    · rw [coords_EATV hx (hsort.trans hs), coords_EATV hk hs] at h
      simp only [List.cons.injEq, true_and] at h
      exact ⟨hns, hsort, h.2.1, h.2.2.1, h.2.2.2⟩
    · rw [coords_AETV hx (hsort.trans hs), coords_AETV hk hs] at h
      simp only [List.cons.injEq, true_and] at h
      exact ⟨hns, hsort, h.2.2.1, h.2.1, h.2.2.2⟩
  · rintro ⟨hns, hsort, he, ha, htv⟩
    rcases hk.2 with hs | hs
    · rw [coords_EATV hx (hsort.trans hs), coords_EATV hk hs, hns, he, ha, htv]
    · rw [coords_AETV hx (hsort.trans hs), coords_AETV hk hs, hns, he, ha, htv]

/-- Whether a key is a datom can be read off its coordinates. -/
theorem isDatom_of_coords_eq {x k : CustomKey} (hx : InRange x) (hk : k.IsDatom)
    (h : x.coords = k.coords) : x.IsDatom := by
  obtain ⟨-, hfam⟩ := coords_family h
  have hk3 : k.type.family = 3 := by
    rcases hk.1 with h | h <;> rw [h] <;> rfl
  rw [hk3] at hfam
  rcases hx.kind with ⟨ht, -⟩ | ⟨ht, -⟩ | hd
  · rw [ht] at hfam; exact absurd hfam (by decide)
  · rw [ht] at hfam; exact absurd hfam (by decide)
  · exact hd

/-! ### Meta keys in range -/

theorem metaKey_inRange {ns : Nat} {id : Int} (hns : ns < 2 ^ 31) (h0 : 0 ≤ id) (h1 : id < 5) :
    InRange (metaKey ns id) := by
  refine ⟨Or.inl ⟨rfl, rfl⟩, hns, ?_, ?_, ?_, ?_, fun h => absurd h (by simp [metaKey, fillMetaKey])⟩
  · show -2 ^ 29 ≤ id ∧ id < 2 ^ 29; omega
  · show (-2 ^ 29 : Int) ≤ 0 ∧ (0 : Int) < 2 ^ 29; norm_num
  · show (0 : Int) ≤ 0 ∧ (0 : Int) < 2 ^ 30; norm_num
  · show (-2 ^ 15 : Int) ≤ 0 ∧ (0 : Int) < 2 ^ 15; norm_num

theorem uniqueKey_inRange {ns : Nat} {k : CustomKey} (hns : ns < 2 ^ 31)
    (ha : -2 ^ 29 ≤ k.a ∧ k.a < 2 ^ 29) : InRange (uniqueKey ns k) := by
  refine ⟨Or.inr (Or.inl ⟨rfl, rfl⟩), hns, ?_, ha, ?_, ?_, fun h => absurd h (by simp [uniqueKey])⟩
  · show (-2 ^ 29 : Int) ≤ 0 ∧ (0 : Int) < 2 ^ 29; norm_num
  · show (0 : Int) ≤ 0 ∧ (0 : Int) < 2 ^ 30; norm_num
  · show (-2 ^ 15 : Int) ≤ 0 ∧ (0 : Int) < 2 ^ 15; norm_num

/-! ### Reading counters, whatever the other keys are

A meta key only ever compares equal to a meta key, whether or not the other keys
are in range, so the counters can be read and written in any store.
-/

theorem compare_metaKey {ns : Nat} {id : Int} (y : CustomKey) :
    customKeyCompare (metaKey ns id) y = 0 ↔
      ((ns : Int) - y.ns) % 2 ^ 32 = 0 ∧ y.type = .keyMeta ∧ toInt32 (toInt64 (id - y.e)) = 0 := by
  have hty : (metaKey ns id).type = .keyMeta := rfl
  have hnsk : (metaKey ns id).ns = ns := rfl
  have hek : (metaKey ns id).e = id := rfl
  unfold customKeyCompare
  rw [hty, hnsk, hek]
  by_cases h : ((ns : Int) - y.ns) % 2 ^ 32 = 0
  · simp only [h, ne_eq, not_true_eq_false, if_false, true_and]
    rw [if_pos (Or.inl (by decide))]
    by_cases ht : y.type = .keyMeta
    · simp [ht]
    · have hne : KeyType.keyMeta.code - y.type.code ≠ 0 := by
        intro hc
        exact ht (KeyType.code_inj (by omega))
      rw [if_pos hne, toInt32_code_sub]
      simp [ht, hne]
  · simp only
    rw [if_pos h]
    obtain ⟨_, _, q, _⟩ := toInt32_cases (((ns : Int) - y.ns) % 2 ^ 32)
    constructor
    · intro hc
      omega
    · rintro ⟨hc, -⟩
      exact absurd hc h

/-- Keys that compare equal, one of them an index key, are of one type and namespace. -/
theorem type_of_compare {k y : CustomKey}
    (ht : k.type.code < KeyType.keyMinSentinel.code ∨ y.type.code < KeyType.keyMinSentinel.code)
    (h : customKeyCompare k y = 0) : y.type = k.type ∧ ((k.ns : Int) - y.ns) % 2 ^ 32 = 0 := by
  unfold customKeyCompare at h
  simp only at h
  split at h
  · rename_i hns
    obtain ⟨_, _, q, _⟩ := toInt32_cases (((k.ns : Int) - y.ns) % 2 ^ 32)
    omega
  · rename_i hns
    refine ⟨KeyType.code_inj ?_, not_not.mp hns⟩
    by_contra hne
    have hne : k.type.code - y.type.code ≠ 0 := by omega
    rw [if_pos hne, toInt32_code_sub] at h
    exact hne h

private theorem type_ne_meta_of_compare {k y : CustomKey} (hk : k.type ≠ .keyMeta)
    (h : customKeyCompare k y = 0) : y.type ≠ .keyMeta := by
  intro hy
  have ht : y.type.code < KeyType.keyMinSentinel.code := by rw [hy]; decide
  exact hk ((type_of_compare (Or.inr ht) h).1.symm.trans hy)

theorem getMeta_putMeta (s : Store) (ns : Nat) (id val : Int) :
    getMeta (putMeta s ns id val) ns id = some val := by
  have h : customKeyCompare (metaKey ns id) (metaKey ns id) = 0 := by
    rw [compare_metaKey]
    exact ⟨by simp [metaKey, fillMetaKey], rfl, by simp [metaKey, fillMetaKey, toInt64, toInt32]⟩
  unfold getMeta putMeta mdbGet mdbPut
  rw [OrderedMap.find?_put_self h]
  rfl

/-- A write to any key that is not this counter leaves it as it was. -/
theorem getMeta_mdbPut {s : Store} {ns : Nat} {id : Int} {k : CustomKey} {d : Item}
    (hk : ∀ y, customKeyCompare k y = 0 → customKeyCompare (metaKey ns id) y ≠ 0)
    (hk' : customKeyCompare (metaKey ns id) k ≠ 0) :
    getMeta (mdbPut s k d) ns id = getMeta s ns id := by
  unfold getMeta mdbPut mdbGet
  rw [OrderedMap.find?_put_ne hk hk']

theorem getMeta_mdbPut_of_type {s : Store} {ns : Nat} {id : Int} {k : CustomKey} {d : Item}
    (hk : k.type ≠ .keyMeta) : getMeta (mdbPut s k d) ns id = getMeta s ns id :=
  getMeta_mdbPut (fun y hy hc => type_ne_meta_of_compare hk hy ((compare_metaKey y).mp hc).2.1)
    fun hc => hk ((compare_metaKey k).mp hc).2.1

theorem getMeta_putMeta_ne {s : Store} {ns ns' : Nat} {id id' val : Int} (hns : ns < 2 ^ 32)
    (hns' : ns' < 2 ^ 32) (hid : 0 ≤ id ∧ id < 5) (hid' : 0 ≤ id' ∧ id' < 5)
    (hne : ns' ≠ ns ∨ id' ≠ id) :
    getMeta (putMeta s ns id val) ns' id' = getMeta s ns' id' := by
  -- no key can be both counters: their namespaces or their ids would agree
  have hboth : ∀ y : CustomKey, customKeyCompare (metaKey ns id) y = 0 →
      customKeyCompare (metaKey ns' id') y ≠ 0 := by
    intro y hy hy'
    rw [compare_metaKey, toInt32_toInt64] at hy hy'
    obtain ⟨_, _, q, hq⟩ := toInt32_cases (id - y.e)
    obtain ⟨_, _, q', hq'⟩ := toInt32_cases (id' - y.e)
    omega
  refine getMeta_mdbPut hboth fun hc => ?_
  refine hboth (metaKey ns id) ?_ hc
  rw [compare_metaKey]
  exact ⟨by simp [metaKey, fillMetaKey], rfl, by simp [metaKey, fillMetaKey, toInt64, toInt32]⟩

/-- In an ordered store a counter is read off the entry that holds it. -/
theorem getMeta_eq_some {s : Store} (hs : StoreOk s) {ns : Nat} {id n : Int} (hns : ns < 2 ^ 31)
    (hid : 0 ≤ id ∧ id < 5) :
    getMeta s ns id = some n ↔
      ∃ x ∈ s, x.1.ns = ns ∧ x.1.type = .keyMeta ∧ x.1.e = id ∧ x.2.i64 = n := by
  unfold getMeta
  rw [Option.map_eq_some_iff]
  constructor
  · rintro ⟨d, hd, rfl⟩
    obtain ⟨k, hk, hc⟩ := (mdbGet_eq_some hs (metaKey_inRange hns hid.1 hid.2)).mp hd
    obtain ⟨h1, h2, h3⟩ := coords_eq_meta.mp hc
    exact ⟨(k, d), hk, h1, h2, h3, rfl⟩
  · rintro ⟨x, hx, h1, h2, h3, rfl⟩
    exact ⟨x.2, (mdbGet_eq_some hs (metaKey_inRange hns hid.1 hid.2)).mpr
      ⟨x.1, hx, coords_eq_meta.mpr ⟨h1, h2, h3⟩⟩, rfl⟩

/-- Stores with the same meta entries have the same counters. -/
theorem getMeta_congr {s s' : Store} (hs : StoreOk s) (hs' : StoreOk s') {ns : Nat} {id : Int}
    (hns : ns < 2 ^ 31) (hid : 0 ≤ id ∧ id < 5)
    (h : ∀ x : Entry, x.1.ns = ns → x.1.type = .keyMeta → (x ∈ s' ↔ x ∈ s)) :
    getMeta s' ns id = getMeta s ns id := by
  refine Option.ext fun n => ?_
  rw [getMeta_eq_some hs hns hid, getMeta_eq_some hs' hns hid]
  constructor
  · rintro ⟨x, hx, h1, h2, h3⟩
    exact ⟨x, (h x h1 h2).mp hx, h1, h2, h3⟩
  · rintro ⟨x, hx, h1, h2, h3⟩
    exact ⟨x, (h x h1 h2).mpr hx, h1, h2, h3⟩

theorem mem_putMeta {s : Store} (hs : StoreOk s) {ns : Nat} {id val : Int} (hns : ns < 2 ^ 31)
    (hid : 0 ≤ id ∧ id < 5) {x : Entry} (hx : x.1.type ≠ .keyMeta) :
    x ∈ putMeta s ns id val ↔ x ∈ s := by
  unfold putMeta
  rw [mem_mdbPut hs (metaKey_inRange hns hid.1 hid.2)]
  constructor
  · rintro (rfl | ⟨h, -⟩)
    · exact absurd rfl hx
    · exact h
  · exact fun h => Or.inr ⟨h, fun hc => hx (coords_eq_meta.mp hc).2.1⟩

theorem putMeta_ok {s : Store} (hs : StoreOk s) {ns : Nat} {id val : Int} (hns : ns < 2 ^ 31)
    (hid : 0 ≤ id ∧ id < 5) : StoreOk (putMeta s ns id val) :=
  mdbPut_ok hs (metaKey_inRange hns hid.1 hid.2)

end Nstore

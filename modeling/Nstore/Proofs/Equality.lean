/-
When two values are one.

A value is told from another in four places: by the comparator among datoms, by the 32
bytes of the union in the maps of the two readers, and by the same bytes in the unique
index.  The comparator looks at the type, the pad and the bytes of a string, but cuts the
difference of two integers to 32 bits; the bytes alone do not tell an integer from the
string they spell, nor a string from itself with NULs at its end.
-/
import Nstore.Proofs.Codec
import Mathlib.Data.List.DropRight

namespace Nstore

open LexDiff

/-! ### Payloads -/

/-- Bytes without the NULs at their end. -/
def trimNul (bs : Bytes) : Bytes := bs.rdropWhile (· == 0)

/-- What is copied into the zeroed union for a value. -/
def rawBytes (sha256 : Bytes → Value) : FactValue → Bytes
  | .int i => leBytes 8 (i % 2 ^ 64).toNat
  | .str s => if s.length > 32 then (sha256 s).bytes else s

section Payload

variable {sha256 : Bytes → Value}

theorem length_rawBytes (v : FactValue) : (rawBytes sha256 v).length ≤ 32 := by
  cases v with
  | int i => rw [rawBytes, length_leBytes]; norm_num
  | str s =>
      by_cases hlen : s.length > 32
      · rw [rawBytes, if_pos hlen]
        exact (sha256 s).size.le
      · rw [rawBytes, if_neg hlen]
        omega

theorem trimNul_append (bs : Bytes) (n : Nat) : trimNul (bs ++ List.replicate n 0) = trimNul bs := by
  induction n with
  | zero => simp
  | succ n ih =>
      rw [List.replicate_succ', ← List.append_assoc, trimNul, List.rdropWhile_concat_pos _ _ _ (by simp)]
      exact ih

private theorem trimNul_append_nul (bs : Bytes) :
    trimNul bs ++ List.replicate (bs.length - (trimNul bs).length) 0 = bs := by
  have hsplit : trimNul bs ++ bs.rtakeWhile (· == 0) = bs := List.rdropWhile_append_rtakeWhile
  have hnul : bs.rtakeWhile (· == 0) = List.replicate (bs.length - (trimNul bs).length) 0 := by
    refine List.eq_replicate_iff.mpr ⟨?_, fun b hb => ?_⟩
    · have := congrArg List.length hsplit
      rw [List.length_append] at this
      omega
    · simpa using List.mem_rtakeWhile_imp hb
  rw [← hnul]
  exact hsplit

theorem Value.eq_of_bytes {v w : Value} (h : v.bytes = w.bytes) : v = w := by
  cases v
  cases w
  simpa using h

theorem bytes_ofBytes {bs : Bytes} (h : bs.length ≤ 32) :
    (Value.ofBytes bs).bytes = bs ++ List.replicate (32 - bs.length) 0 := by
  show (bs ++ List.replicate 32 0).take 32 = _
  rw [List.take_append, List.take_of_length_le h, List.take_replicate]
  congr 2
  omega

/-- The union tells bytes apart up to the NULs at their end. -/
theorem ofBytes_eq_iff {x y : Bytes} (hx : x.length ≤ 32) (hy : y.length ≤ 32) :
    Value.ofBytes x = .ofBytes y ↔ trimNul x = trimNul y := by
  constructor
  · intro h
    have hbytes := congrArg Value.bytes h
    rw [bytes_ofBytes hx, bytes_ofBytes hy] at hbytes
    rw [← trimNul_append x (32 - x.length), hbytes, trimNul_append]
  · intro h
    have hfill : ∀ {z : Bytes}, z.length ≤ 32 → (Value.ofBytes z).bytes =
        trimNul z ++ List.replicate (32 - (trimNul z).length) 0 := by
      intro z hz
      have hz' := trimNul_append_nul z
      have hle : (trimNul z).length ≤ z.length := (List.rdropWhile_prefix _ _).length_le
      rw [bytes_ofBytes hz]
      nth_rewrite 1 [← hz']
      rw [List.append_assoc, List.replicate_append_replicate]
      congr 2
      omega
    apply Value.eq_of_bytes
    rw [hfill hx, hfill hy, h]

/-- The payload of a value are its bytes, filled up with NULs. -/
theorem encodeFact_v (v : FactValue) : (encodeFact sha256 v).v = .ofBytes (rawBytes sha256 v) := by
  apply Value.eq_of_bytes
  rw [bytes_ofBytes (length_rawBytes v)]
  cases v with
  | int i =>
      rw [rawBytes, length_leBytes]
      show leBytes 8 (i % 2 ^ 64).toNat ++ Value.zero.bytes.drop 8 = _
      rfl
  | str s =>
      rw [encodeFact, encodeStr, rawBytes]
      by_cases hlen : s.length > 32
      · rw [if_pos hlen, if_pos hlen, (sha256 s).size]
        simp
      · rw [if_neg hlen, if_neg hlen, bytes_ofBytes (by omega)]

theorem payload_eq_iff (v w : FactValue) : (encodeFact sha256 v).v = (encodeFact sha256 w).v ↔
    trimNul (rawBytes sha256 v) = trimNul (rawBytes sha256 w) := by
  rw [encodeFact_v, encodeFact_v]
  exact ofBytes_eq_iff (length_rawBytes v) (length_rawBytes w)

end Payload

/-! ### The values -/

/-- A value `handle_transact` accepts: any `int64`, any string. -/
def FactValue.Accepted : FactValue → Prop
  | .int i => IsInt64 i
  | .str _ => True

/-- The hashes of two long strings do not collide. -/
def NoHashCollision (sha256 : Bytes → Value) (v w : FactValue) : Prop :=
  ∀ s s', v = .str s → w = .str s' → 32 < s.length → 32 < s'.length → sha256 s = sha256 s' → s = s'

/--
Values that are taken for each other somewhere: two integers whose difference is a multiple
of 2^32, and values whose bytes differ only in the NULs at their end, which are the eight
bytes of an integer, a string of at most 32 bytes, or the hash of a longer one.
-/
def Aliased (sha256 : Bytes → Value) (v w : FactValue) : Prop :=
  v ≠ w ∧ match v, w with
    | .int i, .int j => (i - j) % 2 ^ 32 = 0
    | v, w => trimNul (rawBytes sha256 v) = trimNul (rawBytes sha256 w)

instance (sha256 : Bytes → Value) (v w : FactValue) : Decidable (Aliased sha256 v w) :=
  match v, w with
  | .int i, .int j => inferInstanceAs (Decidable (_ ∧ (i - j) % 2 ^ 32 = 0))
  | .int _, .str _ => inferInstanceAs (Decidable (_ ∧ trimNul _ = trimNul _))
  | .str _, .int _ => inferInstanceAs (Decidable (_ ∧ trimNul _ = trimNul _))
  | .str _, .str _ => inferInstanceAs (Decidable (_ ∧ trimNul _ = trimNul _))

/-- The key of a datom with a value. -/
def valueKey (sha256 : Bytes → Value) (txn : Txn) (e a : Int) (retract : Bool) (sort : Nat)
    (v : FactValue) : CustomKey :=
  { datomKey txn e a (encodeFact sha256 v) retract with sort := sort }

/-- Its key in the unique index. -/
def indexKey (sha256 : Bytes → Value) (txn : Txn) (e a : Int) (v : FactValue) : CustomKey :=
  uniqueKey txn.ns { datomKey txn e a (encodeFact sha256 v) false with t := 0 }

section Keys

variable {sha256 : Bytes → Value} {txn : Txn} {e a : Int} {retract : Bool} {sort : Nat}

theorem encodeFact_pad (sha256 : Bytes → Value) (v : FactValue) :
    -7 ≤ (encodeFact sha256 v).pad ∧ (encodeFact sha256 v).pad ≤ 33 := by
  cases v with
  | int i => exact ⟨by show (-7 : Int) ≤ 0; norm_num, by show (0 : Int) ≤ 33; norm_num⟩
  | str s =>
      rcases encodeStr_pad_cases sha256 (s := s) with ⟨hle, h, -⟩ | ⟨-, h7, h0, -⟩ <;>
        rw [encodeFact] <;> omega

theorem isInt64_datomT (tx : Int) (retract : Bool) : IsInt64 (datomT tx retract) := by
  obtain ⟨h1, h2, q, hq⟩ := toInt64_cases (2 * tx)
  unfold IsInt64 datomT
  split <;> omega

theorem valueKey_wide (hns : txn.ns < 2 ^ 32) (he : IsInt64 e) (ha : IsInt64 a)
    (hsort : sort = sortEATV ∨ sort = sortAETV) (v : FactValue) :
    Wide (valueKey sha256 txn e a retract sort v) := by
  have hpad := encodeFact_pad sha256 v
  refine ⟨hns, he, ha, isInt64_datomT txn.tx retract, ?_, ?_⟩
  · show -2 ^ 15 ≤ (encodeFact sha256 v).pad ∧ (encodeFact sha256 v).pad < 2 ^ 15
    omega
  · show sort < 256
    rcases hsort with rfl | rfl <;> decide

theorem indexKey_wide (hns : txn.ns < 2 ^ 32) (ha : IsInt64 a) (v : FactValue) :
    Wide (indexKey sha256 txn e a v) := by
  refine ⟨hns, ?_, ha, ?_, ?_, ?_⟩
  · show IsInt64 0
    unfold IsInt64
    norm_num
  · show IsInt64 0
    unfold IsInt64
    norm_num
  · show -2 ^ 15 ≤ (0 : Int) ∧ (0 : Int) < 2 ^ 15
    norm_num
  · show 0 < 256
    norm_num

theorem valueKey_isDatom (hsort : sort = sortEATV ∨ sort = sortAETV) (v : FactValue) :
    (valueKey sha256 txn e a retract sort v).IsDatom := by
  refine ⟨?_, hsort⟩
  cases v with
  | int i => exact Or.inl rfl
  | str s => exact Or.inr (encodeStr_type sha256 s)

theorem valueCoords_str (s : Bytes) : (valueKey sha256 txn e a retract sort (.str s)).valueCoords =
    5 :: (encodeStr sha256 s).pad :: byteCoords (encodeStr sha256 s).v.bytes := by
  have htype : (valueKey sha256 txn e a retract sort (.str s)).type = .keyBlob :=
    encodeStr_type sha256 s
  unfold CustomKey.valueCoords
  rw [htype]
  rfl

/-- Datoms of one entity, attribute and transaction are compared by their values. -/
theorem gap_datom {x y : CustomKey} (hx : x.IsDatom) (hy : y.IsDatom) (hns : x.ns = y.ns)
    (hsort : x.sort = y.sort) (he : x.e = y.e) (ha : x.a = y.a) (ht : x.t = y.t) :
    gap x y = firstDiff x.valueCoords y.valueCoords := by
  unfold gap
  rcases hy.2 with hs | hs
  · rw [coords_EATV hx (hsort.trans hs), coords_EATV hy hs]
    simp only [CustomKey.tv, hns, he, ha, ht, firstDiff_cons_self]
  · rw [coords_AETV hx (hsort.trans hs), coords_AETV hy hs]
    simp only [CustomKey.tv, hns, he, ha, ht, firstDiff_cons_self]

theorem valueKey_compare (hns : txn.ns < 2 ^ 32) (he : IsInt64 e) (ha : IsInt64 a)
    (hsort : sort = sortEATV ∨ sort = sortAETV) (v w : FactValue) :
    customKeyCompare (valueKey sha256 txn e a retract sort v)
        (valueKey sha256 txn e a retract sort w) = 0 ↔
      toInt32 (firstDiff (valueKey sha256 txn e a retract sort v).valueCoords
        (valueKey sha256 txn e a retract sort w).valueCoords) = 0 := by
  rw [compare_eq_zero_iff (valueKey_wide hns he ha hsort v) (valueKey_wide hns he ha hsort w),
    gap_datom (valueKey_isDatom hsort v) (valueKey_isDatom hsort w) rfl rfl rfl rfl rfl]

theorem toInt32_eq_zero_iff (x : Int) : toInt32 x = 0 ↔ x % 2 ^ 32 = 0 := by
  obtain ⟨_, _, q, _⟩ := toInt32_cases x
  omega

theorem firstDiff_bytes_eq_zero (v w : Value) :
    toInt32 (firstDiff (byteCoords v.bytes) (byteCoords w.bytes)) = 0 ↔ v = w := by
  rw [toInt32_memcmp, memcmp_eq, firstDiff_eq_zero_iff (aligned_bytes (by rw [v.size, w.size]))]
  constructor
  · intro hbytes
    exact Value.eq_of_bytes (byteCoords_inj hbytes)
  · intro hvw
    rw [hvw]

/-- The comparator takes two integers for one if their difference is a multiple of 2^32. -/
theorem compare_int_int (hns : txn.ns < 2 ^ 32) (he : IsInt64 e) (ha : IsInt64 a)
    (hsort : sort = sortEATV ∨ sort = sortAETV) {i j : Int} (hi : IsInt64 i) (hj : IsInt64 j) :
    customKeyCompare (valueKey sha256 txn e a retract sort (.int i))
        (valueKey sha256 txn e a retract sort (.int j)) = 0 ↔ (i - j) % 2 ^ 32 = 0 := by
  have hcoords : ∀ {i : Int}, IsInt64 i →
      (valueKey sha256 txn e a retract sort (.int i)).valueCoords = [4, i] := by
    intro i hi
    show KeyType.keyInteger.code :: [(Value.zero.setI i).i] = _
    rw [Value.i_setI _ hi]
    rfl
  rw [valueKey_compare hns he ha hsort, hcoords hi, hcoords hj, firstDiff_cons_self,
    firstDiff_single, toInt32_eq_zero_iff]

/-- It never takes an integer for a string. -/
theorem compare_int_str (hns : txn.ns < 2 ^ 32) (he : IsInt64 e) (ha : IsInt64 a)
    (hsort : sort = sortEATV ∨ sort = sortAETV) (i : Int) (s : Bytes) :
    customKeyCompare (valueKey sha256 txn e a retract sort (.int i))
        (valueKey sha256 txn e a retract sort (.str s)) ≠ 0 ∧
      customKeyCompare (valueKey sha256 txn e a retract sort (.str s))
        (valueKey sha256 txn e a retract sort (.int i)) ≠ 0 := by
  constructor
  · rw [ne_eq, valueKey_compare hns he ha hsort, valueCoords_str]
    show ¬ toInt32 (firstDiff (4 :: _) _) = 0
    rw [firstDiff_cons_ne (by norm_num)]
    decide
  · rw [ne_eq, valueKey_compare hns he ha hsort, valueCoords_str]
    show ¬ toInt32 (firstDiff _ (4 :: _)) = 0
    rw [firstDiff_cons_ne (by norm_num)]
    decide

/-- Two strings are compared by their pads and payloads. -/
theorem compare_str_str (hns : txn.ns < 2 ^ 32) (he : IsInt64 e) (ha : IsInt64 a)
    (hsort : sort = sortEATV ∨ sort = sortAETV) (s s' : Bytes) :
    customKeyCompare (valueKey sha256 txn e a retract sort (.str s))
        (valueKey sha256 txn e a retract sort (.str s')) = 0 ↔
      (encodeStr sha256 s).pad = (encodeStr sha256 s').pad ∧
        (encodeStr sha256 s).v = (encodeStr sha256 s').v := by
  have hpad := encodeFact_pad sha256 (.str s)
  have hpad' := encodeFact_pad sha256 (.str s')
  rw [encodeFact] at hpad hpad'
  rw [valueKey_compare hns he ha hsort, valueCoords_str, valueCoords_str, firstDiff_cons_self]
  by_cases h : (encodeStr sha256 s).pad = (encodeStr sha256 s').pad
  · rw [h, firstDiff_cons_self, firstDiff_bytes_eq_zero]
    exact (and_iff_right rfl).symm
  · rw [firstDiff_cons_ne h, toInt32_eq_zero_iff]
    constructor
    · intro hmod
      omega
    · intro hv
      exact absurd hv.1 h

/-- The index takes two values for one if their payloads are. -/
theorem indexKey_compare (hns : txn.ns < 2 ^ 32) (ha : IsInt64 a) (v w : FactValue) :
    customKeyCompare (indexKey sha256 txn e a v) (indexKey sha256 txn e a w) = 0 ↔
      (encodeFact sha256 v).v = (encodeFact sha256 w).v := by
  rw [compare_eq_zero_iff (indexKey_wide hns ha v) (indexKey_wide hns ha w)]
  have hgap : gap (indexKey sha256 txn e a v) (indexKey sha256 txn e a w) =
      firstDiff (byteCoords (encodeFact sha256 v).v.bytes)
        (byteCoords (encodeFact sha256 w).v.bytes) := by
    show firstDiff ((txn.ns : Int) :: 1 :: a :: byteCoords (encodeFact sha256 v).v.bytes)
      ((txn.ns : Int) :: 1 :: a :: byteCoords (encodeFact sha256 w).v.bytes) = _
    rw [firstDiff_cons_self, firstDiff_cons_self, firstDiff_cons_self]
  rw [hgap, firstDiff_bytes_eq_zero]

end Keys

/-! ### One notion of equality -/

/--
Two values are the same in all four places or in none, and if they are not the same, then
neither takes the place of the other: not in the store, not in the map of a reader, and not
in the unique index.
-/
structure OneEquality (sha256 : Bytes → Value) (v w : FactValue) : Prop where
  datom : ∀ (txn : Txn) (e a : Int) (retract : Bool) (sort : Nat), txn.ns < 2 ^ 32 →
    IsInt64 e → IsInt64 a → sort = sortEATV ∨ sort = sortAETV →
    (customKeyCompare (valueKey sha256 txn e a retract sort v)
      (valueKey sha256 txn e a retract sort w) = 0 ↔ v = w)
  current : (encodeFact sha256 v).v = (encodeFact sha256 w).v ↔ v = w
  index : ∀ (txn : Txn) (e a : Int), txn.ns < 2 ^ 32 → IsInt64 a →
    (customKeyCompare (indexKey sha256 txn e a v) (indexKey sha256 txn e a w) = 0 ↔ v = w)
  stored : v ≠ w → ∀ (txn : Txn) (e a : Int) (retract : Bool) (sort : Nat), txn.ns < 2 ^ 32 →
    IsInt64 e → IsInt64 a → sort = sortEATV ∨ sort = sortAETV → ∀ (s : Store) (d d' : Item),
    (valueKey sha256 txn e a retract sort w, d) ∈ s →
      (valueKey sha256 txn e a retract sort w, d) ∈
        mdbPut s (valueKey sha256 txn e a retract sort v) d'
  shown : v ≠ w → ∀ (x : Entry) (many : List Int) (m : Current), x.1.a ∈ many →
    x.1.v = (encodeFact sha256 v).v →
      (m.take x).lookup (encodeFact sha256 w).v = m.lookup (encodeFact sha256 w).v ∧
        (factsTake many m x).lookup (encodeFact sha256 w).v = m.lookup (encodeFact sha256 w).v
  held : v ≠ w → ∀ (txn : Txn) (e a : Int), txn.ns < 2 ^ 32 → IsInt64 a → ∀ (s : Store) (d : Item),
    mdbGet s (indexKey sha256 txn e a v) = some d →
      ∃ x ∈ s, x.2 = d ∧ x.1 ≠ indexKey sha256 txn e a w

section Equality

variable {sha256 : Bytes → Value} {v w : FactValue}

private theorem mem_put_of_compare_ne {k : CustomKey} {d : Item} {x : Entry} :
    ∀ {s : Store}, x ∈ s → customKeyCompare k x.1 ≠ 0 → x ∈ mdbPut s k d := by
  intro s
  induction s with
  | nil => intro hx _; exact absurd hx List.not_mem_nil
  | cons y rest ih =>
      intro hx hne
      unfold mdbPut OrderedMap.put
      split
      · exact List.mem_cons_of_mem _ hx
      · split
        · rcases List.mem_cons.mp hx with rfl | hx
          · exact absurd (by assumption) hne
          · exact List.mem_cons_of_mem _ hx
        · rcases List.mem_cons.mp hx with rfl | hx
          · exact List.mem_cons_self
          · exact List.mem_cons_of_mem _ (ih hx hne)

theorem lookup_erase_ne {m : Current} {p q : Value} (h : p ≠ q) :
    (m.erase p).lookup q = m.lookup q := by
  induction m with
  | nil => rfl
  | cons c m ih =>
      obtain ⟨k, r⟩ := c
      unfold Current.erase at ih ⊢
      by_cases hk : k = p
      · have hq : (q == k) = false := by
          rw [hk]
          exact beq_eq_false_iff_ne.mpr h.symm
        rw [List.filter_cons_of_neg (by simpa using hk), ih]
        simp only [List.lookup_cons, hq]
      · rw [List.filter_cons_of_pos (by simpa using hk)]
        simp only [List.lookup_cons, ih]

theorem lookup_take_ne {m : Current} {x : Entry} {p : Value} (h : x.1.v ≠ p) :
    (m.take x).lookup p = m.lookup p := by
  have hp : (p == x.1.v) = false := beq_eq_false_iff_ne.mpr h.symm
  unfold Current.take
  split
  · exact lookup_erase_ne h
  · simp only [List.lookup_cons, hp]
    exact lookup_erase_ne h

/-- What the comparator takes for one value, unless they are one. -/
theorem datom_compare_ne {txn : Txn} {e a : Int} {retract : Bool} {sort : Nat}
    (hns : txn.ns < 2 ^ 32) (he : IsInt64 e) (ha : IsInt64 a)
    (hsort : sort = sortEATV ∨ sort = sortAETV) (hv : v.Accepted) (hw : w.Accepted)
    (hsha : NoHashCollision sha256 v w) (hne : v ≠ w) (hal : ¬ Aliased sha256 v w) :
    customKeyCompare (valueKey sha256 txn e a retract sort v)
      (valueKey sha256 txn e a retract sort w) ≠ 0 := by
  cases v with
  | int i =>
      cases w with
      | int j =>
          intro hcmp
          exact hal ⟨hne, (compare_int_int hns he ha hsort hv hw).mp hcmp⟩
      | str s => exact (compare_int_str hns he ha hsort i s).1
  | str s =>
      cases w with
      | int j => exact (compare_int_str hns he ha hsort j s).2
      | str s' =>
          intro hcmp
          obtain ⟨hpad, hpay⟩ := (compare_str_str hns he ha hsort s s').mp hcmp
          exact hne (congrArg _ (encodeStr_inj sha256 (hsha s s' rfl rfl) hpad hpay))

/-- Two integers have different bytes. -/
theorem payload_int_inj {i j : Int} (hi : IsInt64 i) (hj : IsInt64 j)
    (h : (encodeFact sha256 (.int i)).v = (encodeFact sha256 (.int j)).v) : i = j := by
  have hread : (Value.zero.setI i).i = (Value.zero.setI j).i := congrArg Value.i h
  rwa [Value.i_setI _ hi, Value.i_setI _ hj] at hread

private theorem payload_ne (hv : v.Accepted) (hw : w.Accepted) (hne : v ≠ w)
    (hal : ¬ Aliased sha256 v w) : (encodeFact sha256 v).v ≠ (encodeFact sha256 w).v := by
  intro h
  cases v with
  | int i =>
      cases w with
      | int j => exact hne (congrArg _ (payload_int_inj hv hw h))
      | str s => exact hal ⟨hne, (payload_eq_iff _ _).mp h⟩
  | str s =>
      cases w with
      | int j => exact hal ⟨hne, (payload_eq_iff _ _).mp h⟩
      | str s' => exact hal ⟨hne, (payload_eq_iff _ _).mp h⟩

/--
**One notion of equality.**  For any two accepted values whose hashes do not collide, the
four ways to tell them apart agree, and neither ever takes the place of the other, exactly
if they are not aliases.
-/
theorem oneEquality_iff (hv : v.Accepted) (hw : w.Accepted) (hsha : NoHashCollision sha256 v w) :
    OneEquality sha256 v w ↔ ¬ Aliased sha256 v w := by
  constructor
  · intro h hal
    obtain ⟨hne, hal⟩ := hal
    have hpay : ¬ trimNul (rawBytes sha256 v) = trimNul (rawBytes sha256 w) := by
      rw [← payload_eq_iff, h.current]
      exact hne
    cases v with
    | int i =>
        cases w with
        | int j =>
            -- the comparator takes them for one
            have hdatom := h.datom ⟨0, 0, [], []⟩ 0 0 false sortEATV (by norm_num)
              (by unfold IsInt64; norm_num) (by unfold IsInt64; norm_num) (Or.inl rfl)
            rw [compare_int_int (by norm_num) (by unfold IsInt64; norm_num)
              (by unfold IsInt64; norm_num) (Or.inl rfl) hv hw] at hdatom
            exact hne (hdatom.mp hal)
        | str s => exact hpay hal
    | str s =>
        cases w with
        | int j => exact hpay hal
        | str s' => exact hpay hal
  · intro hal
    have hpay : v ≠ w → (encodeFact sha256 v).v ≠ (encodeFact sha256 w).v :=
      fun hne => payload_ne hv hw hne hal
    have hpayload : (encodeFact sha256 v).v = (encodeFact sha256 w).v ↔ v = w := by
      constructor
      · intro h
        by_contra hne
        exact hpay hne h
      · intro heq
        rw [heq]
    refine ⟨?_, ?_, ?_, ?_, ?_, ?_⟩
    · intro txn e a retract sort hns he ha hsort
      constructor
      · intro hcmp
        by_contra hne
        exact datom_compare_ne hns he ha hsort hv hw hsha hne hal hcmp
      · intro heq
        rw [heq, valueKey_compare hns he ha hsort, firstDiff_self]
        rfl
    · exact hpayload
    · intro txn e a hns ha
      rw [indexKey_compare hns ha]
      exact hpayload
    · intro hne txn e a retract sort hns he ha hsort s d d' hmem
      exact mem_put_of_compare_ne hmem (datom_compare_ne hns he ha hsort hv hw hsha hne hal)
    · intro hne x many m hmany hx
      have hxw : x.1.v ≠ (encodeFact sha256 w).v := by
        rw [hx]
        exact hpay hne
      rw [factsTake, if_pos hmany]
      exact ⟨lookup_take_ne hxw, lookup_take_ne hxw⟩
    · intro hne txn e a hns ha s d hget
      obtain ⟨x, hfind, rfl⟩ := Option.map_eq_some_iff.mp hget
      refine ⟨x, List.mem_of_find?_eq_some hfind, rfl, fun hx => hpay hne ?_⟩
      have hcmp := List.find?_some hfind
      rw [beq_iff_eq, hx, indexKey_compare hns ha] at hcmp
      exact hcmp

end Equality

theorem oneEquality_sample : OneEquality .ofBytes (.int 65) (.str (ascii "B")) := by
  have hint : (FactValue.int 65).Accepted := by
    show IsInt64 65
    unfold IsInt64
    norm_num
  have hsha : NoHashCollision .ofBytes (.int 65) (.str (ascii "B")) := fun s s' h => by simp at h
  have hstr : (FactValue.str (ascii "B")).Accepted := trivial
  exact (oneEquality_iff hint hstr hsha).mpr (by decide)

/--
An integer and the string its bytes spell, a string and the same with a NUL at its end, two
integers 2^32 apart.
-/
theorem aliases_not_oneEquality :
    ¬ OneEquality .ofBytes (.int 65) (.str (ascii "A")) ∧
      ¬ OneEquality .ofBytes (.str (ascii "A")) (.str (ascii "A" ++ [0])) ∧
      ¬ OneEquality .ofBytes (.int 0) (.int (2 ^ 32)) := by
  refine ⟨fun h => ?_, fun h => ?_, fun h => ?_⟩
  · exact absurd (h.current.mp (by decide)) (by decide)
  · exact absurd (h.current.mp (by decide)) (by decide)
  · have hdatom := h.datom ⟨0, 1, [], []⟩ 60 50 false sortEATV (by norm_num)
      (by unfold IsInt64; norm_num) (by unfold IsInt64; norm_num) (Or.inl rfl)
    exact absurd (hdatom.mp (by decide)) (by decide)

end Nstore

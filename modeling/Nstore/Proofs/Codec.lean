/-
A string is read back as it was written.

Every length below 2^31 ends in one of eight ways, or is one of the 33 lengths that fit
the key, so the narrow arithmetic is settled by evaluation; the sizes are then linear.
-/
import Nstore.Codec
import Nstore.Proofs.Holders

namespace Nstore

/-! ### The arithmetic -/

theorem toNat_and_seven (vlen : UInt32) : (vlen &&& 7).toNat = vlen.toNat % 8 := by
  rw [UInt32.toNat_and]
  exact Nat.and_two_pow_sub_one_eq_mod vlen.toNat 3

private theorem and_seven (vlen : UInt32) : vlen &&& 7 = UInt32.ofNat (vlen.toNat % 8) := by
  apply UInt32.toNat_inj.mp
  rw [toNat_and_seven, UInt32.toNat_ofNat_of_lt' (by have : UInt32.size = 2 ^ 32 := rfl; omega)]

/-- Negated unsigned and cut to 16 bits, the padding is minus the padding. -/
theorem externalPad_toInt (vlen : UInt32) : (externalPad vlen).toInt =
    if vlen.toNat % 8 = 0 then 0 else -(8 - (vlen.toNat % 8 : Nat) : Int) := by
  unfold externalPad
  rw [and_seven]
  have hlt : vlen.toNat % 8 < 8 := Nat.mod_lt _ (by norm_num)
  generalize vlen.toNat % 8 = r at hlt ⊢
  interval_cases r <;> decide

private theorem inlinePad_toInt : ∀ n < 33, (inlinePad (UInt32.ofNat n)).toInt = n + 1 := by
  decide

/-- Where it is read it is positive, and gives back the length. -/
theorem inlinePad_read : ∀ n < 33, 0 < inlinePad (UInt32.ofNat n) ∧
    ((inlinePad (UInt32.ofNat n)).toInt32 - 1).toInt64.toUInt64.toNat = n := by
  decide

/-- A narrow pad is widened with its sign. -/
theorem padSize_toNat (pad : Int16) : ((padSize pad).toNat : Int) = pad.toInt % 2 ^ 64 := by
  have hwide : pad.toInt64.toInt = pad.toInt := Int16.toInt_toInt64 pad
  have hcond : pad.toInt64.toInt = if 2 * (padSize pad).toNat < 2 ^ 64 then
      ((padSize pad).toNat : Int) else (padSize pad).toNat - (2 ^ 64 : Nat) :=
    BitVec.toInt_eq_toNat_cond _
  have hlt : (padSize pad).toNat < 2 ^ 64 := UInt64.toNat_lt _
  rw [hwide] at hcond
  split at hcond <;> omega

/-! ### The codec in unbounded integers -/

section Codec

variable (sha256 : Bytes → Value) {s s' : Bytes}

theorem ofNat_length_gt (hs : s.length < 2 ^ 31) : UInt32.ofNat s.length > 32 ↔ s.length > 32 := by
  show (32 : UInt32) < UInt32.ofNat s.length ↔ _
  rw [UInt32.lt_iff_toNat_lt, UInt32.toNat_ofNat_of_lt' (by
    have : UInt32.size = 2 ^ 32 := rfl
    omega)]
  rfl

private theorem toNat_ofNat_length (hs : s.length < 2 ^ 31) :
    (UInt32.ofNat s.length).toNat = s.length := by
  apply UInt32.toNat_ofNat_of_lt'
  have : UInt32.size = 2 ^ 32 := rfl
  omega

/-- The narrow codec builds what `encodeStr` does. -/
theorem codeString_eq (hs : s.length < 2 ^ 31) :
    (codeString sha256 s).pad.toInt = (encodeStr sha256 s).pad ∧
      (codeString sha256 s).payload = (encodeStr sha256 s).v ∧
      (codeString sha256 s).data = (encodeStr sha256 s).data := by
  unfold codeString encodeStr
  by_cases hlen : s.length > 32
  · rw [if_pos ((ofNat_length_gt hs).mpr hlen), if_pos hlen]
    refine ⟨?_, rfl, rfl⟩
    rw [externalPad_toInt, toNat_ofNat_length hs]
  · rw [if_neg (mt (ofNat_length_gt hs).mp hlen), if_neg hlen]
    exact ⟨inlinePad_toInt s.length (by omega), rfl, rfl⟩

/-- The pad of an inline string is its length plus one, that of an external one -7 to 0. -/
theorem encodeStr_pad_cases :
    (s.length ≤ 32 ∧ (encodeStr sha256 s).pad = s.length + 1 ∧ (encodeStr sha256 s).data = []) ∨
    (32 < s.length ∧ -7 ≤ (encodeStr sha256 s).pad ∧ (encodeStr sha256 s).pad ≤ 0 ∧
      (s.length - (encodeStr sha256 s).pad) % 8 = 0 ∧ (encodeStr sha256 s).data = s) := by
  unfold encodeStr
  by_cases hlen : s.length > 32
  · rw [if_pos hlen]
    refine Or.inr ⟨hlen, ?_⟩
    dsimp only
    split <;> refine ⟨?_, ?_, ?_, rfl⟩ <;> omega
  · rw [if_neg hlen]
    exact Or.inl ⟨by omega, rfl, rfl⟩

/-- The size that is reserved, without wrapping. -/
theorem codeString_size (hs : s.length < 2 ^ 31) (hlen : 32 < s.length) :
    ((codeString sha256 s).size.toNat : Int) = s.length - (codeString sha256 s).pad.toInt := by
  obtain ⟨hpad, -, hdata⟩ := codeString_eq sha256 hs
  rcases encodeStr_pad_cases sha256 (s := s) with ⟨hle, -⟩ | ⟨-, h7, h0, -, hd⟩
  · omega
  · have hsize := padSize_toNat (codeString sha256 s).pad
    have hlt : (padSize (codeString sha256 s).pad).toNat < 2 ^ 64 := UInt64.toNat_lt _
    rw [CodedString.size, UInt64.toNat_sub, hdata, hd, UInt64.toNat_ofNat_of_lt' (by
      have : UInt64.size = 2 ^ 64 := rfl
      omega)]
    rw [hpad] at hsize ⊢
    omega

/-- The item of a long string begins with it, and is longer by the padding. -/
theorem length_of_storedAs (hs : s.length < 2 ^ 31) (hlen : 32 < s.length) {item : Bytes}
    (h : (codeString sha256 s).StoredAs item) :
    s <+: item ∧ (item.length : Int) + (codeString sha256 s).pad.toInt = s.length := by
  have hsize := codeString_size sha256 hs hlen
  obtain ⟨hpad, -, hdata⟩ := codeString_eq sha256 hs
  rcases encodeStr_pad_cases sha256 (s := s) with ⟨hle, -⟩ | ⟨-, -, h0, -, hd⟩
  · omega
  · unfold CodedString.StoredAs at h
    rw [hdata, hd] at h
    by_cases hneg : (codeString sha256 s).pad < 0
    · rw [if_pos hneg] at h
      exact ⟨h.2, by omega⟩
    · rw [if_neg hneg] at h
      rw [Int16.lt_iff_toInt_lt, Int16.toInt_zero] at hneg
      exact ⟨h ▸ List.prefix_refl _, by rw [h]; omega⟩

/-- Added to its size, the pad wraps around to the length. -/
theorem readSize_of_storedAs (hs : s.length < 2 ^ 31) (hlen : 32 < s.length) {item : Bytes}
    (h : (codeString sha256 s).StoredAs item) :
    (UInt64.ofNat item.length + padSize (codeString sha256 s).pad).toNat = s.length := by
  obtain ⟨-, hlength⟩ := length_of_storedAs sha256 hs hlen h
  have hadd := padSize_toNat (codeString sha256 s).pad
  rw [UInt64.toNat_add, UInt64.toNat_ofNat']
  omega

/-- **Round trip**, in the machine's integers. -/
theorem readString_codeString (hs : s.length < 2 ^ 31) {item : Bytes}
    (h : (codeString sha256 s).StoredAs item) :
    readString (codeString sha256 s).pad (codeString sha256 s).payload item = s := by
  obtain ⟨hpad, hv, -⟩ := codeString_eq sha256 hs
  unfold readString
  by_cases hlen : 32 < s.length
  · obtain ⟨hsub, -⟩ := length_of_storedAs sha256 hs hlen h
    have hpos : ¬ 0 < (codeString sha256 s).pad := by
      rw [Int16.lt_iff_toInt_lt, hpad]
      rcases encodeStr_pad_cases sha256 (s := s) with ⟨hle, -⟩ | ⟨-, -, h0, -⟩
      · omega
      · simpa using h0
    rw [if_neg hpos, readSize_of_storedAs sha256 hs hlen h,
      ← List.prefix_iff_eq_take.mp hsub]
  · have hle : s.length ≤ 32 := by omega
    have hc : codeString sha256 s = ⟨inlinePad (UInt32.ofNat s.length), .ofBytes s, []⟩ := by
      unfold codeString
      rw [if_neg (mt (ofNat_length_gt hs).mp hlen)]
    rw [hc]
    obtain ⟨hpos, hn⟩ := inlinePad_read s.length (by omega)
    rw [if_pos hpos, hn, take_ofBytes hle]

/-- What the loops make of the key and its item. -/
theorem decode_codeString (hs : s.length < 2 ^ 31) {item : Bytes}
    (h : (codeString sha256 s).StoredAs item) {k : CustomKey} (htype : k.type = .keyBlob)
    (hpad : k.pad = (codeString sha256 s).pad.toInt) (hv : k.v = (codeString sha256 s).payload) :
    decode (k, .blob item) = .str s := by
  obtain ⟨hp, hpayload, -⟩ := codeString_eq sha256 hs
  rw [hp] at hpad
  rw [hpayload] at hv
  rcases encodeStr_pad_cases sha256 (s := s) with ⟨hle, hpos, -⟩ | ⟨hlen, -, h0, -, -⟩
  · rw [encodeStr, if_neg (by omega)] at hv
    exact decode_short htype hle (hpad.trans hpos) hv
  · obtain ⟨hsub, hlength⟩ := length_of_storedAs sha256 hs hlen h
    rw [hp, ← hpad] at hlength
    simp only [decode, htype, if_neg (not_lt.mpr (hpad.le.trans h0)), Item.size, Item.bytes,
      hlength, Int.toNat_natCast]
    rw [← List.prefix_iff_eq_take.mp hsub]

/-- What the two loops then keep under the payload. -/
theorem lookup_take {m : Current} {x : Entry} (heven : x.1.t % 2 = 0) :
    (m.take x).lookup x.1.v = some (decode x, x.1.t / 2) := by
  have hodd : ¬ x.1.t % 2 = 1 := by omega
  simp only [Current.take, if_neg hodd, List.lookup_cons_self]

theorem encodeStr_inj (hsha : 32 < s.length → 32 < s'.length → sha256 s = sha256 s' → s = s')
    (hpad : (encodeStr sha256 s).pad = (encodeStr sha256 s').pad)
    (hv : (encodeStr sha256 s).v = (encodeStr sha256 s').v) : s = s' := by
  rcases encodeStr_pad_cases sha256 (s := s) with ⟨hle, h1, -⟩ | ⟨hlen, -, h0, -⟩
  · rcases encodeStr_pad_cases sha256 (s := s') with ⟨hle', h1', -⟩ | ⟨-, -, h0', -⟩
    · -- both are the front of the same payload
      have hlength : s.length = s'.length := by omega
      rw [encodeStr, if_neg (by omega), encodeStr, if_neg (by omega)] at hv
      dsimp only at hv
      rw [← take_ofBytes hle, ← take_ofBytes hle', hv, hlength]
    · omega
  · rcases encodeStr_pad_cases sha256 (s := s') with ⟨hle', h1', -⟩ | ⟨hlen', -⟩
    · omega
    · rw [encodeStr, if_pos hlen, encodeStr, if_pos hlen'] at hv
      exact hsha hlen hlen' hv

/-- Two strings are coded alike only if they are the same, or their hashes collide. -/
theorem codeString_inj (hs : s.length < 2 ^ 31) (hs' : s'.length < 2 ^ 31)
    (hsha : 32 < s.length → 32 < s'.length → sha256 s = sha256 s' → s = s')
    (hpad : (codeString sha256 s).pad = (codeString sha256 s').pad)
    (hpayload : (codeString sha256 s).payload = (codeString sha256 s').payload) : s = s' := by
  obtain ⟨hp, hv, -⟩ := codeString_eq sha256 hs
  obtain ⟨hp', hv', -⟩ := codeString_eq sha256 hs'
  apply encodeStr_inj sha256 hsha
  · rw [← hp, ← hp', hpad]
  · rw [← hv, ← hv', hpayload]

/-- A short and a long string differ in the pad. -/
theorem codeString_pad_ne (hs : s.length ≤ 32) (hs' : s'.length < 2 ^ 31) (hlen : 32 < s'.length) :
    (codeString sha256 s).pad ≠ (codeString sha256 s').pad := by
  intro hpad
  obtain ⟨hp, -, -⟩ := codeString_eq sha256 (s := s) (by omega)
  obtain ⟨hp', -, -⟩ := codeString_eq sha256 hs'
  rw [hpad, hp'] at hp
  rcases encodeStr_pad_cases sha256 (s := s) with ⟨-, h1, -⟩ | ⟨h, -⟩
  · rcases encodeStr_pad_cases sha256 (s := s') with ⟨h, -⟩ | ⟨-, -, h0, -⟩ <;> omega
  · omega

/-- Long strings are stored in multiples of eight bytes. -/
theorem codeString_size_mod (hs : s.length < 2 ^ 31) (hlen : 32 < s.length) :
    (codeString sha256 s).size.toNat % 8 = 0 := by
  have hsize := codeString_size sha256 hs hlen
  obtain ⟨hp, -, -⟩ := codeString_eq sha256 hs
  rcases encodeStr_pad_cases sha256 (s := s) with ⟨hle, -⟩ | ⟨-, -, -, hmod, -⟩ <;> omega

/--
**The value codec.**  What `handle_transact` makes of a string of less than 2^31 bytes, both
readers read back as that string, whatever bytes pad its item.  No two strings get the same
pad and payload if their hashes do not collide, a short and a long one never do, and the
item of a long one has a multiple of eight bytes.
-/
theorem string_codec (hs : s.length < 2 ^ 31) :
    (∀ item, (codeString sha256 s).StoredAs item →
      readString (codeString sha256 s).pad (codeString sha256 s).payload item = s ∧
      ∀ (k : CustomKey) (m : Current) (many : List Int), k.type = .keyBlob →
        k.pad = (codeString sha256 s).pad.toInt → k.v = (codeString sha256 s).payload →
        k.t % 2 = 0 →
        (m.take (k, .blob item)).lookup k.v = some (.str s, k.t / 2) ∧
          (factsTake many m (k, .blob item)).lookup k.v = some (.str s, k.t / 2)) ∧
    (∀ s', s'.length < 2 ^ 31 → (32 < s.length → 32 < s'.length → sha256 s = sha256 s' → s = s') →
      (codeString sha256 s).pad = (codeString sha256 s').pad →
      (codeString sha256 s).payload = (codeString sha256 s').payload → s = s') ∧
    (∀ s', s'.length < 2 ^ 31 → s.length ≤ 32 → 32 < s'.length →
      (codeString sha256 s).pad ≠ (codeString sha256 s').pad) ∧
    (32 < s.length → (codeString sha256 s).size.toNat % 8 = 0 ∧
      ∀ item, (codeString sha256 s).StoredAs item →
        item.length = (codeString sha256 s).size.toNat) := by
  refine ⟨fun item h => ⟨readString_codeString sha256 hs h, ?_⟩, ?_, ?_, ?_⟩
  · intro k m many htype hpad hv heven
    have hdecode := decode_codeString sha256 hs h htype hpad hv
    have htake : ∀ m : Current, (m.take (k, .blob item)).lookup k.v = some (.str s, k.t / 2) := by
      intro m
      rw [← hdecode]
      exact lookup_take (x := (k, .blob item)) heven
    exact ⟨htake m, htake _⟩
  · intro s' hs' hsha hpad hpayload
    exact codeString_inj sha256 hs hs' hsha hpad hpayload
  · intro s' hs' hshort hlen
    exact codeString_pad_ne sha256 hshort hs' hlen
  · intro hlen
    refine ⟨codeString_size_mod sha256 hs hlen, fun item h => ?_⟩
    obtain ⟨-, hlength⟩ := length_of_storedAs sha256 hs hlen h
    have hsize := codeString_size sha256 hs hlen
    omega

end Codec

/-- SHA-256 of 33 bytes `A` and of 33 bytes `B`. -/
def digestOf (s : Bytes) : Value :=
  if s = List.replicate 33 66 then
    .ofBytes
      [126, 172, 149, 1, 42, 38, 91, 202, 251, 240, 114, 64, 37, 26, 124, 188, 225, 221, 45, 147,
      11, 7, 96, 227, 55, 58, 116, 56, 122, 126, 116, 154]
  else
    .ofBytes
      [93, 135, 53, 144, 133, 27, 123, 0, 182, 4, 144, 200, 230, 150, 107, 52, 9, 195, 133, 173,
      204, 149, 144, 216, 1, 240, 224, 62, 38, 139, 91, 165]

/-- Strings of 33 bytes, stored with seven more and told apart by their hashes. -/
theorem string_codec_thirtyThree :
    (codeString digestOf (List.replicate 33 65)).pad = -7 ∧
      readString (codeString digestOf (List.replicate 33 65)).pad
        (codeString digestOf (List.replicate 33 65)).payload
        (List.replicate 33 65 ++ [1, 2, 3, 4, 5, 6, 7]) = List.replicate 33 65 ∧
      (codeString digestOf (List.replicate 33 65)).size.toNat % 8 = 0 ∧
      (codeString digestOf (List.replicate 33 65)).pad =
        (codeString digestOf (List.replicate 33 66)).pad ∧
      (codeString digestOf (List.replicate 33 65)).payload ≠
        (codeString digestOf (List.replicate 33 66)).payload := by
  have hcodec := string_codec digestOf (s := List.replicate 33 65) (by decide)
  have hpad : (codeString digestOf (List.replicate 33 65)).pad =
      (codeString digestOf (List.replicate 33 66)).pad := by decide
  refine ⟨by decide, ?_, (hcodec.2.2.2 (by decide)).1, hpad, fun hpayload => ?_⟩
  · exact (hcodec.1 (List.replicate 33 65 ++ [1, 2, 3, 4, 5, 6, 7]) (by decide)).1
  · have hne : digestOf (List.replicate 33 65) ≠ digestOf (List.replicate 33 66) := by decide
    have heq : List.replicate 33 (65 : UInt8) = List.replicate 33 66 :=
      hcodec.2.1 (List.replicate 33 66) (by decide) (fun _ _ h => absurd h hne) hpad hpayload
    exact absurd heq (by decide)

end Nstore

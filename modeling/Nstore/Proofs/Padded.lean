/-
When `cursor_put_padded` stores what it is given.

For a string that needs padding the space is reserved and the data copied to its front.
For any other the size of the data is passed where LMDB reads write flags, and a long
string that needs no padding has a size whose bits mean something: not to overwrite, to
replace what the cursor is at, to reserve and not to copy, to append only.

Reserved space holds whatever was there before, so what is claimed of a put is claimed
for all contents of it.
-/
import Nstore.Proofs.Codec
import Nstore.Proofs.Sound

namespace Nstore

/-! ### The puts, whatever the reserved space holds -/

/-- The size of the item a key and its data call for. -/
def paddedSize (key : CustomKey) (data : Bytes) : Nat := data.length + (-key.pad).toNat

/--
The put succeeds, as one without flags would, and then the store is the old one with the
key mapped to an item of the right size that begins with the data.
-/
def StoresPadded (fill : Bytes) (s : Store) (mc : Cursor) (key : CustomKey) (data : Bytes) : Prop :=
  ∃ item mc', cursorPutPaddedOn fill s mc key data = some (mdbPut s key item, mc') ∧
    data <+: item.bytes ∧ item.size = paddedSize key data

/--
The flags a length spells do nothing to the put of a string.  It does not ask for many
items, and it either replaces what the cursor is at, which is this key or makes no
difference, or it reserves nothing, appends only what is last, and refuses to overwrite
only what is not there.
-/
def FlagsHarmless (s : Store) (mc : Cursor) (key : CustomKey) (str : Bytes) : Prop :=
  hasFlag str.length mdbMultiple = false ∧
    if str.length = mdbCurrent ∨ str.length = mdbCurrent + mdbNoSpill then
      ∃ c, mc = some c ∧ (c = key ∨ ((c, .blob str) ∈ s ∧ (key, .blob str) ∈ s))
    else
      hasFlag str.length mdbReserve = false ∧
        if hasFlag str.length mdbAppend then
          ∀ last, s.getLast? = some last → 0 < customKeyCompare key last.1
        else hasFlag str.length mdbNoOverwrite = true → mdbGet s key = none

/-! ### Replacing what the cursor is at -/

section Current

variable {L : Type} [LinearOrder L] {rank : CustomKey → L} {P : CustomKey → Prop} {s : Store}
  {c key : CustomKey} {d : Item}

/-- An item takes its own place. -/
theorem Item.overwrites_self (d : Item) : d.overwrites d = true := by
  unfold Item.overwrites
  split <;> exact decide_eq_true (by simp)

/-- Where the item is there already, replacing it changes nothing. -/
theorem putCurrent_eq_self (hs : OrderedMap.Ok rank P s) (hmem : (c, d) ∈ s) :
    putCurrent s c key d = s := by
  have hid : ∀ x ∈ s,
      (if x.1 = c then (if d.overwrites x.2 then x.1 else key, d) else x) = x := by
    intro x hx
    by_cases hc : x.1 = c
    · have hxd : x = (c, d) := hs.unique hx hmem (by rw [hc])
      rw [hxd, if_pos rfl, if_pos d.overwrites_self]
    · rw [if_neg hc]
  unfold putCurrent
  rw [List.map_congr_left hid, List.map_id']

/-- Replacing the item of the key itself is a put. -/
theorem putCurrent_self (hcmp : OrderedMap.Agrees customKeyCompare rank P)
    (hs : OrderedMap.Ok rank P s) {old : Item} (hmem : (key, old) ∈ s) :
    putCurrent s key key d = mdbPut s key d := by
  have hk : P key := hs.keys _ hmem
  have hfst : ∀ x : Entry,
      (if x.1 = key then (if d.overwrites x.2 then x.1 else key, d) else x) =
        if x.1 = key then (key, d) else x := by
    intro x
    by_cases hx : x.1 = key
    · rw [if_pos hx, if_pos hx, hx, ite_self]
    · rw [if_neg hx, if_neg hx]
  have hmap : putCurrent s key key d = s.map fun x => if x.1 = key then (key, d) else x := by
    unfold putCurrent
    exact List.map_congr_left fun x _ => hfst x
  have hkey : ∀ x : Entry, ((fun x : Entry => if x.1 = key then (key, d) else x) x).1 = x.1 := by
    intro x
    by_cases hx : x.1 = key
    · simp only [if_pos hx]
      exact hx.symm
    · simp only [if_neg hx]
  have hok : OrderedMap.Ok rank P (s.map fun x => if x.1 = key then (key, d) else x) := by
    refine ⟨fun y hy => ?_, List.pairwise_map.mpr (hs.sorted.imp fun {x y} hxy => ?_)⟩
    · obtain ⟨x, hx, rfl⟩ := List.mem_map.mp hy
      rw [hkey x]
      exact hs.keys x hx
    · rw [hkey x, hkey y]
      exact hxy
  rw [hmap]
  refine hok.ext (OrderedMap.put_ok hcmp hk hs) fun y => ?_
  rw [mdbPut, OrderedMap.mem_put hcmp hk hs, List.mem_map]
  constructor
  · intro hy
    obtain ⟨x, hx, rfl⟩ := hy
    by_cases hxk : x.1 = key
    · rw [if_pos hxk]
      exact Or.inl rfl
    · rw [if_neg hxk]
      refine Or.inr ⟨hx, fun hrank => hxk ?_⟩
      rw [hs.unique hx hmem hrank]
  · intro hy
    rcases hy with rfl | ⟨hy, hrank⟩
    · exact ⟨_, hmem, if_pos rfl⟩
    · exact ⟨y, hy, if_neg fun hyk => hrank (by rw [hyk])⟩

/-- Replacing what the cursor is at stores the key at the cursor, or else only repeats. -/
theorem putCurrent_eq_iff (hcmp : OrderedMap.Agrees customKeyCompare rank P)
    (hs : OrderedMap.Ok rank P s) (hk : P key) (hinj : ∀ x ∈ s, rank x.1 = rank key → x.1 = key)
    {old : Item} (hold : (c, old) ∈ s) :
    putCurrent s c key d = mdbPut s key d ↔ c = key ∨ ((c, d) ∈ s ∧ (key, d) ∈ s) := by
  constructor
  · intro heq
    by_cases hck : c = key
    · exact Or.inl hck
    · refine Or.inr ?_
      -- the put keeps the entry of the cursor, so the replacement has to repeat it
      have hkept : (c, old) ∈ putCurrent s c key d := by
        rw [heq]
        exact (OrderedMap.mem_put hcmp hk hs _).mpr
          (Or.inr ⟨hold, fun hrank => hck (hinj _ hold hrank)⟩)
      obtain ⟨x, hx, hxc⟩ := List.mem_map.mp hkept
      have hfst : x.1 = c := by
        by_contra hne
        rw [if_neg hne] at hxc
        exact hne (congrArg Prod.fst hxc)
      rw [if_pos hfst] at hxc
      have hd : d = old := congrArg Prod.snd hxc
      rw [← hd] at hold
      refine ⟨hold, ?_⟩
      rw [putCurrent_eq_self hs hold] at heq
      rw [heq]
      exact (OrderedMap.mem_put hcmp hk hs _).mpr (Or.inl rfl)
  · intro h
    rcases h with rfl | ⟨hc, hkd⟩
    · exact putCurrent_self hcmp hs hold
    · rw [putCurrent_eq_self hs hc]
      exact (OrderedMap.put_eq_self hcmp hs hkd).symm

end Current

/-! ### A length as flags -/

section Flags

variable {L : Type} [LinearOrder L] {rank : CustomKey → L} {P : CustomKey → Prop} {s : Store}
  {mc : Cursor} {key : CustomKey} {str : Bytes}

/-- An item of the size of the data that begins with it is the data. -/
theorem item_eq_blob {item : Item} (hlen : 32 < str.length) (hsub : str <+: item.bytes)
    (hsize : item.size = str.length) : item = .blob str := by
  have hbytes : str = item.bytes := hsub.eq_of_length hsize.symm
  cases item with
  | num x =>
      rw [hbytes, Item.bytes, length_leBytes] at hlen
      omega
  | blob b => rw [hbytes]; rfl

/-- There is always something else that reserved space may hold. -/
theorem exists_fill_ne (h : str ≠ []) : ∃ fill : Bytes, fill.length = str.length ∧ fill ≠ str := by
  cases str with
  | nil => exact absurd rfl h
  | cons b bs =>
      refine ⟨(b + 1) :: bs, rfl, fun heq => ?_⟩
      have hb : b + 1 = b := (List.cons.inj heq).1
      simp at hb

private theorem ne_put_of_mem (hcmp : OrderedMap.Agrees customKeyCompare rank P)
    (hs : OrderedMap.Ok rank P s) (hk : P key) {d d' : Item} (hne : d' ≠ d) {s' : Store}
    (hmem : (key, d') ∈ s') : s' ≠ mdbPut s key d := by
  intro heq
  rw [heq] at hmem
  rcases (OrderedMap.mem_put hcmp hk hs _).mp hmem with h | ⟨-, hrank⟩
  · exact hne (congrArg Prod.snd h)
  · exact hrank rfl

/-- Where the flags reserve, the data is not stored. -/
theorem reserve_not_stored (hcmp : OrderedMap.Agrees customKeyCompare rank P)
    (hs : OrderedMap.Ok rank P s) (hk : P key) {fill : Bytes} (hfill : fill ≠ str)
    (hcur : ¬ (str.length = mdbCurrent ∨ str.length = mdbCurrent + mdbNoSpill))
    (hres : hasFlag str.length mdbReserve = true) (mc' : Cursor) :
    mdbCursorPutOn fill s mc key (.blob str) str.length ≠
      some (mdbPut s key (.blob str), mc') := by
  have hne : Item.blob fill ≠ .blob str := fun h => hfill (Item.blob.inj h)
  have hwrong : ∀ {s' : Store} {mc' mc'' : Cursor}, (key, .blob fill) ∈ s' →
      some (s', mc'') ≠ some (mdbPut s key (.blob str), mc') := by
    intro s' mc' mc'' hmem h
    exact ne_put_of_mem hcmp hs hk hne hmem (congrArg Prod.fst (Option.some.inj h))
  unfold mdbCursorPutOn
  simp only [hres, if_true, if_neg hcur]
  split
  · simp
  · split
    · unfold putAppend
      split
      · split
        · exact hwrong (List.mem_append_right _ List.mem_cons_self)
        · simp
      · exact hwrong List.mem_cons_self
    · split
      · simp
      · exact hwrong ((OrderedMap.mem_put hcmp hk hs _).mpr (Or.inl rfl))

/-- Appending is a put where the key comes last. -/
theorem append_stored_iff (hcmp : OrderedMap.Agrees customKeyCompare rank P)
    (hs : OrderedMap.Ok rank P s) (hk : P key) {d : Item} :
    (∃ mc', putAppend s key d = some (mdbPut s key d, mc')) ↔
      ∀ last, s.getLast? = some last → 0 < customKeyCompare key last.1 := by
  unfold putAppend
  cases hlast : s.getLast? with
  | none =>
      have hnil : s = [] := List.getLast?_eq_none_iff.mp hlast
      refine iff_of_true ⟨some key, ?_⟩ (by simp)
      rw [hnil]
      rfl
  | some last =>
      have hmem : last ∈ s := List.mem_of_getLast? hlast
      by_cases hpos : 0 < customKeyCompare key last.1
      · have hlt : rank last.1 < rank key := (hcmp.pos_iff hk (hs.keys last hmem)).mp hpos
        have happend : mdbPut s key d = s ++ [(key, d)] :=
          OrderedMap.put_eq_append hcmp hk hs fun x hx =>
            lt_of_le_of_lt (hs.le_getLast hlast x hx) hlt
        refine iff_of_true ⟨some key, ?_⟩ ?_
        · simp only [if_pos hpos]
          rw [happend]
        · intro y hy
          rw [Option.some.injEq] at hy
          rw [← hy]
          exact hpos
      · refine iff_of_false ?_ fun h => hpos (h last rfl)
        simp only [if_neg hpos]
        simp

/-- With `MDB_CURRENT` the string is stored if the cursor stands where this does no harm. -/
theorem current_stored_iff (hcmp : OrderedMap.Agrees customKeyCompare rank P)
    (hs : OrderedMap.Ok rank P s) (hk : P key) (hinj : ∀ x ∈ s, rank x.1 = rank key → x.1 = key)
    (hmc : ∀ c, mc = some c → ∃ d, (c, d) ∈ s) (hmul : hasFlag str.length mdbMultiple = false)
    (hcur : str.length = mdbCurrent ∨ str.length = mdbCurrent + mdbNoSpill) (fill : Bytes) :
    (∃ mc', mdbCursorPutOn fill s mc key (.blob str) str.length =
        some (mdbPut s key (.blob str), mc')) ↔ FlagsHarmless s mc key str := by
  have hput : mdbCursorPutOn fill s mc key (.blob str) str.length = mc.map fun c =>
      (putCurrent s c key (.blob str),
        if (mdbGet s c).any (Item.blob str).overwrites then some c else some key) := by
    simp only [mdbCursorPutOn, hmul, Bool.false_eq_true, if_false, if_pos hcur]
  unfold FlagsHarmless
  rw [hput, if_pos hcur]
  constructor
  · intro h
    obtain ⟨mc', h⟩ := h
    obtain ⟨c, hc, heq⟩ := Option.map_eq_some_iff.mp h
    obtain ⟨old, hold⟩ := hmc c hc
    exact ⟨hmul, c, hc, (putCurrent_eq_iff hcmp hs hk hinj hold).mp (congrArg Prod.fst heq)⟩
  · intro h
    obtain ⟨-, c, hc, hcase⟩ := h
    obtain ⟨old, hold⟩ := hmc c hc
    rw [hc, Option.map_some, (putCurrent_eq_iff hcmp hs hk hinj hold).mpr hcase]
    exact ⟨_, rfl⟩

/-- Without it and without `MDB_RESERVE`, if the other flags let it. -/
theorem other_stored_iff (hcmp : OrderedMap.Agrees customKeyCompare rank P)
    (hs : OrderedMap.Ok rank P s) (hk : P key) (hmul : hasFlag str.length mdbMultiple = false)
    (hcur : ¬ (str.length = mdbCurrent ∨ str.length = mdbCurrent + mdbNoSpill))
    (hres : hasFlag str.length mdbReserve = false) (mc : Cursor) (fill : Bytes) :
    (∃ mc', mdbCursorPutOn fill s mc key (.blob str) str.length =
        some (mdbPut s key (.blob str), mc')) ↔ FlagsHarmless s mc key str := by
  have hput : mdbCursorPutOn fill s mc key (.blob str) str.length =
      if hasFlag str.length mdbAppend then putAppend s key (.blob str)
      else if hasFlag str.length mdbNoOverwrite && (mdbGet s key).isSome then none
      else some (mdbPut s key (.blob str), some key) := by
    simp only [mdbCursorPutOn, hmul, hres, Bool.false_eq_true, if_false, if_neg hcur]
  unfold FlagsHarmless
  rw [hput, if_neg hcur, and_iff_right hmul, and_iff_right hres]
  by_cases happ : hasFlag str.length mdbAppend = true
  · rw [if_pos happ, if_pos happ]
    exact append_stored_iff hcmp hs hk
  · rw [if_neg happ, if_neg happ]
    by_cases hno : hasFlag str.length mdbNoOverwrite = true
    · cases hget : mdbGet s key with
      | none => exact iff_of_true ⟨some key, by simp⟩ fun _ => rfl
      | some d => exact iff_of_false (by simp [hno]) fun h => absurd (h hno) (by simp)
    · refine iff_of_true ⟨some key, ?_⟩ fun h => absurd h hno
      rw [if_neg (by simp [hno])]

/-- With its length for flags, a string is stored exactly if these are harmless. -/
theorem flags_stored_iff (hcmp : OrderedMap.Agrees customKeyCompare rank P)
    (hs : OrderedMap.Ok rank P s) (hk : P key) (hinj : ∀ x ∈ s, rank x.1 = rank key → x.1 = key)
    (hmc : ∀ c, mc = some c → ∃ d, (c, d) ∈ s) (hlen : 32 < str.length) :
    (∀ fill : Bytes, fill.length = str.length → ∃ mc',
      mdbCursorPutOn fill s mc key (.blob str) str.length = some (mdbPut s key (.blob str), mc')) ↔
      FlagsHarmless s mc key str := by
  obtain ⟨fill, hfill, hne⟩ := exists_fill_ne (fun h : str = [] => by simp [h] at hlen)
  by_cases hmul : hasFlag str.length mdbMultiple = true
  · -- many items are refused before anything is looked at
    refine iff_of_false (fun h => ?_) fun h => absurd hmul (by simp [h.1])
    obtain ⟨mc', hput⟩ := h fill hfill
    simp only [mdbCursorPutOn, if_pos hmul] at hput
    exact absurd hput (by simp)
  rw [Bool.not_eq_true] at hmul
  by_cases hcur : str.length = mdbCurrent ∨ str.length = mdbCurrent + mdbNoSpill
  · have hiff := current_stored_iff hcmp hs hk hinj hmc hmul hcur
    exact ⟨fun h => (hiff fill).mp (h fill hfill), fun h fill' _ => (hiff fill').mpr h⟩
  by_cases hres : hasFlag str.length mdbReserve = true
  · -- reserved space keeps what was there
    refine iff_of_false (fun h => ?_) fun h => ?_
    · obtain ⟨mc', hput⟩ := h fill hfill
      exact reserve_not_stored hcmp hs hk hne hcur hres mc' hput
    · unfold FlagsHarmless at h
      rw [if_neg hcur] at h
      exact absurd hres (by simp [h.2.1])
  · rw [Bool.not_eq_true] at hres
    have hiff := other_stored_iff hcmp hs hk hmul hcur hres mc
    exact ⟨fun h => (hiff fill).mp (h fill hfill), fun h fill' _ => (hiff fill').mpr h⟩

end Flags

/-! ### The puts of a string -/

section Strings

variable {L : Type} [LinearOrder L] {rank : CustomKey → L} {P : CustomKey → Prop} {s : Store}
  {mc : Cursor} {key : CustomKey} {str : Bytes} {sha256 : Bytes → Value}

/--
**What `cursor_put_padded` is given it stores**, for a key and data as `handle_transact`
builds them from a string and whatever the reserved space holds, exactly if the string fits
the key, or needs padding, or its length does no harm as write flags.
-/
theorem storesPadded_iff (hcmp : OrderedMap.Agrees customKeyCompare rank P)
    (hs : OrderedMap.Ok rank P s) (hk : P key) (hinj : ∀ x ∈ s, rank x.1 = rank key → x.1 = key)
    (hmc : ∀ c, mc = some c → ∃ d, (c, d) ∈ s) (hpad : key.pad = (encodeStr sha256 str).pad) :
    (∀ fill : Bytes, fill.length = paddedSize key (encodeStr sha256 str).data →
      StoresPadded fill s mc key (encodeStr sha256 str).data) ↔
    (str.length ≤ 32 ∨ str.length % 8 ≠ 0 ∨ FlagsHarmless s mc key str) := by
  rcases encodeStr_pad_cases sha256 (s := str) with ⟨hle, hp, hdata⟩ | ⟨hlen, h7, h0, hmod, hdata⟩
  · -- a short string: no data, and so no flags
    refine iff_of_true (fun fill _ => ⟨.blob [], some key, ?_, ?_, ?_⟩) (Or.inl hle)
    · rw [hdata, cursorPutPaddedOn, if_neg (by omega)]
      simp [mdbCursorPutOn, hasFlag, mdbCurrent, mdbNoSpill]
    · rw [hdata]
      exact List.nil_prefix
    · rw [hdata, paddedSize, show (-key.pad).toNat = 0 by omega]
      rfl
  · rw [hdata]
    by_cases hneg : key.pad < 0
    · -- the space is reserved and the data copied into it
      refine iff_of_true (fun fill hfill => ⟨_, some key, if_pos hneg, ?_, ?_⟩) (by omega)
      · exact List.prefix_append _ _
      · simp only [Item.size, Item.bytes, List.length_append, List.length_drop, hfill, paddedSize]
        omega
    · have hzero : (-key.pad).toNat = 0 := by omega
      have hsize : paddedSize key str = str.length := by rw [paddedSize, hzero, Nat.add_zero]
      have hstores : ∀ fill, StoresPadded fill s mc key str ↔ ∃ mc',
          mdbCursorPutOn fill s mc key (.blob str) str.length =
            some (mdbPut s key (.blob str), mc') := by
        intro fill
        unfold StoresPadded cursorPutPaddedOn
        rw [if_neg hneg, hsize]
        constructor
        · intro h
          obtain ⟨item, mc', hput, hsub, hitem⟩ := h
          rw [item_eq_blob hlen hsub hitem] at hput
          exact ⟨mc', hput⟩
        · intro h
          obtain ⟨mc', hput⟩ := h
          exact ⟨.blob str, mc', hput, List.prefix_refl _, rfl⟩
      rw [hsize]
      simp only [hstores]
      rw [flags_stored_iff hcmp hs hk hinj hmc hlen]
      constructor
      · intro h
        exact Or.inr (Or.inr h)
      · intro h
        rcases h with h | h | h
        · omega
        · omega
        · exact h

end Strings

/-- The key under which a transaction stores a string of `n` letters. -/
def lettersKey (n : Nat) : CustomKey :=
  { datomKey ⟨0, 1, [], []⟩ 60 50 (encodeStr .ofBytes (List.replicate n 65)) false with
    sort := sortEATV }

private theorem lettersKey_inRange : InRange (lettersKey 48) := by
  refine ⟨Or.inr (Or.inr ⟨Or.inr rfl, Or.inl rfl⟩), ?_, ?_, ?_, ?_, ?_, fun h => ?_⟩
  · decide
  · decide
  · decide
  · decide
  · decide
  · exact absurd h (by decide)

/-- A string of 48 bytes asks not to overwrite, which is harmless the first time. -/
theorem storesPadded_letters :
    StoresPadded (List.replicate 48 0) (dbOpen .calm []) none (lettersKey 48)
      (List.replicate 48 65) := by
  have hnew : ∀ x ∈ dbOpen .calm [], x.1.coords ≠ (lettersKey 48).coords := by decide +kernel
  have hget : mdbGet (dbOpen .calm []) (lettersKey 48) = none := by decide +kernel
  have hharmless : FlagsHarmless (dbOpen .calm []) none (lettersKey 48) (List.replicate 48 65) := by
    refine ⟨by decide, ?_⟩
    rw [if_neg (by decide)]
    refine ⟨by decide, ?_⟩
    rw [if_neg (by decide)]
    exact fun _ => hget
  have hpad : (lettersKey 48).pad = (encodeStr .ofBytes (List.replicate 48 65)).pad := by decide
  exact (storesPadded_iff agrees_inRange (sound_dbOpen .calm).ok lettersKey_inRange
    (fun x hx hrank => absurd hrank (hnew x hx)) (fun c hc => absurd hc (by simp)) hpad).mpr
    (Or.inr (Or.inr hharmless)) (List.replicate 48 0) (by decide)

/-- One of 64 bytes asks to replace what the cursor is at, and fails where that is nothing. -/
theorem not_storesPadded_fresh :
    ¬ ∀ fill : Bytes, fill.length = paddedSize (lettersKey 64)
        (encodeStr .ofBytes (List.replicate 64 65)).data →
      StoresPadded fill (dbOpen .calm []) none (lettersKey 64)
        (encodeStr .ofBytes (List.replicate 64 65)).data := by
  intro h
  obtain ⟨item, mc', hput, -⟩ := h (List.replicate 64 0) (by decide)
  have hnone : cursorPutPaddedOn (List.replicate 64 0) (dbOpen .calm []) none (lettersKey 64)
      (encodeStr .ofBytes (List.replicate 64 65)).data = none := by
    decide +kernel
  rw [hnone] at hput
  exact absurd hput (by simp)

end Nstore

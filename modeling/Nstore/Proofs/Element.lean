/-
How the loop of `handle_transact` reads its elements.

A round first reads its element, which depends on the ids handed out so far and on
nothing else: `readElement`.  Then it either stops, skips the element, or inserts
the `Write` it read.  For numbers in range and strings that are put plainly the
keys of a write are in range, and both puts of it go through.
-/
import Nstore.Proofs.Setup

namespace Nstore

open LexDiff

/-! ### Reading an element -/

/-- What an element with a value asks for. -/
structure Write where
  e : Int
  a : Int
  enc : Encoded
  retract : Bool

/-- The value position: what to write, or nothing if the element is skipped. -/
def readValue (sha256 : Bytes → Value) (eRef : List Int) (ids : Ids) (e a : Int) (v r : Json) :
    Ids × Option Write :=
  match v with
  | .int64 x =>
      ((resolveValue eRef ids a x.toInt).2,
        some ⟨e, a, encodeInt (resolveValue eRef ids a x.toInt).1, retractFlag r⟩)
  | .string str => (ids, some ⟨e, a, encodeStr sha256 str, retractFlag r⟩)
  | _ => (ids, none)

/-- An element, `none` if its shape or its entity is refused. -/
def readElement (sha256 : Bytes → Value) (eRef : List Int) (ids : Ids) (v : Json) :
    Option (Ids × Option Write) :=
  match v with
  | .array [.int64 e, .int64 a, jv, jr] =>
      (resolveEntity ids e.toInt).map fun (e, ids) => readValue sha256 eRef ids e a.toInt jv jr
  | _ => none

/-- What a round does with what it read. -/
def insertWrite (o : Oracle) (i : Nat) (txn : Txn) (st : TxnState) (w : Write) : Option TxnState :=
  if 32 < w.enc.data.length && o.fails (.sha256 i) then none
  else insertFact o i txn st w.e w.a w.enc w.retract

@[simp] theorem encodeStr_type (sha256 : Bytes → Value) (str : Bytes) :
    (encodeStr sha256 str).type = .keyBlob := by
  unfold encodeStr
  split <;> rfl

@[simp] theorem encodeStr_shown (sha256 : Bytes → Value) (str : Bytes) :
    (encodeStr sha256 str).shown = .str str := by
  unfold encodeStr
  split <;> rfl

theorem encodeStr_pad_range (sha256 : Bytes → Value) (str : Bytes) :
    -2 ^ 15 ≤ (encodeStr sha256 str).pad ∧ (encodeStr sha256 str).pad < 2 ^ 15 := by
  unfold encodeStr
  split
  · by_cases h8 : str.length % 8 = 0
    · simp [h8]
    · simp only [if_neg h8]
      omega
  · show -2 ^ 15 ≤ (str.length : Int) + 1 ∧ (str.length : Int) + 1 < 2 ^ 15
    omega

private theorem length_encodeStr_data (sha256 : Bytes → Value) (str : Bytes) :
    32 < (encodeStr sha256 str).data.length ↔ 32 < str.length := by
  unfold encodeStr
  by_cases h : str.length > 32
  · rw [if_pos h]
  · rw [if_neg h]
    exact ⟨fun hc => absurd hc (by simp), fun hc => absurd hc h⟩

private theorem transactValue_eq (sha256 : Bytes → Value) (o : Oracle) (i : Nat) (txn : Txn)
    (st : TxnState) (e a : Int) (v r : Json) :
    transactValue sha256 o i txn st e a v r =
      match readValue sha256 txn.eRef st.ids e a v r with
      | (ids, none) => some { st with ids := ids }
      | (ids, some w) => insertWrite o i txn { st with ids := ids } w := by
  cases v with
  | int64 x =>
      simp only [transactValue, readValue, insertWrite, encodeInt]
      rfl
  | string str =>
      simp only [transactValue, readValue, insertWrite, length_encodeStr_data]
  | _ => rfl

/-- A round reads its element and then skips or inserts. -/
theorem transactFact_eq (sha256 : Bytes → Value) (o : Oracle) (i : Nat) (txn : Txn)
    (st : TxnState) (v : Json) :
    transactFact sha256 o i txn st v =
      (readElement sha256 txn.eRef st.ids v).bind fun
        | (ids, none) => some { st with ids := ids }
        | (ids, some w) => insertWrite o i txn { st with ids := ids } w := by
  unfold transactFact readElement
  split
  · rename_i je ja jv jr
    cases ja with
    | int64 a =>
        cases je with
        | int64 e =>
            simp only
            cases resolveEntity st.ids e.toInt with
            | none => rfl
            | some p => exact transactValue_eq sha256 o i txn { st with ids := p.2 } p.1 _ jv jr
        | _ => rfl
    | _ => cases je <;> rfl
  · rename_i h
    split
    · rename_i e a jv jr
      exact absurd rfl (h _ _ _ _)
    · rfl

/-- What a round that does not stop has done. -/
theorem transactFact_cases {sha256 : Bytes → Value} {o : Oracle} {i : Nat} {txn : Txn}
    {st st' : TxnState} {v : Json} (h : transactFact sha256 o i txn st v = some st') :
    ∃ ids, (readElement sha256 txn.eRef st.ids v = some (ids, none) ∧ st' = { st with ids := ids }) ∨
      ∃ w, readElement sha256 txn.eRef st.ids v = some (ids, some w) ∧
        insertWrite o i txn { st with ids := ids } w = some st' := by
  rw [transactFact_eq] at h
  cases hr : readElement sha256 txn.eRef st.ids v with
  | none => rw [hr] at h; exact absurd h (by simp)
  | some p =>
      obtain ⟨ids, w⟩ := p
      rw [hr] at h
      cases w with
      | none => exact ⟨ids, Or.inl ⟨rfl, by simpa using h.symm⟩⟩
      | some w => exact ⟨ids, Or.inr ⟨w, rfl, h⟩⟩

/-! ### The ids given out -/

/-- Ids are given out from the counter up, so they lie between the base facts and it. -/
structure Ids.Ok (ids : Ids) : Prop where
  initial : dbInitialId ≤ ids.id
  given : ∀ p ∈ ids.newIds, dbInitialId ≤ p.2 ∧ p.2 < ids.id

theorem Ids.resolve_spec {ids : Ids} (h : ids.Ok) (x : Int) :
    (ids.resolve x).2.Ok ∧ ids.id ≤ (ids.resolve x).2.id ∧
      dbInitialId ≤ (ids.resolve x).1 ∧ (ids.resolve x).1 < (ids.resolve x).2.id := by
  unfold Ids.resolve
  split
  · rename_i id hlookup
    obtain ⟨l, r, hl, -⟩ := List.lookup_eq_some_iff.mp hlookup
    obtain ⟨h1, h2⟩ := h.given (x, id) (by simp [hl])
    exact ⟨h, le_refl _, h1, h2⟩
  · refine ⟨⟨by have := h.initial; show dbInitialId ≤ ids.id + 1; omega, fun p hp => ?_⟩, ?_,
      h.initial, ?_⟩
    · rcases List.mem_append.mp hp with hp | hp
      · have := h.given p hp
        exact ⟨this.1, by show p.2 < ids.id + 1; omega⟩
      · rw [List.mem_singleton.mp hp]
        exact ⟨h.initial, by show ids.id < ids.id + 1; omega⟩
    · show ids.id ≤ ids.id + 1; omega
    · show ids.id < ids.id + 1; omega

/-! ### Writes in range -/

/-- A value in range, or a string that is stored as it is. -/
def Encoded.Ok (sha256 : Bytes → Value) (enc : Encoded) : Prop :=
  (∃ x, (-2 ^ 29 ≤ x ∧ x < 2 ^ 29) ∧ enc = encodeInt x) ∨
    ∃ str, (Json.string str).StoredAsIs ∧ enc = encodeStr sha256 str

structure Write.Ok (sha256 : Bytes → Value) (w : Write) : Prop where
  e_range : dbInitialId ≤ w.e ∧ w.e < 2 ^ 29
  a_range : -2 ^ 29 ≤ w.a ∧ w.a < 2 ^ 29
  enc : w.enc.Ok sha256

theorem resolveEntity_spec {ids ids' : Ids} (h : ids.Ok) {x e : Int}
    (hr : resolveEntity ids x = some (e, ids')) :
    ids'.Ok ∧ ids.id ≤ ids'.id ∧ dbInitialId ≤ e ∧ (e < ids'.id ∨ e = x) := by
  unfold resolveEntity at hr
  split at hr
  · obtain ⟨h1, h2, h3, h4⟩ := Ids.resolve_spec h x
    rw [Option.some.injEq] at hr
    rw [hr] at h1 h2 h3 h4
    exact ⟨h1, h2, h3, Or.inl h4⟩
  · split at hr
    · exact absurd hr (by simp)
    · rw [Option.some.injEq, Prod.mk.injEq] at hr
      obtain ⟨rfl, rfl⟩ := hr
      exact ⟨h, le_refl _, by omega, Or.inr rfl⟩

private theorem resolveValue_spec {ids : Ids} (h : ids.Ok) (eRef : List Int) (a x : Int) :
    (resolveValue eRef ids a x).2.Ok ∧ ids.id ≤ (resolveValue eRef ids a x).2.id ∧
      ((dbInitialId ≤ (resolveValue eRef ids a x).1 ∧
        (resolveValue eRef ids a x).1 < (resolveValue eRef ids a x).2.id) ∨
        (resolveValue eRef ids a x).1 = x) := by
  unfold resolveValue
  split
  · obtain ⟨h1, h2, h3, h4⟩ := Ids.resolve_spec h x
    exact ⟨h1, h2, Or.inl ⟨h3, h4⟩⟩
  · exact ⟨h, le_refl _, Or.inr rfl⟩

/-- Reading an element hands out ids in order, and reads a write in range. -/
theorem readElement_spec {sha256 : Bytes → Value} {eRef : List Int} {ids ids' : Ids} (h : ids.Ok)
    {v : Json} {w : Option Write} (hr : readElement sha256 eRef ids v = some (ids', w)) :
    ids'.Ok ∧ ids.id ≤ ids'.id ∧
      (v.FactInRange → ids'.id ≤ 2 ^ 29 → ∀ x ∈ w, x.Ok sha256) := by
  unfold readElement at hr
  split at hr
  · rename_i e a jv jr
    rw [Option.map_eq_some_iff] at hr
    obtain ⟨⟨e', ids₁⟩, he, hr⟩ := hr
    obtain ⟨hok, hle, h11, hlt⟩ := resolveEntity_spec h he
    cases jv with
    | int64 x =>
        simp only [readValue, Prod.mk.injEq] at hr
        obtain ⟨rfl, rfl⟩ := hr
        obtain ⟨hok', hle', hx⟩ := resolveValue_spec hok eRef a.toInt x.toInt
        refine ⟨hok', by omega, fun hv hid w hw => ?_⟩
        obtain ⟨h1, h2, h3, -⟩ := hv
        rw [Option.mem_def, Option.some.injEq] at hw
        subst hw
        simp only [Json.InRange] at h1 h2 h3
        simp only [dbInitialId] at *
        refine ⟨⟨h11, ?_⟩, h2, Or.inl ⟨_, ?_, rfl⟩⟩
        · show e' < 2 ^ 29; omega
        · omega
    | string str =>
        simp only [readValue, Prod.mk.injEq] at hr
        obtain ⟨rfl, rfl⟩ := hr
        refine ⟨hok, hle, fun hv hid w hw => ?_⟩
        obtain ⟨h1, h2, -, h4⟩ := hv
        rw [Option.mem_def, Option.some.injEq] at hw
        subst hw
        simp only [Json.InRange] at h1
        refine ⟨⟨h11, ?_⟩, h2, Or.inr ⟨str, h4, rfl⟩⟩
        show e' < 2 ^ 29
        omega
    | _ =>
        simp only [readValue, Prod.mk.injEq] at hr
        obtain ⟨rfl, rfl⟩ := hr
        exact ⟨hok, hle, fun _ _ w hw => absurd hw (by simp)⟩
  · exact absurd hr (by simp)

/-! ### Values and their keys -/

/-- How a value that a reply shows is stored. -/
def encodeFact (sha256 : Bytes → Value) : FactValue → Encoded
  | .int x => encodeInt x
  | .str s => encodeStr sha256 s

theorem take_ofBytes {s : Bytes} (h : s.length ≤ 32) : (Value.ofBytes s).bytes.take s.length = s := by
  show ((s ++ List.replicate 32 0).take 32).take s.length = s
  rw [List.take_take, min_eq_left h, List.take_left]

/-- An encoding tells what it shows, and is determined by it. -/
theorem Encoded.Ok.eq_encodeFact {sha256 : Bytes → Value} {enc : Encoded} (h : enc.Ok sha256) :
    enc = encodeFact sha256 enc.shown := by
  rcases h with ⟨x, -, rfl⟩ | ⟨str, -, rfl⟩
  · rfl
  · rw [encodeStr_shown]
    rfl

/-- What an element asks for is about no base entity, and encoded as it is shown. -/
theorem readElement_write {sha256 : Bytes → Value} {eRef : List Int} {ids ids' : Ids} (h : ids.Ok)
    {v : Json} {w : Write} (hr : readElement sha256 eRef ids v = some (ids', some w)) :
    dbInitialId ≤ w.e ∧ w.enc = encodeFact sha256 w.enc.shown := by
  unfold readElement at hr
  split at hr
  · rename_i e a jv jr
    rw [Option.map_eq_some_iff] at hr
    obtain ⟨⟨e', ids₁⟩, he, hr⟩ := hr
    have h11 := (resolveEntity_spec h he).2.2.1
    cases jv with
    | int64 x =>
        simp only [readValue, Prod.mk.injEq, Option.some.injEq] at hr
        obtain ⟨-, rfl⟩ := hr
        exact ⟨h11, rfl⟩
    | string str =>
        simp only [readValue, Prod.mk.injEq, Option.some.injEq] at hr
        obtain ⟨-, rfl⟩ := hr
        exact ⟨h11, by rw [encodeStr_shown]; rfl⟩
    | _ => exact absurd hr (by simp [readValue])
  · exact absurd hr (by simp)

/-! ### The puts -/

/-- The data item of a value. -/
def Encoded.item (enc : Encoded) : Item :=
  .blob (enc.data ++ List.replicate (-enc.pad).toNat 0)

/-- The puts of one datom: `EATV` always, `AETV` for schema attributes. -/
def putBoth (s : Store) (ck : CustomKey) (d : Item) : Store :=
  if ck.a < dbInitialId then
    mdbPut (mdbPut s { ck with sort := sortEATV } d) { ck with sort := sortAETV } d
  else mdbPut s { ck with sort := sortEATV } d

/-- A value whose put passes no flags. -/
def Encoded.Plain (enc : Encoded) : Prop := enc.pad < 0 ∨ (0 ≤ enc.pad ∧ enc.data = [])

theorem encodeInt_plain (x : Int) : (encodeInt x).Plain := Or.inr ⟨le_refl _, rfl⟩

theorem encodeStr_plain (sha256 : Bytes → Value) {str : Bytes}
    (h : str.length ≤ 32 ∨ str.length % 8 ≠ 0) : (encodeStr sha256 str).Plain := by
  unfold encodeStr
  by_cases hlen : str.length > 32
  · rw [if_pos hlen]
    have h8 : str.length % 8 ≠ 0 := by omega
    refine Or.inl ?_
    simp only [if_neg h8]
    omega
  · rw [if_neg hlen]
    exact Or.inr ⟨by show (0 : Int) ≤ str.length + 1; omega, rfl⟩

/-- A plain element asks for a plain value. -/
theorem readElement_plain {sha256 : Bytes → Value} {eRef : List Int} {ids ids' : Ids} {v : Json}
    {w : Write} (hv : v.FactPlain) (hr : readElement sha256 eRef ids v = some (ids', some w)) :
    w.enc.Plain := by
  unfold readElement at hr
  split at hr
  · rename_i e a jv jr
    rw [Option.map_eq_some_iff] at hr
    obtain ⟨⟨e', ids₁⟩, -, hr⟩ := hr
    cases jv with
    | int64 x =>
        simp only [readValue, Prod.mk.injEq, Option.some.injEq] at hr
        obtain ⟨-, rfl⟩ := hr
        exact encodeInt_plain _
    | string str =>
        simp only [readValue, Prod.mk.injEq, Option.some.injEq] at hr
        obtain ⟨-, rfl⟩ := hr
        exact encodeStr_plain sha256 hv
    | _ => exact absurd hr (by simp [readValue])
  · exact absurd hr (by simp)

theorem Encoded.Ok.cases {sha256 : Bytes → Value} {enc : Encoded} (h : enc.Ok sha256) :
    enc.Plain ∨ (enc.pad = 0 ∧ HarmlessFlags enc.data.length) := by
  rcases h with ⟨x, -, rfl⟩ | ⟨str, hstr, rfl⟩
  · exact Or.inl (encodeInt_plain x)
  · by_cases hplain : str.length ≤ 32 ∨ str.length % 8 ≠ 0
    · exact Or.inl (encodeStr_plain sha256 hplain)
    · push Not at hplain
      obtain ⟨hlen, h8⟩ := hplain
      have hharmless : HarmlessFlags str.length := by
        rcases hstr with h | h | h
        · omega
        · omega
        · exact h
      refine Or.inr ?_
      unfold encodeStr
      rw [if_pos hlen, if_pos h8]
      exact ⟨rfl, hharmless⟩

private theorem putAppend_cases {s : Store} {k : CustomKey} {d : Item} {sm : Store × Cursor}
    (h : putAppend s k d = some sm) :
    (∀ last, s.getLast? = some last → 0 < customKeyCompare k last.1) ∧
      sm = (s ++ [(k, d)], some k) := by
  unfold putAppend at h
  split at h
  · rename_i last hlast
    split at h
    · rename_i hcmp
      rw [Option.some.injEq] at h
      refine ⟨fun x hx => ?_, h.symm⟩
      rw [hlast, Option.some.injEq] at hx
      exact hx ▸ hcmp
    · cases h
  · rename_i hnil
    rw [Option.some.injEq] at h
    refine ⟨fun x hx => ?_, ?_⟩
    · rw [hnil] at hx
      cases hx
    · rw [List.getLast?_eq_none_iff.mp hnil]
      exact h.symm

/-- **What a cursor put does**, whatever its flags: it replaces, appends or puts. -/
theorem mdbCursorPut_cases {s : Store} {mc : Cursor} {k : CustomKey} {d : Item} {flags : Nat}
    {sm : Store × Cursor} (h : mdbCursorPut s mc k d flags = some sm) :
    (∃ c, mc = some c ∧ (flags = mdbCurrent ∨ flags = mdbCurrent + mdbNoSpill) ∧
      sm.1 = putCurrent s c k d ∧ (sm.2 = some c ∨ sm.2 = some k)) ∨
    ∃ item, (hasFlag flags mdbReserve = false → item = d) ∧ sm.2 = some k ∧
      (((∀ last, s.getLast? = some last → 0 < customKeyCompare k last.1) ∧
        sm.1 = s ++ [(k, item)]) ∨ sm.1 = mdbPut s k item) := by
  unfold mdbCursorPut mdbCursorPutOn at h
  simp only at h
  split at h
  · cases h
  · split at h
    · rename_i hcur
      obtain ⟨c, hc, rfl⟩ := Option.map_eq_some_iff.mp h
      refine .inl ⟨c, hc, hcur, rfl, ?_⟩
      dsimp only
      split
      · exact .inl rfl
      · exact .inr rfl
    · right
      split at h
      · obtain ⟨hlast, rfl⟩ := putAppend_cases h
        exact ⟨_, fun hr => if_neg (by simp [hr]), rfl, .inl ⟨hlast, rfl⟩⟩
      · split at h
        · cases h
        · rw [Option.some.injEq] at h
          subst h
          exact ⟨_, fun hr => if_neg (by simp [hr]), rfl, .inr rfl⟩

/-- Without flags the cursor put is a put. -/
theorem mdbCursorPut_zero (s : Store) (mc : Cursor) (k : CustomKey) (d : Item) :
    mdbCursorPut s mc k d 0 = some (mdbPut s k d, some k) := by
  simp [mdbCursorPut, mdbCursorPutOn, hasFlag, mdbCurrent, mdbNoSpill]

/-- With harmless flags it is one too, where it does not fail. -/
theorem mdbCursorPut_harmless {s : Store} (hs : StoreOk s) {mc : Cursor} {k : CustomKey}
    (hk : InRange k) {d : Item} {flags : Nat} (hf : HarmlessFlags flags) {sm : Store × Cursor}
    (h : mdbCursorPut s mc k d flags = some sm) : sm.1 = mdbPut s k d := by
  obtain ⟨hne, hne', hreserve⟩ := hf
  rcases mdbCursorPut_cases h with ⟨c, -, hcur, -⟩ | ⟨item, hitem, -, ⟨hlast, hsm⟩ | hsm⟩
  · rcases hcur with hcur | hcur
    · exact absurd hcur hne
    · exact absurd hcur hne'
  · -- appending beyond the last key is a put
    have hbeyond : ∀ x ∈ s, x.1.coords < k.coords := by
      intro x hx
      cases hnil : s.getLast? with
      | none =>
          rw [List.getLast?_eq_none_iff] at hnil
          exact absurd hx (by simp [hnil])
      | some last =>
          have hmem : last ∈ s := List.mem_of_getLast? hnil
          have hlt : last.1.coords < k.coords :=
            (OrderedMap.Agrees.pos_iff agrees_inRange hk (hs.keys last hmem)).mp (hlast last hnil)
          exact lt_of_le_of_lt (hs.le_getLast hnil x hx) hlt
    rw [hsm, hitem hreserve]
    exact (OrderedMap.put_eq_append agrees_inRange hk hs hbeyond).symm
  · rw [hsm, hitem hreserve]

/-! ### The padded put -/

theorem cursorPutPadded_of_neg {key : CustomKey} (h : key.pad < 0) (s : Store) (mc : Cursor)
    (data : Bytes) : cursorPutPadded s mc key data =
      some (mdbPut s key (.blob (data ++ List.replicate (-key.pad).toNat 0)), some key) := by
  unfold cursorPutPadded cursorPutPaddedOn
  rw [if_pos h, List.drop_replicate, Nat.add_sub_cancel_left]

theorem cursorPutPadded_of_nonneg {key : CustomKey} (h : ¬ key.pad < 0) (s : Store) (mc : Cursor)
    (data : Bytes) :
    cursorPutPadded s mc key data = mdbCursorPut s mc key (.blob data) data.length := by
  have h0 : (-key.pad).toNat = 0 := by omega
  unfold cursorPutPadded cursorPutPaddedOn
  rw [if_neg h, h0]
  rfl

theorem cursorPutPadded_plain {enc : Encoded} (h : enc.Plain) (s : Store) (mc : Cursor)
    (k : CustomKey) (hpad : k.pad = enc.pad) :
    cursorPutPadded s mc k enc.data = some (mdbPut s k enc.item, some k) := by
  unfold Encoded.item
  rw [← hpad]
  rcases h with hneg | ⟨hpos, hdata⟩
  · exact cursorPutPadded_of_neg (hpad ▸ hneg) s mc enc.data
  · have h0 : (-k.pad).toNat = 0 := by omega
    rw [cursorPutPadded_of_nonneg (by omega), hdata, h0]
    exact mdbCursorPut_zero s mc k _

private theorem cursorPutPadded_eq {sha256 : Bytes → Value} {enc : Encoded} (h : enc.Ok sha256)
    {s : Store} (hs : StoreOk s) {mc : Cursor} {k : CustomKey} (hk : InRange k)
    (hpad : k.pad = enc.pad) {sm : Store × Cursor}
    (hput : cursorPutPadded s mc k enc.data = some sm) : sm.1 = mdbPut s k enc.item := by
  rcases h.cases with hplain | ⟨h0, hf⟩
  · rw [cursorPutPadded_plain hplain s mc k hpad, Option.some.injEq] at hput
    rw [← hput]
  · rw [cursorPutPadded_of_nonneg (by omega)] at hput
    rw [mdbCursorPut_harmless hs hk hf hput, Encoded.item, h0]
    simp

theorem putDatom_eq {sha256 : Bytes → Value} {enc : Encoded} (h : enc.Ok sha256)
    {o : Oracle} {i : Nat} {s : Store} (hs : StoreOk s) {mc : Cursor} {k : CustomKey}
    (hkE : InRange { k with sort := sortEATV }) (hkA : InRange { k with sort := sortAETV })
    (hpad : k.pad = enc.pad) {sm : Store × Cursor}
    (hput : putDatom o i (s, mc) k enc.data = some sm) : sm.1 = putBoth s k enc.item := by
  have hsorted : ∀ sort s mc sm, StoreOk s → InRange { k with sort := sort } →
      putSorted o i sort (s, mc) k enc.data = some sm →
      sm.1 = mdbPut s { k with sort := sort } enc.item := by
    intro sort s mc sm hs hk hput
    unfold putSorted at hput
    split at hput
    · exact absurd hput (by simp)
    · exact cursorPutPadded_eq h hs hk hpad hput
  unfold putDatom at hput
  rw [Option.bind_eq_some_iff] at hput
  obtain ⟨⟨s₁, mc₁⟩, h1, h2⟩ := hput
  have h1 : s₁ = _ := hsorted _ _ _ _ hs hkE h1
  unfold putBoth
  split at h2
  · rename_i ha
    rw [if_pos ha, ← h1]
    exact hsorted _ _ _ _ (h1 ▸ mdbPut_ok hs hkE) hkA h2
  · rename_i ha
    rw [Option.some.injEq] at h2
    rw [if_neg ha, ← h2, h1]

/-- Where no call fails a plain put goes through. -/
theorem putDatom_faultless {enc : Encoded} (h : enc.Plain) {o : Oracle} (ho : o.Faultless)
    (i : Nat) (s : Store) (mc : Cursor) {k : CustomKey} (hpad : k.pad = enc.pad) :
    ∃ mc', putDatom o i (s, mc) k enc.data = some (putBoth s k enc.item, mc') := by
  have hsorted : ∀ sort s mc, putSorted o i sort (s, mc) k enc.data =
      some (mdbPut s { k with sort := sort } enc.item, some { k with sort := sort }) := by
    intro sort s mc
    unfold putSorted
    rw [ho, if_neg (by simp)]
    exact cursorPutPadded_plain h s mc { k with sort := sort } hpad
  unfold putDatom putBoth
  rw [hsorted, Option.bind_some]
  split
  · rw [hsorted]
    exact ⟨_, rfl⟩
  · exact ⟨_, rfl⟩

/-! ### The keys of a write -/

/-- A transaction whose namespace and number are in range. -/
structure Txn.Ok (txn : Txn) : Prop where
  ns_lt : txn.ns < 2 ^ 31
  tx_range : 0 ≤ txn.tx ∧ txn.tx < 2 ^ 29

/-- The datom key of a write, in a sort order. -/
def Write.key (txn : Txn) (w : Write) (sort : Nat) : CustomKey :=
  { datomKey txn w.e w.a w.enc w.retract with sort := sort }

private theorem datomT_eq {tx : Int} (h0 : 0 ≤ tx) (h1 : tx < 2 ^ 62) (retract : Bool) :
    datomT tx retract = 2 * tx + if retract then 1 else 0 := by
  unfold datomT
  rw [toInt64_eq_self (by omega) (by omega)]

section Keys

variable {sha256 : Bytes → Value} {txn : Txn} {w : Write} {sort : Nat}

theorem Encoded.Ok.type {enc : Encoded} (h : enc.Ok sha256) :
    enc.type = .keyInteger ∨ enc.type = .keyBlob := by
  rcases h with ⟨x, -, rfl⟩ | ⟨str, -, rfl⟩
  · exact Or.inl rfl
  · exact Or.inr (encodeStr_type sha256 str)

theorem Encoded.Ok.pad_range {enc : Encoded} (h : enc.Ok sha256) :
    -2 ^ 15 ≤ enc.pad ∧ enc.pad < 2 ^ 15 := by
  rcases h with ⟨x, -, rfl⟩ | ⟨str, -, rfl⟩
  · exact ⟨by show (-2 ^ 15 : Int) ≤ 0; norm_num, by show (0 : Int) < 2 ^ 15; norm_num⟩
  · exact encodeStr_pad_range sha256 str

theorem Encoded.Ok.i_range {enc : Encoded} (h : enc.Ok sha256) (hi : enc.type = .keyInteger) :
    -2 ^ 29 ≤ enc.v.i ∧ enc.v.i < 2 ^ 29 := by
  rcases h with ⟨x, hx, rfl⟩ | ⟨str, -, rfl⟩
  · show -2 ^ 29 ≤ (Value.zero.setI x).i ∧ (Value.zero.setI x).i < 2 ^ 29
    rw [Value.i_setI _ ⟨by omega, by omega⟩]
    exact hx
  · rw [encodeStr_type] at hi
    exact absurd hi (by simp)

theorem Write.key_isDatom (hw : w.Ok sha256) (hsort : sort = sortEATV ∨ sort = sortAETV) :
    (w.key txn sort).IsDatom := ⟨hw.enc.type, hsort⟩

theorem Write.key_t (htx : txn.Ok) : (w.key txn sort).t = 2 * txn.tx + if w.retract then 1 else 0 :=
  datomT_eq htx.tx_range.1 (by have := htx.tx_range.2; omega) w.retract

theorem Write.key_inRange (htx : txn.Ok) (hw : w.Ok sha256)
    (hsort : sort = sortEATV ∨ sort = sortAETV) : InRange (w.key txn sort) := by
  have he := hw.e_range
  have ht := htx.tx_range
  simp only [dbInitialId] at he
  refine ⟨Or.inr (Or.inr (Write.key_isDatom hw hsort)), htx.ns_lt, ?_, hw.a_range, ?_,
    hw.enc.pad_range, hw.enc.i_range⟩
  · show -2 ^ 29 ≤ w.e ∧ w.e < 2 ^ 29
    omega
  · rw [Write.key_t htx]
    split <;> omega

/-- Whether a datom has the fields of a write does not depend on the sort order. -/
theorem Write.coords_ne_iff (hw : w.Ok sha256) {x : CustomKey} (hx : x.IsDatom)
    (hxs : x.sort = sort) :
    x.coords = (w.key txn sort).coords ↔
      x.ns = txn.ns ∧ x.e = w.e ∧ x.a = w.a ∧ x.tv = (w.key txn sortEATV).tv := by
  rw [coords_eq_datom hx (Write.key_isDatom hw (hxs ▸ hx.2))]
  constructor
  · rintro ⟨h1, -, h3, h4, h5⟩
    exact ⟨h1, h3, h4, h5⟩
  · rintro ⟨h1, h3, h4, h5⟩
    exact ⟨h1, hxs, h3, h4, h5⟩

end Keys

end Nstore

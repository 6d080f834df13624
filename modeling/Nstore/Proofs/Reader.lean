/-
The reader: what is left of a text, and how much fuel it takes.

Whatever is read takes something from the text, so the functions that call each other
come to an end, and more fuel than `fuelOf` changes nothing.  White space after a text
changes nothing either: the reader passes over it where it may stand, and where it may
not there is nothing left that could make the text complete.
-/
import Nstore.Reader

namespace Nstore

namespace Reader

/-! ### What is left -/

theorem consume_eq_some {is is' : Bytes} {c : UInt8} : consume is c = some is' ↔ is = c :: is' := by
  unfold consume
  cases is with
  | nil => simp
  | cons b is =>
      simp only [List.head?_cons, Option.some.injEq, List.tail_cons]
      split
      · rename_i h
        simp [h]
      · rename_i h
        simp [h]

theorem consume_cons (c : UInt8) (is : Bytes) : consume (c :: is) c = some is :=
  consume_eq_some.mpr rfl

theorem consume_cons_ne {b c : UInt8} (h : b ≠ c) (is : Bytes) : consume (b :: is) c = none := by
  simp [consume, h]

theorem consume_cons_eq (b c : UInt8) (is : Bytes) :
    consume (b :: is) c = if b = c then some is else none := by
  split
  · rename_i h
    rw [h, consume_cons]
  · rename_i h
    exact consume_cons_ne h is

theorem parseHex_cons (i codepoint : Nat) (c : UInt8) (is : Bytes) :
    parseHex (i + 1) codepoint (c :: is) =
      (hexValue c).bind fun d => parseHex i (codepoint * 16 + d) is := rfl

theorem parseEscape_cons (c : UInt8) (is : Bytes) :
    parseEscape (c :: is) =
      if escape c ≠ 0 then some ([escape c], is)
      else if c = 117 then (parseCodepoint is).map fun r => (encodeUtf8 r.1, r.2)
      else none := rfl

theorem parseStringToStream_cons (fuel : Nat) (c : UInt8) (is : Bytes) :
    parseStringToStream (fuel + 1) (c :: is) =
      if c = 92 then
        (parseEscape is).bind fun r =>
          (parseStringToStream fuel r.2).map fun r' => (r.1 ++ r'.1, r'.2)
      else if c = 34 then some ([], is)
      else if c < 32 then none
      else (parseStringToStream fuel is).map fun r => (c :: r.1, r.2) := rfl

theorem parseValue_cons (fuel : Nat) (c : UInt8) (is : Bytes) :
    parseValue (fuel + 1) (c :: is) =
      if c = 110 then (consumeAll is (ascii "ull")).map fun is => (.null, is)
      else if c = 116 then (consumeAll is (ascii "rue")).map fun is => (.bool true, is)
      else if c = 102 then (consumeAll is (ascii "alse")).map fun is => (.bool false, is)
      else if c = 34 then (parseString is).map fun r => (.string r.1, r.2)
      else if c = 123 then parseObject fuel (skipWhitespace is)
      else if c = 91 then parseArray fuel (skipWhitespace is)
      else parseNumber (c :: is) := by
  rw [parseValue]
  rfl

theorem parseInt_cons (minus : Bool) (c : UInt8) (is : Bytes) :
    parseInt minus (c :: is) =
      if c = 48 then some ⟨0, 0, false, 0, is⟩
      else if 49 ≤ c ∧ c ≤ 57 then
        if (digits32 minus (c.toNat - 48) 0 is).overflow then
          parseBigInt minus (digits32 minus (c.toNat - 48) 0 is).value
            (digits32 minus (c.toNat - 48) 0 is).significand
            (digits32 minus (c.toNat - 48) 0 is).rest
        else some ⟨(digits32 minus (c.toNat - 48) 0 is).value,
          (digits32 minus (c.toNat - 48) 0 is).significand, false, 0,
          (digits32 minus (c.toNat - 48) 0 is).rest⟩
      else none := rfl

theorem length_of_consume {is is' : Bytes} {c : UInt8} (h : consume is c = some is') :
    is'.length + 1 = is.length := by
  rw [consume_eq_some.mp h, List.length_cons]

theorem length_skipWhitespace (is : Bytes) : (skipWhitespace is).length ≤ is.length :=
  (List.dropWhile_suffix _).length_le

/-- What begins with a byte that is not NUL has that byte to give. -/
theorem length_tail_of_peek {is : Bytes} (h : peek is ≠ 0) : is.tail.length + 1 = is.length := by
  cases is with
  | nil => exact absurd rfl h
  | cons c is => rfl

theorem length_consumeAll : ∀ (cs : Bytes) {is is' : Bytes}, consumeAll is cs = some is' →
    is'.length ≤ is.length := by
  intro cs
  induction cs with
  | nil =>
      intro is is' h
      rw [consumeAll, Option.some.injEq] at h
      rw [h]
  | cons c cs ih =>
      intro is is' h
      rw [consumeAll, Option.bind_eq_some_iff] at h
      obtain ⟨is₁, h₁, h₂⟩ := h
      have := length_of_consume h₁
      have := ih h₂
      omega

theorem length_parseHex : ∀ (i codepoint : Nat) {is : Bytes} {r : Nat × Bytes},
    parseHex i codepoint is = some r → r.2.length ≤ is.length := by
  intro i
  induction i with
  | zero =>
      intro codepoint is r h
      rw [parseHex, Option.some.injEq] at h
      rw [← h]
  | succ i ih =>
      intro codepoint is r h
      rw [parseHex, Option.bind_eq_some_iff] at h
      obtain ⟨d, -, h⟩ := h
      have := ih _ h
      rw [List.length_tail] at this
      omega

private theorem length_parseCodepoint {is : Bytes} {r : Nat × Bytes}
    (h : parseCodepoint is = some r) :
    r.2.length ≤ is.length := by
  unfold parseCodepoint at h
  rw [Option.bind_eq_some_iff] at h
  obtain ⟨⟨codepoint, is₁⟩, h₁, h⟩ := h
  have hle₁ := length_parseHex 4 0 h₁
  simp only at h
  split at h
  · rw [Option.bind_eq_some_iff] at h
    obtain ⟨is₂, h₂, h⟩ := h
    have hle₂ := length_consumeAll _ h₂
    rw [Option.bind_eq_some_iff] at h
    obtain ⟨⟨codepoint2, is₃⟩, h₃, h⟩ := h
    have hle₃ := length_parseHex 4 0 h₃
    simp only at h hle₁ hle₃
    split at h
    · exact absurd h (by simp)
    · rw [Option.some.injEq] at h
      rw [← h]
      simp only
      omega
  · rw [Option.some.injEq] at h
    rw [← h]
    exact hle₁

theorem length_parseEscape {is : Bytes} {r : Bytes × Bytes} (h : parseEscape is = some r) :
    r.2.length ≤ is.length := by
  unfold parseEscape at h
  split at h
  · rw [Option.some.injEq] at h
    rw [← h]
    simp
  · split at h
    · obtain ⟨r', h', rfl⟩ := Option.map_eq_some_iff.mp h
      have := length_parseCodepoint h'
      rw [List.length_tail] at this
      simp only
      omega
    · exact absurd h (by simp)

theorem length_parseStringToStream : ∀ (fuel : Nat) {is : Bytes} {r : Bytes × Bytes},
    parseStringToStream fuel is = some r → r.2.length < is.length := by
  intro fuel
  induction fuel with
  | zero => intro is r h; exact absurd h (by simp [parseStringToStream])
  | succ fuel ih =>
      intro is r h
      rw [parseStringToStream] at h
      simp only at h
      split at h
      · rename_i hc
        have htail : is.tail.length + 1 = is.length := length_tail_of_peek (by rw [hc]; decide)
        rw [Option.bind_eq_some_iff] at h
        obtain ⟨⟨out, is₁⟩, h₁, h⟩ := h
        have hle := length_parseEscape h₁
        obtain ⟨r', h', rfl⟩ := Option.map_eq_some_iff.mp h
        have hlt := ih h'
        simp only at hle hlt ⊢
        omega
      · split at h
        · rename_i hc
          have htail : is.tail.length + 1 = is.length := length_tail_of_peek (by rw [hc]; decide)
          rw [Option.some.injEq] at h
          rw [← h]
          simp only
          omega
        · split at h
          · exact absurd h (by simp)
          · rename_i hc
            have htail : is.tail.length + 1 = is.length := length_tail_of_peek (by
              intro h0
              rw [h0] at hc
              exact hc (by decide))
            obtain ⟨r', h', rfl⟩ := Option.map_eq_some_iff.mp h
            have := ih h'
            simp only
            omega

theorem length_accumulate (limit : Nat) (last : UInt8) : ∀ (is : Bytes) (i significand : Nat),
    (accumulate limit last i significand is).rest.length ≤ is.length := by
  intro is
  induction is with
  | nil => intro i significand; exact le_rfl
  | cons c is ih =>
      intro i significand
      rw [accumulate]
      split
      · split
        · exact le_rfl
        · exact (ih _ _).trans (Nat.le_succ _)
      · exact le_rfl

private theorem length_bigDigits :
    ∀ (is : Bytes) (d : Nat) {r : Nat × Bytes}, bigDigits d is = some r →
    r.2.length ≤ is.length := by
  intro is
  induction is with
  | nil =>
      intro d r h
      rw [bigDigits, Option.some.injEq] at h
      rw [← h]
  | cons c is ih =>
      intro d r h
      rw [bigDigits] at h
      split at h
      · split at h
        · exact absurd h (by simp)
        · exact (ih _ h).trans (Nat.le_succ _)
      · rw [Option.some.injEq] at h
        rw [← h]

private theorem length_fracDigits : ∀ (is : Bytes) (i64 significand : Nat) (expFrac : Int),
    (fracDigits i64 significand expFrac is).rest.length ≤ is.length := by
  intro is
  induction is with
  | nil => intro i64 significand expFrac; exact le_rfl
  | cons c is ih =>
      intro i64 significand expFrac
      rw [fracDigits]
      split
      · split
        · exact le_rfl
        · exact (ih _ _ _).trans (Nat.le_succ _)
      · exact le_rfl

private theorem length_fracDouble : ∀ (is : Bytes) (d significand : Nat) (expFrac : Int),
    (fracDouble d significand expFrac is).rest.length ≤ is.length := by
  intro is
  induction is with
  | nil => intro d significand expFrac; exact le_rfl
  | cons c is ih =>
      intro d significand expFrac
      rw [fracDouble]
      split
      · split
        · exact (ih _ _ _).trans (Nat.le_succ _)
        · exact (ih _ _ _).trans (Nat.le_succ _)
      · exact le_rfl

private theorem length_minusExponent : ∀ (is : Bytes) (exp : Nat),
    (minusExponent exp is).2.length ≤ is.length := by
  intro is
  induction is with
  | nil => intro exp; exact le_rfl
  | cons c is ih =>
      intro exp
      rw [minusExponent]
      split
      · simp only
        split
        · exact ((List.dropWhile_suffix _).length_le).trans (Nat.le_succ _)
        · exact (ih _).trans (Nat.le_succ _)
      · exact le_rfl

private theorem length_plusExponent (maxExp : Int) : ∀ (is : Bytes) (exp : Nat) {r : Nat × Bytes},
    plusExponent maxExp exp is = some r → r.2.length ≤ is.length := by
  intro is
  induction is with
  | nil =>
      intro exp r h
      rw [plusExponent, Option.some.injEq] at h
      rw [← h]
  | cons c is ih =>
      intro exp r h
      rw [plusExponent] at h
      split at h
      · simp only at h
        split at h
        · exact absurd h (by simp)
        · exact (ih _ h).trans (Nat.le_succ _)
      · rw [Option.some.injEq] at h
        rw [← h]

private theorem length_digits32 (minus : Bool) (i significand : Nat) (is : Bytes) :
    (digits32 minus i significand is).rest.length ≤ is.length := by
  unfold digits32
  split
  · exact length_accumulate _ _ _ _ _
  · exact length_accumulate _ _ _ _ _

private theorem length_digits64 (minus : Bool) (i significand : Nat) (is : Bytes) :
    (digits64 minus i significand is).rest.length ≤ is.length := by
  unfold digits64
  split
  · exact length_accumulate _ _ _ _ _
  · exact length_accumulate _ _ _ _ _

private theorem length_parseBigInt {minus : Bool} {i significand : Nat} {is : Bytes} {n : Number}
    (h : parseBigInt minus i significand is = some n) : n.rest.length ≤ is.length := by
  have hdigits := length_digits64 minus i significand is
  unfold parseBigInt at h
  simp only at h
  split at h
  · obtain ⟨r, hr, rfl⟩ := Option.map_eq_some_iff.mp h
    exact (length_bigDigits _ _ hr).trans hdigits
  · rw [Option.some.injEq] at h
    rw [← h]
    exact hdigits

private theorem length_parseInt {minus : Bool} {is : Bytes} {n : Number}
    (h : parseInt minus is = some n) :
    n.rest.length ≤ is.length := by
  have htail : is.tail.length ≤ is.length := by simp
  unfold parseInt at h
  split at h
  · rw [Option.some.injEq] at h
    rw [← h]
    exact htail
  · split at h
    · have hdigits := length_digits32 minus ((peek is).toNat - 48) 0 is.tail
      simp only at h
      split at h
      · exact (length_parseBigInt h).trans (hdigits.trans htail)
      · rw [Option.some.injEq] at h
        rw [← h]
        exact hdigits.trans htail
    · exact absurd h (by simp)

private theorem length_parseFrac {n m : Number} (h : parseFrac n = some m) :
    m.rest.length ≤ n.rest.length := by
  unfold parseFrac at h
  split at h
  · rw [Option.some.injEq] at h
    rw [h]
  · rename_i is hc
    have hlen := length_of_consume hc
    split at h
    · rw [Option.some.injEq] at h
      rw [← h]
      refine (length_fracDouble _ _ _ _).trans ?_
      split
      · exact (Nat.le_succ _).trans hlen.le
      · exact ((length_fracDigits _ _ _ _).trans (Nat.le_succ _)).trans hlen.le
    · exact absurd h (by simp)

private theorem length_expSign (is : Bytes) : (expSign is).2.length ≤ is.length := by
  unfold expSign
  split
  · rename_i is' _ h
    exact (Nat.le_succ _).trans (length_of_consume h).le
  · rename_i is' _ h
    exact (Nat.le_succ _).trans (length_of_consume h).le
  · exact le_rfl

private theorem length_parseExp {n : Number} {r : Number × Int} (h : parseExp n = some r) :
    r.1.rest.length ≤ n.rest.length := by
  unfold parseExp at h
  split at h
  · rw [Option.some.injEq] at h
    rw [← h]
  · rename_i is hc
    have hlen : is.length ≤ n.rest.length := by
      rcases Option.or_eq_some_iff.mp hc with hc | ⟨-, hc⟩
      · exact (Nat.le_succ _).trans (length_of_consume hc).le
      · exact (Nat.le_succ _).trans (length_of_consume hc).le
    have hsign := length_expSign is
    simp only at h
    split at h
    · split at h
      · rw [Option.some.injEq] at h
        rw [← h]
        have := length_minusExponent (expSign is).2.tail ((peek (expSign is).2).toNat - 48)
        simp only [List.length_tail] at this ⊢
        omega
      · obtain ⟨r', hr, rfl⟩ := Option.map_eq_some_iff.mp h
        have := length_plusExponent _ _ _ hr
        simp only [List.length_tail] at this ⊢
        omega
    · exact absurd h (by simp)

private theorem length_parseNumber {is : Bytes} {r : GenericValue Double × Bytes}
    (h : parseNumber is = some r) : r.2.length ≤ is.length := by
  unfold parseNumber at h
  simp only at h
  have hminus : ((consume is 45).getD is).length ≤ is.length := by
    cases hc : consume is 45 with
    | none => exact le_rfl
    | some is' => exact (Nat.le_succ _).trans (length_of_consume hc).le
  rw [Option.bind_eq_some_iff] at h
  obtain ⟨n, hn, h⟩ := h
  rw [Option.bind_eq_some_iff] at h
  obtain ⟨m, hm, h⟩ := h
  obtain ⟨⟨k, exp⟩, hk, rfl⟩ := Option.map_eq_some_iff.mp h
  have h₁ := length_parseInt hn
  have h₂ := length_parseFrac hm
  have h₃ := length_parseExp hk
  simp only at h₃ ⊢
  split
  · exact ((h₃.trans h₂).trans h₁).trans hminus
  · exact ((h₃.trans h₂).trans h₁).trans hminus

private theorem length_tail_le (is : Bytes) : is.tail.length ≤ is.length := by simp

/-- The functions that call each other leave no more than they are given. -/
structure Shortens (fuel : Nat) : Prop where
  value : ∀ {is r}, parseValue fuel is = some r → r.2.length ≤ is.length
  object : ∀ {is r}, parseObject fuel is = some r → r.2.length ≤ is.length
  members : ∀ {is r}, parseMembers fuel is = some r → r.2.length ≤ is.length
  array : ∀ {is r}, parseArray fuel is = some r → r.2.length ≤ is.length
  elements : ∀ {is r}, parseElements fuel is = some r → r.2.length ≤ is.length

namespace Shortens

variable {fuel : Nat} {is : Bytes}

theorem value_succ (hf : Shortens fuel) {r : GenericValue Double × Bytes}
    (h : parseValue (fuel + 1) is = some r) : r.2.length ≤ is.length := by
  have htail := length_tail_le is
  have hskip := (length_skipWhitespace is.tail).trans htail
  rw [parseValue] at h
  simp only at h
  split at h
  · obtain ⟨is', h', rfl⟩ := Option.map_eq_some_iff.mp h
    exact (length_consumeAll _ h').trans htail
  split at h
  · obtain ⟨is', h', rfl⟩ := Option.map_eq_some_iff.mp h
    exact (length_consumeAll _ h').trans htail
  split at h
  · obtain ⟨is', h', rfl⟩ := Option.map_eq_some_iff.mp h
    exact (length_consumeAll _ h').trans htail
  split at h
  · obtain ⟨r', h', rfl⟩ := Option.map_eq_some_iff.mp h
    exact (length_parseStringToStream _ h').le.trans htail
  split at h
  · exact (hf.object h).trans hskip
  split at h
  · exact (hf.array h).trans hskip
  · exact length_parseNumber h

theorem object_succ (hf : Shortens fuel) {r : GenericValue Double × Bytes}
    (h : parseObject (fuel + 1) is = some r) : r.2.length ≤ is.length := by
  rw [parseObject] at h
  split at h
  · rename_i is' h'
    rw [Option.some.injEq] at h
    rw [← h]
    exact (Nat.le_succ _).trans (length_of_consume h').le
  · obtain ⟨r', h', rfl⟩ := Option.map_eq_some_iff.mp h
    exact hf.members h'

theorem array_succ (hf : Shortens fuel) {r : GenericValue Double × Bytes}
    (h : parseArray (fuel + 1) is = some r) : r.2.length ≤ is.length := by
  rw [parseArray] at h
  split at h
  · rename_i is' h'
    rw [Option.some.injEq] at h
    rw [← h]
    exact (Nat.le_succ _).trans (length_of_consume h').le
  · obtain ⟨r', h', rfl⟩ := Option.map_eq_some_iff.mp h
    exact hf.elements h'

theorem elements_succ (hf : Shortens fuel) {r : List (GenericValue Double) × Bytes}
    (h : parseElements (fuel + 1) is = some r) : r.2.length ≤ is.length := by
  rw [parseElements, Option.bind_eq_some_iff] at h
  obtain ⟨⟨v, is₁⟩, hv, h⟩ := h
  have hlen := (length_skipWhitespace is₁).trans (hf.value hv)
  simp only at h
  split at h
  · rename_i is₂ _ hc
    obtain ⟨r', h', rfl⟩ := Option.map_eq_some_iff.mp h
    have := (hf.elements h').trans (length_skipWhitespace _)
    have := length_of_consume hc
    simp only
    omega
  · rename_i is₂ _ hc
    rw [Option.some.injEq] at h
    rw [← h]
    have := length_of_consume hc
    simp only
    omega
  · exact absurd h (by simp)

theorem members_succ (hf : Shortens fuel) {r : List (GenericValue.Member Double) × Bytes}
    (h : parseMembers (fuel + 1) is = some r) : r.2.length ≤ is.length := by
  rw [parseMembers, Option.bind_eq_some_iff] at h
  obtain ⟨is₁, h₁, h⟩ := h
  rw [Option.bind_eq_some_iff] at h
  obtain ⟨⟨name, is₂⟩, h₂, h⟩ := h
  rw [Option.bind_eq_some_iff] at h
  obtain ⟨is₃, h₃, h⟩ := h
  rw [Option.bind_eq_some_iff] at h
  obtain ⟨⟨v, is₄⟩, h₄, h⟩ := h
  have hlen₁ := length_of_consume h₁
  have hlen₂ := length_parseStringToStream _ h₂
  have hlen₃ := length_of_consume h₃
  have hlen₃' := length_skipWhitespace is₂
  have hlen₄ := (hf.value h₄).trans (length_skipWhitespace is₃)
  have hlen₄' := length_skipWhitespace is₄
  simp only at h hlen₂ hlen₃ hlen₄
  split at h
  · rename_i is₅ _ hc
    obtain ⟨r', h', rfl⟩ := Option.map_eq_some_iff.mp h
    have := (hf.members h').trans (length_skipWhitespace _)
    have := length_of_consume hc
    simp only
    omega
  · rename_i is₅ _ hc
    rw [Option.some.injEq] at h
    rw [← h]
    have := length_of_consume hc
    simp only
    omega
  · exact absurd h (by simp)

end Shortens

theorem shortens : ∀ fuel, Shortens fuel := by
  intro fuel
  induction fuel with
  | zero =>
      constructor
      · intro is r h; simp [parseValue] at h
      · intro is r h; simp [parseObject] at h
      · intro is r h; simp [parseMembers] at h
      · intro is r h; simp [parseArray] at h
      · intro is r h; simp [parseElements] at h
  | succ fuel ih =>
      exact ⟨ih.value_succ, ih.object_succ, ih.members_succ, ih.array_succ, ih.elements_succ⟩

/-! ### Fuel -/

/-- One more unit of fuel changes nothing where there is enough of it: a value takes three
units for a byte, and one. -/
structure Enough (fuel : Nat) : Prop where
  value : ∀ {is}, 3 * is.length + 1 ≤ fuel → parseValue (fuel + 1) is = parseValue fuel is
  object : ∀ {is}, 3 * is.length + 3 ≤ fuel → parseObject (fuel + 1) is = parseObject fuel is
  members : ∀ {is}, 3 * is.length + 2 ≤ fuel → parseMembers (fuel + 1) is = parseMembers fuel is
  array : ∀ {is}, 3 * is.length + 3 ≤ fuel → parseArray (fuel + 1) is = parseArray fuel is
  elements : ∀ {is}, 3 * is.length + 2 ≤ fuel →
    parseElements (fuel + 1) is = parseElements fuel is

namespace Enough

variable {fuel : Nat} {is : Bytes}

theorem value_succ (hf : Enough fuel) (h : 3 * is.length + 1 ≤ fuel + 1) :
    parseValue (fuel + 1 + 1) is = parseValue (fuel + 1) is := by
  -- a bracket has been taken, so there is a byte less
  have hroom (c : UInt8) (hc : c ≠ 0) (hp : peek is = c) :
      3 * (skipWhitespace is.tail).length + 3 ≤ fuel := by
    have := length_skipWhitespace is.tail
    have : is.tail.length + 1 = is.length := length_tail_of_peek (by rw [hp]; exact hc)
    omega
  rw [parseValue, parseValue]
  simp only
  split
  · rfl
  split
  · rfl
  split
  · rfl
  split
  · rfl
  split
  · rename_i hc
    exact hf.object (hroom 123 (by decide) hc)
  split
  · rename_i hc
    exact hf.array (hroom 91 (by decide) hc)
  · rfl

theorem object_succ (hf : Enough fuel) (h : 3 * is.length + 3 ≤ fuel + 1) :
    parseObject (fuel + 1 + 1) is = parseObject (fuel + 1) is := by
  rw [parseObject, parseObject, hf.members (by omega)]

theorem array_succ (hf : Enough fuel) (h : 3 * is.length + 3 ≤ fuel + 1) :
    parseArray (fuel + 1 + 1) is = parseArray (fuel + 1) is := by
  rw [parseArray, parseArray, hf.elements (by omega)]

theorem elements_succ (hf : Enough fuel) (h : 3 * is.length + 2 ≤ fuel + 1) :
    parseElements (fuel + 1 + 1) is = parseElements (fuel + 1) is := by
  rw [parseElements, parseElements, hf.value (by omega)]
  apply Option.bind_congr
  intro r hv
  have hlen := (length_skipWhitespace r.2).trans ((shortens fuel).value hv)
  simp only
  split
  · rename_i is₂ hc
    have := length_of_consume hc
    have := length_skipWhitespace is₂
    rw [hf.elements (by omega)]
  · rfl
  · rfl

theorem members_succ (hf : Enough fuel) (h : 3 * is.length + 2 ≤ fuel + 1) :
    parseMembers (fuel + 1 + 1) is = parseMembers (fuel + 1) is := by
  rw [parseMembers, parseMembers]
  apply Option.bind_congr
  intro is₁ h₁
  apply Option.bind_congr
  intro r₂ h₂
  apply Option.bind_congr
  intro is₃ h₃
  have hlen₁ := length_of_consume h₁
  have hlen₂ := length_parseStringToStream _ h₂
  have hlen₃ := length_of_consume h₃
  have hlen₃' := length_skipWhitespace r₂.2
  have hlen₄ := length_skipWhitespace is₃
  rw [hf.value (by omega)]
  apply Option.bind_congr
  intro r₄ h₄
  have hlen₅ := (length_skipWhitespace r₄.2).trans ((shortens fuel).value h₄)
  simp only
  split
  · rename_i is₅ hc
    have := length_of_consume hc
    have := length_skipWhitespace is₅
    rw [hf.members (by omega)]
  · rfl
  · rfl

end Enough

private theorem enough : ∀ fuel, Enough fuel := by
  intro fuel
  induction fuel with
  | zero => constructor <;> intro is h <;> omega
  | succ fuel ih =>
      exact ⟨ih.value_succ, ih.object_succ, ih.members_succ, ih.array_succ, ih.elements_succ⟩

/-- **A text never runs out of fuel**: with any more of it the reader does the same. -/
theorem parseValue_fuel (is : Bytes) : ∀ {fuel : Nat}, fuelOf is ≤ fuel →
    parseValue fuel is = parseValue (fuelOf is) is := by
  intro fuel h
  induction fuel, h using Nat.le_induction with
  | base => rfl
  | succ fuel h ih =>
      have hle : 3 * is.length + 1 ≤ fuel := by
        unfold fuelOf at h
        omega
      rw [(enough fuel).value hle, ih]

end Reader

end Nstore

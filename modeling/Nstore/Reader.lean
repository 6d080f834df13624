/-
The text of a request: RapidJSON's `Reader`, without flags, on a C string.

A function of the reader takes what is left of the text and returns what it has read
and what is left then, or `none` where it sets a parse error.  The end of the text
reads as NUL.  The functions that call each other run on fuel; `parse` gives them
more than any text needs.

Numbers are read digit by digit into an `unsigned`, then into 64 bits, then into a
double, each until the next digit does not fit.  A double that holds an integer is
that integer; what is left to do with it in the end, scaling it by a power of ten, is
kept as `Double`, since no handler looks at the value of a double.
-/
import Nstore.Writer

namespace Nstore

/-- What `StrtodNormalPrecision` is given, and the sign. -/
structure Double where
  minus : Bool
  d : Nat
  p : Int
deriving DecidableEq, Repr

namespace Reader

/-! ### The stream -/

def peek (is : Bytes) : UInt8 := is.headD 0

/-- `Consume`. -/
def consume (is : Bytes) (expect : UInt8) : Option Bytes :=
  if is.head? = some expect then some is.tail else none

def isSpace (c : UInt8) : Bool := c = 32 || c = 10 || c = 13 || c = 9

def skipWhitespace (is : Bytes) : Bytes := is.dropWhile isSpace

def isDigit (c : UInt8) : Bool := 48 ≤ c && c ≤ 57

/-- The rest of a literal whose first byte has been taken. -/
def consumeAll (is : Bytes) : Bytes → Option Bytes
  | [] => some is
  | c :: cs => (consume is c).bind fun is => consumeAll is cs

/-! ### Strings -/

/-- The value of a hexadecimal digit. -/
def hexValue (c : UInt8) : Option Nat :=
  if 48 ≤ c ∧ c ≤ 57 then some (c.toNat - 48)
  else if 65 ≤ c ∧ c ≤ 70 then some (c.toNat - 65 + 10)
  else if 97 ≤ c ∧ c ≤ 102 then some (c.toNat - 97 + 10)
  else none

/-- The loop of `ParseHex4`, with the rounds that are left. -/
def parseHex : Nat → Nat → Bytes → Option (Nat × Bytes)
  | 0, codepoint, is => some (codepoint, is)
  | i + 1, codepoint, is =>
      (hexValue (peek is)).bind fun d => parseHex i (codepoint * 16 + d) is.tail

def parseHex4 (is : Bytes) : Option (Nat × Bytes) := parseHex 4 0 is

/-- `UTF8::Encode`. -/
def encodeUtf8 (codepoint : Nat) : Bytes :=
  if codepoint ≤ 0x7F then [UInt8.ofNat codepoint]
  else if codepoint ≤ 0x7FF then
    [UInt8.ofNat (0xC0 ||| codepoint >>> 6), UInt8.ofNat (0x80 ||| codepoint &&& 0x3F)]
  else if codepoint ≤ 0xFFFF then
    [UInt8.ofNat (0xE0 ||| codepoint >>> 12), UInt8.ofNat (0x80 ||| codepoint >>> 6 &&& 0x3F),
      UInt8.ofNat (0x80 ||| codepoint &&& 0x3F)]
  else
    [UInt8.ofNat (0xF0 ||| codepoint >>> 18), UInt8.ofNat (0x80 ||| codepoint >>> 12 &&& 0x3F),
      UInt8.ofNat (0x80 ||| codepoint >>> 6 &&& 0x3F), UInt8.ofNat (0x80 ||| codepoint &&& 0x3F)]

/-- The table of `ParseStringToStream`: zero where a byte has no short escape. -/
def escape (e : UInt8) : UInt8 :=
  if e = 34 then 34
  else if e = 47 then 47
  else if e = 92 then 92
  else if e = 98 then 8
  else if e = 102 then 12
  else if e = 110 then 10
  else if e = 114 then 13
  else if e = 116 then 9
  else 0

/-- The code point of `\u`, with the second half of a surrogate pair. -/
def parseCodepoint (is : Bytes) : Option (Nat × Bytes) :=
  (parseHex4 is).bind fun (codepoint, is) =>
    if 0xD800 ≤ codepoint ∧ codepoint ≤ 0xDBFF then
      (consumeAll is [92, 117]).bind fun is =>
        (parseHex4 is).bind fun (codepoint2, is) =>
          if codepoint2 < 0xDC00 ∨ 0xDFFF < codepoint2 then none
          else some ((((codepoint - 0xD800) <<< 10) ||| (codepoint2 - 0xDC00)) + 0x10000, is)
    else some (codepoint, is)

/-- What an escape stands for, after its backslash. -/
def parseEscape (is : Bytes) : Option (Bytes × Bytes) :=
  if escape (peek is) ≠ 0 then some ([escape (peek is)], is.tail)
  else if peek is = 117 then
    (parseCodepoint is.tail).map fun (codepoint, is) => (encodeUtf8 codepoint, is)
  else none

/-- The loop of `ParseStringToStream`. -/
def parseStringToStream : Nat → Bytes → Option (Bytes × Bytes)
  | 0, _ => none
  | fuel + 1, is =>
      let c := peek is
      if c = 92 then
        (parseEscape is.tail).bind fun (out, is) =>
          (parseStringToStream fuel is).map fun (s, is) => (out ++ s, is)
      else if c = 34 then some ([], is.tail)
      else if c < 32 then none
      else (parseStringToStream fuel is.tail).map fun (s, is) => (c :: s, is)

/-- `ParseString`, after the quotation mark. -/
def parseString (is : Bytes) : Option (Bytes × Bytes) := parseStringToStream (is.length + 1) is

/-! ### Numbers -/

/-- The nearest double of an integer, ties to even. -/
def roundDouble (n : Nat) : Nat :=
  let e := n.log2 - 52
  let q := n >>> e
  let r := n % 2 ^ e
  let up : Bool := 2 ^ e < 2 * r || (2 ^ e = 2 * r && q % 2 = 1)
  (if up then q + 1 else q) <<< e

/-- `1.7976931348623157e307`. -/
def dblMaxTenth : Nat := roundDouble (17976931348623157 * 10 ^ 291)

/-- What a loop over digits leaves. -/
structure Digits where
  value : Nat
  significand : Nat
  /-- It has stopped at a digit that does not fit. -/
  overflow : Bool
  rest : Bytes
deriving DecidableEq, Repr

/-- The loops into an integer: `last` is the last digit that may follow `limit`. -/
def accumulate (limit : Nat) (last : UInt8) (i significand : Nat) : Bytes → Digits
  | [] => ⟨i, significand, false, []⟩
  | c :: is =>
      if isDigit c then
        if limit ≤ i ∧ (i ≠ limit ∨ last < c) then ⟨i, significand, true, c :: is⟩
        else accumulate limit last (i * 10 + (c.toNat - 48)) (significand + 1) is
      else ⟨i, significand, false, c :: is⟩

/-- The loop for an integer that fits nowhere: `d` and what is left. -/
def bigDigits (d : Nat) : Bytes → Option (Nat × Bytes)
  | [] => some (d, [])
  | c :: is =>
      if isDigit c then
        if dblMaxTenth ≤ d then none
        else bigDigits (roundDouble (roundDouble (d * 10) + (c.toNat - 48))) is
      else some (d, c :: is)

/-- The mantissa as it is read on. -/
structure Mantissa where
  value : Nat
  significand : Nat
  expFrac : Int
  rest : Bytes
deriving DecidableEq, Repr

/-- The digits after the point, while `i64` can hold them. -/
def fracDigits (i64 significand : Nat) (expFrac : Int) : Bytes → Mantissa
  | [] => ⟨i64, significand, expFrac, []⟩
  | c :: is =>
      if isDigit c then
        if 2 ^ 53 - 1 < i64 then ⟨i64, significand, expFrac, c :: is⟩
        else
          let i64 := i64 * 10 + (c.toNat - 48)
          fracDigits i64 (if i64 ≠ 0 then significand + 1 else significand) (expFrac - 1) is
      else ⟨i64, significand, expFrac, c :: is⟩

/-- The digits after the point, into a double. -/
def fracDouble (d significand : Nat) (expFrac : Int) : Bytes → Mantissa
  | [] => ⟨d, significand, expFrac, []⟩
  | c :: is =>
      if isDigit c then
        if significand < 17 then
          let d := roundDouble (roundDouble (d * 10) + (c.toNat - 48))
          fracDouble d (if d ≠ 0 then significand + 1 else significand) (expFrac - 1) is
        else fracDouble d significand expFrac is
      else ⟨d, significand, expFrac, c :: is⟩

/-- The rest of a negative exponent, which stops counting before it overflows. -/
def minusExponent (exp : Nat) : Bytes → Nat × Bytes
  | [] => (exp, [])
  | c :: is =>
      if isDigit c then
        let exp := exp * 10 + (c.toNat - 48)
        if 214748364 ≤ exp then (exp, is.dropWhile isDigit) else minusExponent exp is
      else (exp, c :: is)

/-- The rest of a positive exponent, up to `maxExp`. -/
def plusExponent (maxExp : Int) (exp : Nat) : Bytes → Option (Nat × Bytes)
  | [] => some (exp, [])
  | c :: is =>
      if isDigit c then
        let exp := exp * 10 + (c.toNat - 48)
        if maxExp < exp then none else plusExponent maxExp exp is
      else some (exp, c :: is)

/-- A number so far: an integer, or a double with its decimal exponent. -/
structure Number where
  value : Nat
  significand : Nat
  useDouble : Bool
  expFrac : Int
  rest : Bytes
deriving DecidableEq, Repr

/-- The loop that ends where `unsigned` would overflow. -/
def digits32 (minus : Bool) (i significand : Nat) (is : Bytes) : Digits :=
  if minus then accumulate 214748364 56 i significand is
  else accumulate 429496729 53 i significand is

/-- The same for `uint64_t`. -/
def digits64 (minus : Bool) (i significand : Nat) (is : Bytes) : Digits :=
  if minus then accumulate 0x0CCCCCCCCCCCCCCC 56 i significand is
  else accumulate 0x1999999999999999 53 i significand is

/-- The digits of an integer that does not fit 32 bits. -/
def parseBigInt (minus : Bool) (i significand : Nat) (is : Bytes) : Option Number :=
  let r := digits64 minus i significand is
  if r.overflow then
    (bigDigits (roundDouble r.value) r.rest).map fun (d, is) => ⟨d, r.significand, true, 0, is⟩
  else some ⟨r.value, r.significand, false, 0, r.rest⟩

/-- The digits of the integer part. -/
def parseInt (minus : Bool) (is : Bytes) : Option Number :=
  if peek is = 48 then some ⟨0, 0, false, 0, is.tail⟩
  else if 49 ≤ peek is ∧ peek is ≤ 57 then
    let r := digits32 minus ((peek is).toNat - 48) 0 is.tail
    if r.overflow then parseBigInt minus r.value r.significand r.rest
    else some ⟨r.value, r.significand, false, 0, r.rest⟩
  else none

/-- The digits after a point, if there is one. -/
def parseFrac (n : Number) : Option Number :=
  match consume n.rest 46 with
  | none => some n
  | some is =>
      if isDigit (peek is) then
        let m :=
          if n.useDouble then ⟨n.value, n.significand, 0, is⟩
          else
            let m := fracDigits n.value n.significand 0 is
            { m with value := roundDouble m.value }
        let m := fracDouble m.value m.significand m.expFrac m.rest
        some ⟨m.value, m.significand, true, m.expFrac, m.rest⟩
      else none

/-- The sign of an exponent. -/
def expSign (is : Bytes) : Bool × Bytes :=
  match consume is 43, consume is 45 with
  | some is, _ => (false, is)
  | none, some is => (true, is)
  | none, none => (false, is)

/-- The exponent, if there is one, and what is left. -/
def parseExp (n : Number) : Option (Number × Int) :=
  match (consume n.rest 101).or (consume n.rest 69) with
  | none => some (n, 0)
  | some is =>
      let d := if n.useDouble then n.value else roundDouble n.value
      let (expMinus, is) := expSign is
      if isDigit (peek is) then
        let exp := (peek is).toNat - 48
        if expMinus then
          let (exp, is) := minusExponent exp is.tail
          some ({ n with value := d, useDouble := true, rest := is }, -exp)
        else
          (plusExponent (308 - n.expFrac) exp is.tail).map fun (exp, is) =>
            ({ n with value := d, useDouble := true, rest := is }, exp)
      else none

def parseNumber (is : Bytes) : Option (GenericValue Double × Bytes) :=
  let minus := (consume is 45).isSome
  (parseInt minus ((consume is 45).getD is)).bind fun n =>
    (parseFrac n).bind fun n =>
      (parseExp n).map fun (n, exp) =>
        if n.useDouble then (.double ⟨minus, n.value, exp + n.expFrac⟩, n.rest)
        else (.int (if minus then -n.value else n.value), n.rest)

/-! ### Values -/

mutual

def parseValue : Nat → Bytes → Option (GenericValue Double × Bytes)
  | 0, _ => none
  | fuel + 1, is =>
      let c := peek is
      if c = 110 then (consumeAll is.tail (ascii "ull")).map fun is => (.null, is)
      else if c = 116 then (consumeAll is.tail (ascii "rue")).map fun is => (.bool true, is)
      else if c = 102 then (consumeAll is.tail (ascii "alse")).map fun is => (.bool false, is)
      else if c = 34 then (parseString is.tail).map fun (s, is) => (.string s, is)
      else if c = 123 then parseObject fuel (skipWhitespace is.tail)
      else if c = 91 then parseArray fuel (skipWhitespace is.tail)
      else parseNumber is

/-- `ParseObject`, after the bracket and white space. -/
def parseObject : Nat → Bytes → Option (GenericValue Double × Bytes)
  | 0, _ => none
  | fuel + 1, is =>
      match consume is 125 with
      | some is => some (.object [], is)
      | none => (parseMembers fuel is).map fun (ms, is) => (.object ms, is)

/-- The loop of `ParseObject`. -/
def parseMembers : Nat → Bytes → Option (List (GenericValue.Member Double) × Bytes)
  | 0, _ => none
  | fuel + 1, is =>
      (consume is 34).bind fun is =>
        (parseString is).bind fun (name, is) =>
          (consume (skipWhitespace is) 58).bind fun is =>
            (parseValue fuel (skipWhitespace is)).bind fun (v, is) =>
              let is := skipWhitespace is
              match consume is 44, consume is 125 with
              | some is, _ =>
                  (parseMembers fuel (skipWhitespace is)).map fun (ms, is) => ((name, v) :: ms, is)
              | none, some is => some ([(name, v)], is)
              | none, none => none

/-- `ParseArray`, after the bracket and white space. -/
def parseArray : Nat → Bytes → Option (GenericValue Double × Bytes)
  | 0, _ => none
  | fuel + 1, is =>
      match consume is 93 with
      | some is => some (.array [], is)
      | none => (parseElements fuel is).map fun (xs, is) => (.array xs, is)

/-- The loop of `ParseArray`. -/
def parseElements : Nat → Bytes → Option (List (GenericValue Double) × Bytes)
  | 0, _ => none
  | fuel + 1, is =>
      (parseValue fuel is).bind fun (v, is) =>
        let is := skipWhitespace is
        match consume is 44, consume is 93 with
        | some is, _ => (parseElements fuel (skipWhitespace is)).map fun (xs, is) => (v :: xs, is)
        | none, some is => some ([v], is)
        | none, none => none

end

/-- The fuel of a text: three calls for each byte. -/
def fuelOf (is : Bytes) : Nat := 3 * is.length + 3

/-- A document at the front of a text, with nothing but white space behind it. -/
def document (is : Bytes) : Option (GenericValue Double) :=
  if is = [] then none
  else
    (parseValue (fuelOf is) is).bind fun (v, is) =>
      if skipWhitespace is = [] then some v else none

/-- `Parse`, on the bytes up to the first NUL. -/
def parse (str : Bytes) : Option (GenericValue Double) :=
  document (skipWhitespace (str.takeWhile (· ≠ 0)))

end Reader

/-! ### What the handlers see -/

mutual

/-- A value, as far as the handlers look into it. -/
def GenericValue.toJson {δ : Type} : GenericValue δ → Json
  | .null => .null
  | .bool b => .bool b
  | .int i => if -2 ^ 63 ≤ i ∧ i < 2 ^ 63 then .int64 (Int64.ofInt i) else .number
  | .double _ => .number
  | .string s => .string s
  | .array xs => .array (elementsToJson xs)
  | .object _ => .object

def GenericValue.elementsToJson {δ : Type} : List (GenericValue δ) → List Json
  | [] => []
  | x :: xs => x.toJson :: elementsToJson xs

end

/-- The libraries the server is built with, but for the hash and the walk. -/
def rapidjsonLibs (walk : Walk) (sha256 : Bytes → Value) : Libs where
  sha256 := sha256
  parse str := (Reader.parse str).map GenericValue.toJson
  render := render walk

end Nstore

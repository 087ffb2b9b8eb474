/-!
# Settings

A configuration is written in JSON.  A setting is a JSON value as far as a configuration needs it: the
digits of a number are never asked for.

A quoted text may hold halves of a code point in an escape.  Where they do not add up it stands for no
text; this is a fault only where the text is asked for.

- `Setting`: the values.
- `Setting.parse?`: the setting that a text consists of.
-/

namespace TreeScript

/-- A value in a configuration. -/
inductive Setting where
  | null
  | flag (value : Bool)
  | number
  /-- A quoted text, unless its escapes stand for none. -/
  | text (content : Option String)
  | list (items : List Setting)
  /-- Named settings in their order. -/
  | record (fields : List (Option String × Setting))
deriving Repr

namespace Setting

/-- The blanks between the parts of a setting. -/
def isGap (c : Char) : Bool := c = ' ' || c = '\n' || c = '\t' || c = '\r'

/-- The text without the blanks in front of it. -/
def skipGap (cs : List Char) : List Char := cs.dropWhile isGap

/-! ### Numbers -/

/-- At least one digit. -/
def skipDigits? (cs : List Char) : Option (List Char) :=
  match cs with
  | c :: rest => if c.isDigit then some (rest.dropWhile Char.isDigit) else none
  | [] => none

/-- Digits without a zero in front of others. -/
def skipWhole? : List Char → Option (List Char)
  | '0' :: rest => if (rest.head?.any Char.isDigit) then none else some rest
  | cs => skipDigits? cs

/-- A point and digits, if there is a point. -/
def skipFraction? : List Char → Option (List Char)
  | '.' :: rest => skipDigits? rest
  | cs => some cs

/-- The text without the sign of an exponent. -/
def skipSign : List Char → List Char
  | '+' :: rest => rest
  | '-' :: rest => rest
  | cs => cs

/-- A mark and an exponent, if there is a mark. -/
def skipExponent? : List Char → Option (List Char)
  | 'e' :: rest => skipDigits? (skipSign rest)
  | 'E' :: rest => skipDigits? (skipSign rest)
  | cs => some cs

/-- A number: a sign, digits, a fraction and an exponent. -/
def skipNumber? (cs : List Char) : Option (List Char) :=
  let unsigned :=
    match cs with
    | '-' :: rest => rest
    | _ => cs
  ((skipWhole? unsigned).bind skipFraction?).bind skipExponent?

/-! ### Quoted texts -/

/-- The value of a hexadecimal digit. -/
def hexValue? (c : Char) : Option Nat :=
  if c.isDigit then some (c.toNat - '0'.toNat)
  else if 'a' ≤ c && c ≤ 'f' then some (c.toNat - 'a'.toNat + 10)
  else if 'A' ≤ c && c ≤ 'F' then some (c.toNat - 'A'.toNat + 10)
  else none

/-- The character that an escape of one letter stands for. -/
def escaped? : Char → Option Char
  | '"' => some '"'
  | '\\' => some '\\'
  | '/' => some '/'
  | 'b' => some '\x08'
  | 'f' => some '\x0c'
  | 'n' => some '\n'
  | 'r' => some '\r'
  | 't' => some '\t'
  | _ => none

/-- What a quoted text consists of: characters, and escapes of a code unit of 16 bits. -/
abbrev Piece := Char ⊕ Nat

/-- Reads the pieces of a quoted text, from behind the opening quote to behind the closing one. -/
def readPieces? : List Char → Option (List Piece × List Char)
  | '"' :: rest => some ([], rest)
  | '\\' :: 'u' :: a :: b :: c :: d :: rest => do
    let unit := ((← hexValue? a) * 16 + (← hexValue? b)) * 256 + (← hexValue? c) * 16 + (← hexValue? d)
    let (pieces, rest) ← readPieces? rest
    return (.inr unit :: pieces, rest)
  | '\\' :: letter :: rest => do
    let c ← escaped? letter
    let (pieces, rest) ← readPieces? rest
    return (.inl c :: pieces, rest)
  | c :: rest =>
    if c.toNat < 0x20 ∨ c = '\\' then none
    else do
      let (pieces, rest) ← readPieces? rest
      return (.inl c :: pieces, rest)
  | [] => none

def isHighHalf (unit : Nat) : Bool := 0xD800 ≤ unit && unit < 0xDC00

def isLowHalf (unit : Nat) : Bool := 0xDC00 ≤ unit && unit < 0xE000

/-- The text of several pieces: two halves of a code point have to follow one another. -/
def join? : List Piece → Option (List Char)
  | [] => some []
  | .inl c :: pieces => (join? pieces).map (c :: ·)
  | .inr high :: .inr low :: pieces =>
    if isHighHalf high then
      if isLowHalf low then
        (join? pieces).map (Char.ofNat (0x10000 + (high - 0xD800) * 0x400 + (low - 0xDC00)) :: ·)
      else none
    else if isLowHalf high then none
    else (join? (.inr low :: pieces)).map (Char.ofNat high :: ·)
  | .inr unit :: pieces =>
    if isHighHalf unit || isLowHalf unit then none
    else (join? pieces).map (Char.ofNat unit :: ·)

/-- Reads a quoted text, from behind the opening quote. -/
def readText? (cs : List Char) : Option (Option String × List Char) :=
  (readPieces? cs).map fun (pieces, rest) => ((join? pieces).map String.ofList, rest)

/-! ### Values -/

/-- Reads a setting, and `fuel` bounds the settings in it: each has a character of its own. -/
def readWithin : (fuel : Nat) → List Char → Option (Setting × List Char)
  | 0, _ => none
  | fuel + 1, cs =>
    match skipGap cs with
    | 'n' :: 'u' :: 'l' :: 'l' :: rest => some (null, rest)
    | 't' :: 'r' :: 'u' :: 'e' :: rest => some (flag true, rest)
    | 'f' :: 'a' :: 'l' :: 's' :: 'e' :: rest => some (flag false, rest)
    | '"' :: rest => (readText? rest).map fun (content, rest) => (text content, rest)
    | '[' :: rest => (readItems fuel (skipGap rest)).map fun (items, rest) => (list items, rest)
    | '\x7b' :: rest =>
      (readFields fuel (skipGap rest)).map fun (fields, rest) => (record fields, rest)
    | other => (skipNumber? other).map fun rest => (number, rest)
where
  /-- Reads the items of a list, from behind its opening bracket. -/
  readItems : (fuel : Nat) → List Char → Option (List Setting × List Char)
    | _, ']' :: rest => some ([], rest)
    | fuel, cs => readMoreItems fuel cs
  readMoreItems : (fuel : Nat) → List Char → Option (List Setting × List Char)
    | 0, _ => none
    | fuel + 1, cs => do
      let (item, rest) ← readWithin fuel cs
      match skipGap rest with
      | ',' :: rest =>
        let (items, rest) ← readMoreItems fuel rest
        return (item :: items, rest)
      | ']' :: rest => return ([item], rest)
      | _ => none
  readFields : (fuel : Nat) → List Char → Option (List (Option String × Setting) × List Char)
    | _, '\x7d' :: rest => some ([], rest)
    | fuel, cs => readMoreFields fuel cs
  readMoreFields : (fuel : Nat) → List Char → Option (List (Option String × Setting) × List Char)
    | 0, _ => none
    | fuel + 1, cs => do
      let '"' :: rest := skipGap cs | none
      let (name, rest) ← readText? rest
      let ':' :: rest := skipGap rest | none
      let (value, rest) ← readWithin fuel rest
      match skipGap rest with
      | ',' :: rest =>
        let (fields, rest) ← readMoreFields fuel rest
        return ((name, value) :: fields, rest)
      | '\x7d' :: rest => return ([(name, value)], rest)
      | _ => none

/-- The setting that a text consists of, blanks at both ends apart. -/
def parse? (source : String) : Option Setting :=
  match readWithin (2 * source.length + 1) source.toList with
  | some (setting, rest) => if (skipGap rest).isEmpty then some setting else none
  | none => none

end Setting

end TreeScript

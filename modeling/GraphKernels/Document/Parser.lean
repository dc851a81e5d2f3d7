import GraphKernels.Document.Basic

/-!
# Reading documents

A reader of strict JSON text. Nothing but white space may stand around the document. Every reader
takes the characters that are left and answers with what it read and the characters after it.
-/

namespace GraphKernels.Document

/-- Whether a character may stand between the parts of a document. -/
def isBlank (c : Char) : Bool := c == ' ' || c == '\n' || c == '\t' || c == '\r'

/-- The characters after white space. -/
def skipBlank (cs : List Char) : List Char := cs.dropWhile isBlank

/-- The value of a digit to base sixteen. -/
def hexDigit? (c : Char) : Option Nat :=
  if '0' ≤ c ∧ c ≤ '9' then some (c.toNat - '0'.toNat)
  else if 'a' ≤ c ∧ c ≤ 'f' then some (c.toNat - 'a'.toNat + 10)
  else if 'A' ≤ c ∧ c ≤ 'F' then some (c.toNat - 'A'.toNat + 10)
  else none

/-- The character of a short escape. -/
def shortEscape? : Char → Option Char
  | '\x22' => some '\x22'
  | '\\' => some '\\'
  | '/' => some '/'
  | 'b' => some '\x08'
  | 'f' => some '\x0c'
  | 'n' => some '\n'
  | 'r' => some '\r'
  | 't' => some '\t'
  | _ => none

/-- A part of a text: a character, or the 16-bit unit of a numeric escape. -/
abbrev TextPart := Char ⊕ Nat

/-- Read the parts of a text up to its closing quote. -/
def readParts : List Char → List TextPart → Option (List TextPart × List Char)
  | [], _ => none
  | '\x22' :: rest, parts => some (parts.reverse, rest)
  | '\\' :: 'u' :: a :: b :: c :: d :: rest, parts =>
    match [a, b, c, d].mapM hexDigit? with
    | none => none
    | some digits => readParts rest (.inr (digits.foldl (fun n x => 16 * n + x) 0) :: parts)
  | '\\' :: c :: rest, parts =>
    match shortEscape? c with
    | none => none
    | some c => readParts rest (.inl c :: parts)
  | c :: rest, parts =>
    if c.toNat < 0x20 || c == '\\' then none else readParts rest (.inl c :: parts)

/-- The characters of a text, if every surrogate unit is one of a pair. -/
def joinParts : List TextPart → Option (List Char)
  | [] => some []
  | .inl c :: rest => (joinParts rest).map (c :: ·)
  | .inr high :: .inr low :: rest =>
    if 0xD800 ≤ high ∧ high < 0xDC00 ∧ 0xDC00 ≤ low ∧ low < 0xE000 then
      (joinParts rest).map (Char.ofNat (0x10000 + (high - 0xD800) * 0x400 + (low - 0xDC00)) :: ·)
    else if 0xD800 ≤ high ∧ high < 0xE000 then none
    else (joinParts (.inr low :: rest)).map (Char.ofNat high :: ·)
  | .inr unit :: rest =>
    if 0xD800 ≤ unit ∧ unit < 0xE000 then none
    else (joinParts rest).map (Char.ofNat unit :: ·)

/-- Read a text after its opening quote. -/
def readText (cs : List Char) : Option (Option String × List Char) :=
  (readParts cs []).map fun (parts, rest) => ((joinParts parts).map String.ofList, rest)

/-- The number that some digits write. -/
def digitsValue (digits : List Char) : Nat :=
  digits.foldl (fun n c => 10 * n + (c.toNat - '0'.toNat)) 0

/-- Read at least one digit. -/
def readDigits (cs : List Char) : Option (List Char × List Char) :=
  let digits := cs.takeWhile Char.isDigit
  if digits.isEmpty then none else some (digits, cs.dropWhile Char.isDigit)

/-- Read the digits before the point, which start with a zero only if they are a zero. -/
def readWhole : List Char → Option (List Char × List Char)
  | '0' :: rest => some (['0'], rest)
  | cs => readDigits cs

/-- Read the digits after a point, if there is one. -/
def readPlaces : List Char → Option (Option (List Char) × List Char)
  | '.' :: rest => (readDigits rest).map fun (digits, rest) => (some digits, rest)
  | cs => some (none, cs)

/-- Read an exponent, if there is one. -/
def readExponent : List Char → Option (Option Int × List Char)
  | c :: rest =>
    if c == 'e' || c == 'E' then
      match rest with
      | '-' :: rest => (readDigits rest).map fun (digits, rest) => (some (-digitsValue digits), rest)
      | '+' :: rest => (readDigits rest).map fun (digits, rest) => (some (digitsValue digits), rest)
      | rest => (readDigits rest).map fun (digits, rest) => (some (digitsValue digits), rest)
    else some (none, c :: rest)
  | [] => some (none, [])

/-- Read a number. -/
def readNumber (cs : List Char) : Option (NumberText × List Char) := do
  let (negative, cs) := match cs with
    | '-' :: rest => (true, rest)
    | cs => (false, cs)
  let (whole, cs) ← readWhole cs
  let (places, cs) ← readPlaces cs
  let (power, cs) ← readExponent cs
  return ({
    negative
    digits := digitsValue (whole ++ places.getD [])
    exponent := power.getD 0 - (places.getD []).length
    whole := places.isNone && power.isNone }, cs)

mutual

/-- Read a value. Every call uses up fuel, and every second one reads a character. -/
def readValue : (fuel : Nat) → List Char → Option (Document × List Char)
  | 0, _ => none
  | fuel + 1, cs =>
    match skipBlank cs with
    | 'n' :: 'u' :: 'l' :: 'l' :: rest => some (.null, rest)
    | 't' :: 'r' :: 'u' :: 'e' :: rest => some (.flag true, rest)
    | 'f' :: 'a' :: 'l' :: 's' :: 'e' :: rest => some (.flag false, rest)
    | '\x22' :: rest => (readText rest).map fun (content, rest) => (.text content, rest)
    | '[' :: rest =>
      match skipBlank rest with
      | ']' :: rest => some (.list [], rest)
      | rest => readItems fuel [] rest
    | '\x7b' :: rest =>
      match skipBlank rest with
      | '\x7d' :: rest => some (.object [], rest)
      | rest => readEntries fuel [] rest
    | rest => (readNumber rest).map fun (value, rest) => (.number value, rest)

/-- Read the rest of a list that has some items already. -/
def readItems : (fuel : Nat) → List Document → List Char → Option (Document × List Char)
  | 0, _, _ => none
  | fuel + 1, items, cs =>
    match readValue fuel cs with
    | none => none
    | some (item, rest) =>
      match skipBlank rest with
      | ',' :: rest => readItems fuel (item :: items) rest
      | ']' :: rest => some (.list (item :: items).reverse, rest)
      | _ => none

/-- Read the rest of an object that has some entries already. -/
def readEntries :
    (fuel : Nat) → List (Option String × Document) → List Char → Option (Document × List Char)
  | 0, _, _ => none
  | fuel + 1, entries, cs =>
    match skipBlank cs with
    | '\x22' :: rest =>
      match readText rest with
      | none => none
      | some (key, rest) =>
        match skipBlank rest with
        | ':' :: rest =>
          match readValue fuel rest with
          | none => none
          | some (value, rest) =>
            match skipBlank rest with
            | ',' :: rest => readEntries fuel ((key, value) :: entries) rest
            | '\x7d' :: rest => some (.object ((key, value) :: entries).reverse, rest)
            | _ => none
        | _ => none
    | _ => none

end

/-- The document that a text writes. -/
def parse? (text : String) : Option Document :=
  let cs := text.toList
  match readValue (2 * cs.length + 2) cs with
  | some (document, rest) => if (skipBlank rest).isEmpty then some document else none
  | none => none

end GraphKernels.Document

/-!
# Documents

A document is a tree of values as its JSON text writes it: numbers keep the way they are written, and
objects keep their entries in order, repeated keys included. What a reader makes of that is up to the
reader.
-/

namespace GraphKernels

/-- A number as it is written. -/
structure NumberText where
  negative : Bool
  /-- All digits before the exponent, read as one number. -/
  digits : Nat
  /-- The power of ten of the last digit. -/
  exponent : Int
  /-- Whether there is neither a point nor an exponent. -/
  whole : Bool
deriving DecidableEq, Repr

/-- A document. A text whose escapes pair surrogates wrongly has no characters. -/
inductive Document
  | null
  | flag (value : Bool)
  | number (value : NumberText)
  | text (value : Option String)
  | list (items : List Document)
  | object (entries : List (Option String × Document))
deriving Repr, Inhabited

namespace NumberText

/-- The number as a whole number below a power of two, if it is written as one. -/
def word? (n : NumberText) (bits : Nat) : Option Nat :=
  if n.whole && !n.negative && n.digits < Nat.pow 2 bits then some n.digits else none

/-- A power of ten past which no double-precision number lies, nor below its inverse. -/
def exponentLimit : Int := 400

/-- The nearest double-precision number, unless that is infinite. -/
def real? (n : NumberText) : Option Float :=
  let places := (Nat.toDigits 10 n.digits).length
  let magnitude :=
    if n.digits = 0 || n.exponent + places < -exponentLimit then some 0
    else if exponentLimit < n.exponent then none
    else some (Float.ofScientific n.digits (n.exponent < 0) n.exponent.natAbs)
  match magnitude with
  | none => none
  | some m => if m.isInf then none else some (if n.negative then -m else m)

/-- The nearest single-precision number: whole words are rounded once, other numbers by way of double
precision. -/
def single? (n : NumberText) : Option Float32 :=
  if n.whole && !n.negative && n.digits < Nat.pow 2 64 then some (UInt64.ofNat n.digits).toFloat32
  else if n.whole && n.digits != 0 && n.digits ≤ Nat.pow 2 63 then
    some (-(UInt64.ofNat n.digits).toFloat32)
  else n.real?.map Float.toFloat32

end NumberText

namespace Document

/-- A number that is whole and below a power of two. -/
def word? (bits : Nat) : Document → Option Nat
  | number n => n.word? bits
  | _ => none

/-- A number in double precision. -/
def real? : Document → Option Float
  | number n => n.real?
  | _ => none

/-- A number in single precision. -/
def single? : Document → Option Float32
  | number n => n.single?
  | _ => none

/-- The value of a key, which may be left out but not given twice. -/
def valueOf? (entries : List (Option String × Document)) (name : String) :
    Option (Option Document) :=
  match entries.filter (·.1 == some name) with
  | [] => some none
  | [(_, value)] => some (some value)
  | _ => none

/-- The values of named fields, from an object by key or from a list by position. Keys of an object
that are not named are passed over; a list may be short but not long. -/
def fields? (names : List String) : Document → Option (List (Option Document))
  | list items =>
    if items.length ≤ names.length then some (names.mapIdx fun i _ => items[i]?) else none
  | object entries =>
    if entries.all (·.1.isSome) then names.mapM (valueOf? entries) else none
  | _ => none

end Document

end GraphKernels

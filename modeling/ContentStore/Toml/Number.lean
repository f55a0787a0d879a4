import ContentStore.Toml.Line

/-!
# Numbers and moments of a TOML document

An integer fits into a signed word of 64 bits.  A number with a fraction or an exponent must not
exceed the range of a double; its value is not kept.  A moment is a date, a time, or both, with an
offset perhaps; it is checked against the calendar and not kept either.
-/

namespace ContentStore.Toml

def isDigit (c : Char) : Bool := '0' ≤ c && c ≤ '9'

def isHexDigit (c : Char) : Bool := isDigit c || ('a' ≤ c && c ≤ 'f') || ('A' ≤ c && c ≤ 'F')

def isOctalDigit (c : Char) : Bool := '0' ≤ c && c ≤ '7'

def isBinaryDigit (c : Char) : Bool := c = '0' || c = '1'

def digitValue (c : Char) : Nat :=
  if isDigit c then c.toNat - 48 else if c.isLower then c.toNat - 87 else c.toNat - 55

def ofDigits (base : Nat) (digits : List Char) : Nat :=
  digits.foldl (fun n c => base * n + digitValue c) 0

/-- Further digits; an underscore may stand between two. -/
def moreDigits (ok : Char → Bool) : List Char → Option (List Char × List Char)
  | [] => some ([], [])
  | ['_'] => none
  | '_' :: c :: cs =>
    if ok c then (moreDigits ok cs).map fun (digits, rest) => (c :: digits, rest) else none
  | c :: cs =>
    if ok c then (moreDigits ok cs).map fun (digits, rest) => (c :: digits, rest)
    else some ([], c :: cs)

def digits? (ok : Char → Bool) : List Char → Option (List Char × List Char)
  | c :: cs =>
    if ok c then (moreDigits ok cs).map fun (digits, rest) => (c :: digits, rest) else none
  | [] => none

/-- A sign, if there is one, and whether it is a minus. -/
def sign : List Char → Bool × List Char
  | '+' :: cs => (false, cs)
  | '-' :: cs => (true, cs)
  | cs => (false, cs)

/-- A decimal integer: a zero, or digits of which the first is none. -/
def decimal? (cs : List Char) : Option (Bool × List Char × List Char) :=
  match sign cs with
  | (negative, '0' :: rest) => some (negative, ['0'], rest)
  | (negative, rest) => (digits? isDigit rest).map fun (digits, rest) => (negative, digits, rest)

/-! ### Integers -/

def inRange (n : Int) : Option Int :=
  if -0x8000000000000000 ≤ n ∧ n < 0x8000000000000000 then some n else none

def based? (base : Nat) (ok : Char → Bool) (cs : List Char) : Option (Int × List Char) := do
  let (digits, rest) ← digits? ok cs
  let n ← inRange (ofDigits base digits)
  return (n, rest)

def integer? : List Char → Option (Int × List Char)
  | '0' :: 'x' :: cs => based? 16 isHexDigit cs
  | '0' :: 'o' :: cs => based? 8 isOctalDigit cs
  | '0' :: 'b' :: cs => based? 2 isBinaryDigit cs
  | cs => do
    let (negative, digits, rest) ← decimal? cs
    let n : Int := ofDigits 10 digits
    let n ← inRange (if negative then -n else n)
    return (n, rest)

/-! ### Numbers with a fraction or an exponent -/

def exponent? : List Char → Option (Int × List Char)
  | c :: cs =>
    if c = 'e' ∨ c = 'E' then do
      let (negative, rest) := sign cs
      let (digits, rest) ← digits? isDigit rest
      let n : Int := ofDigits 10 digits
      return (if negative then -n else n, rest)
    else none
  | [] => none

/-- Half a unit above the largest double: from here on a number is taken for infinite. -/
def doubleLimit : Nat := Nat.pow 2 1024 - Nat.pow 2 970

/-- Whether the number with those digits, times that power of ten, is too large for a double.  The
number of digits before the point decides far from the limit. -/
def overflows (digits : List Char) (exponent : Int) : Bool :=
  let n := ofDigits 10 digits
  let places := ((digits.dropWhile (· = '0')).length : Int) + exponent
  if n = 0 then false
  else if 400 < places then true
  else if places < 300 then false
  else if 0 ≤ exponent then doubleLimit ≤ n * Nat.pow 10 exponent.toNat
  else doubleLimit * Nat.pow 10 (-exponent).toNat ≤ n

/-- A number with a fraction or an exponent that is not above the range of a double. -/
def fraction? (cs : List Char) : Option (List Char) := do
  let (negative, whole, rest) ← decimal? cs
  let (part, exponent, rest) ← match rest with
    | '.' :: rest => do
      let (part, rest) ← digits? isDigit rest
      match rest with
      | c :: cs =>
        if c = 'e' ∨ c = 'E' then
          let (exponent, rest) ← exponent? (c :: cs)
          some (part, exponent, rest)
        else some (part, 0, rest)
      | [] => some (part, 0, [])
    | rest => (exponent? rest).map fun (exponent, rest) => ([], exponent, rest)
  if !negative && overflows (whole ++ part) (exponent - part.length) then none else some rest

/-- An infinite number or none at all, with a sign perhaps. -/
def special? (cs : List Char) : Option (List Char) :=
  match (sign cs).2 with
  | 'i' :: 'n' :: 'f' :: rest => some rest
  | 'n' :: 'a' :: 'n' :: rest => some rest
  | _ => none

/-! ### Moments -/

def exactly (count : Nat) (cs : List Char) : Option (Nat × List Char) :=
  let digits := cs.take count
  if digits.length = count ∧ digits.all isDigit then some (ofDigits 10 digits, cs.drop count)
  else none

def twoDigits (low high : Nat) (cs : List Char) : Option (Nat × List Char) := do
  let (n, rest) ← exactly 2 cs
  if low ≤ n ∧ n ≤ high then some (n, rest) else none

def char? (c : Char) : List Char → Option (List Char)
  | d :: cs => if c = d then some cs else none
  | [] => none

def daysOf (year month : Nat) : Nat :=
  if month = 2 then
    if year % 4 = 0 ∧ (year % 100 ≠ 0 ∨ year % 400 = 0) then 29 else 28
  else if month = 4 ∨ month = 6 ∨ month = 9 ∨ month = 11 then 30
  else 31

def date? (cs : List Char) : Option (List Char) := do
  let (year, rest) ← exactly 4 cs
  let rest ← char? '-' rest
  let (month, rest) ← twoDigits 1 12 rest
  let rest ← char? '-' rest
  let (_, rest) ← twoDigits 1 (daysOf year month) rest
  return rest

def time? (cs : List Char) : Option (List Char) := do
  let (_, rest) ← twoDigits 0 23 cs
  let rest ← char? ':' rest
  let (_, rest) ← twoDigits 0 59 rest
  let rest ← char? ':' rest
  let (_, rest) ← twoDigits 0 60 rest
  match rest with
  | '.' :: c :: cs => if isDigit c then some (cs.dropWhile isDigit) else some rest
  | _ => some rest

def offset? : List Char → Option (List Char)
  | 'Z' :: cs => some cs
  | 'z' :: cs => some cs
  | c :: cs =>
    if c = '+' ∨ c = '-' then do
      let (_, rest) ← twoDigits 0 23 cs
      let rest ← char? ':' rest
      let (_, rest) ← twoDigits 0 59 rest
      return rest
    else some (c :: cs)
  | [] => some []

def moment? (cs : List Char) : Option (List Char) :=
  match date? cs with
  | some rest =>
    match rest with
    | c :: more =>
      if c = 'T' ∨ c = 't' ∨ c = ' ' then
        match time? more with
        | some rest => offset? rest
        | none => some rest
      else some rest
    | [] => some []
  | none => time? cs

end ContentStore.Toml

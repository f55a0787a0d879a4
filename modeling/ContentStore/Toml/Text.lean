import ContentStore.Toml.Line

/-!
# Texts and keys of a TOML document

A text stands between quotes.  Between double quotes a backslash begins an escape, between single
quotes every character stands for itself.  Three quotes in place of one let the text go over several
lines; a line end directly after them is no part of it, and up to two quotes may stand before the
three that end it.
-/

namespace ContentStore.Toml

def quote : Char := '\x27'

def hexValue? (c : Char) : Option Nat :=
  if '0' ≤ c ∧ c ≤ '9' then some (c.toNat - 48)
  else if 'a' ≤ c ∧ c ≤ 'f' then some (c.toNat - 87)
  else if 'A' ≤ c ∧ c ≤ 'F' then some (c.toNat - 55)
  else none

def codePoint? (digits : List Char) : Option Char := do
  let n ← digits.foldlM (fun n c => (hexValue? c).map (16 * n + ·)) 0
  if n.isValidChar then some (Char.ofNat n) else none

def simpleEscape? : Char → Option Char
  | 'b' => some '\x08'
  | 't' => some '\t'
  | 'n' => some '\n'
  | 'f' => some '\x0c'
  | 'r' => some '\r'
  | '"' => some '"'
  | '\\' => some '\\'
  | _ => none

def put (c : Char) (r : Option (List Char × List Char)) : Option (List Char × List Char) :=
  r.map fun (text, rest) => (c :: text, rest)

def basicText : List Char → Option (List Char × List Char)
  | [] => none
  | '"' :: rest => some ([], rest)
  | '\\' :: 'u' :: a :: b :: c :: d :: cs =>
    (codePoint? [a, b, c, d]).bind fun x => put x (basicText cs)
  | '\\' :: 'U' :: a :: b :: c :: d :: e :: f :: g :: h :: cs =>
    (codePoint? [a, b, c, d, e, f, g, h]).bind fun x => put x (basicText cs)
  | '\\' :: c :: cs => (simpleEscape? c).bind fun x => put x (basicText cs)
  | c :: cs => if isInLine c && c ≠ '\\' then put c (basicText cs) else none

def literalText : List Char → Option (List Char × List Char)
  | [] => none
  | c :: cs =>
    if c = quote then some ([], cs)
    else if isInLine c then put c (literalText cs)
    else none

/-- Whether only blanks stand before the end of the line. -/
def endsLine (cs : List Char) : Bool := (newline? (skipBlanks cs)).isSome

/-- The text up to three double quotes.  The flag tells whether blanks and line ends are left out,
as they are after a backslash at the end of a line. -/
def longBasicText : Bool → List Char → Option (List Char × List Char)
  | _, [] => none
  | _, '"' :: '"' :: '"' :: '"' :: '"' :: rest => some (['"', '"'], rest)
  | _, '"' :: '"' :: '"' :: '"' :: rest => some (['"'], rest)
  | _, '"' :: '"' :: '"' :: rest => some ([], rest)
  | trim, '\r' :: '\n' :: cs =>
    if trim then longBasicText true cs else put '\n' (longBasicText false cs)
  | _, '\\' :: 'u' :: a :: b :: c :: d :: cs =>
    (codePoint? [a, b, c, d]).bind fun x => put x (longBasicText false cs)
  | _, '\\' :: 'U' :: a :: b :: c :: d :: e :: f :: g :: h :: cs =>
    (codePoint? [a, b, c, d, e, f, g, h]).bind fun x => put x (longBasicText false cs)
  | _, '\\' :: c :: cs =>
    if endsLine (c :: cs) then longBasicText true (c :: cs)
    else (simpleEscape? c).bind fun x => put x (longBasicText false cs)
  | trim, c :: cs =>
    if trim && (isBlank c || c = '\n') then longBasicText true cs
    else if (isInLine c && c ≠ '\\') || c = '\n' then put c (longBasicText false cs)
    else none
termination_by _ cs => cs.length

def longLiteralText : List Char → Option (List Char × List Char)
  | [] => none
  | '\x27' :: '\x27' :: '\x27' :: '\x27' :: '\x27' :: rest => some ([quote, quote], rest)
  | '\x27' :: '\x27' :: '\x27' :: '\x27' :: rest => some ([quote], rest)
  | '\x27' :: '\x27' :: '\x27' :: rest => some ([], rest)
  | '\r' :: '\n' :: cs => put '\n' (longLiteralText cs)
  | c :: cs => if isInLine c || c = '\n' then put c (longLiteralText cs) else none

/-- A text between quotes of any kind. -/
def text? : List Char → Option (List Char × List Char)
  | '"' :: '"' :: '"' :: cs => longBasicText false (skipNewline cs)
  | '"' :: cs => basicText cs
  | '\x27' :: '\x27' :: '\x27' :: cs => longLiteralText (skipNewline cs)
  | '\x27' :: cs => literalText cs
  | _ => none

/-! ### Keys -/

def isKeyChar (c : Char) : Bool := c.isAlphanum || c = '_' || c = '-'

def keyPart? : List Char → Option (String × List Char)
  | '"' :: cs => (basicText cs).map fun (text, rest) => (String.ofList text, rest)
  | '\x27' :: cs => (literalText cs).map fun (text, rest) => (String.ofList text, rest)
  | cs =>
    let part := cs.takeWhile isKeyChar
    if part = [] then none else some (String.ofList part, cs.dropWhile isKeyChar)

/-- A key of at most that many parts, with dots between them and blanks around them. -/
def keyWithin : Nat → List Char → Option (List String × List Char)
  | 0, _ => none
  | parts + 1, cs => do
    let (part, rest) ← keyPart? (skipBlanks cs)
    match skipBlanks rest with
    | '.' :: rest => (keyWithin parts rest).map fun (key, rest) => (part :: key, rest)
    | rest => some ([part], rest)

/-- A key has at most this many parts, and a value is nested at most this deep. -/
def nesting : Nat := 79

def key? (cs : List Char) : Option (List String × List Char) := keyWithin nesting cs

end ContentStore.Toml

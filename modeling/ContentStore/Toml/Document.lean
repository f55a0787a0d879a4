import ContentStore.Toml.Number
import ContentStore.Toml.Registry
import ContentStore.Toml.Text

/-!
# TOML documents

A document is a sequence of lines: blank ones, headers that open a table, and values with a key.  A
value may be an array, which goes over several lines, or a table between braces, which does not.
-/

namespace ContentStore.Toml

abbrev Inner := List Char → Option (Value × List Char)

def number? (cs : List Char) : Option (Value × List Char) :=
  match moment? cs with
  | some rest => some (.other, rest)
  | none =>
    match fraction? cs with
    | some rest => some (.other, rest)
    | none =>
      match special? cs with
      | some rest => some (.other, rest)
      | none => (integer? cs).map fun (n, rest) => (.integer n, rest)

/-- The values of an array up to its end, of which at most `count` are left. -/
def items (inner : Inner) : Nat → List Char → Option (List Char)
  | 0, _ => none
  | count + 1, cs => do
    match ← skipLines? false cs with
    | ']' :: rest => some rest
    | rest =>
      let (_, rest) ← inner rest
      match ← skipLines? false rest with
      | ',' :: rest => items inner count rest
      | ']' :: rest => some rest
      | _ => none

/-- A value with its key, and the text after it. -/
def pair? (inner : Inner) (cs : List Char) : Option (List String × Value × List Char) := do
  let (key, rest) ← key? cs
  match rest with
  | '=' :: rest => (inner (skipBlanks rest)).map fun (v, rest) => (key, v, rest)
  | _ => none

/-- The values of a table between braces up to its end, of which at most `count` are left. -/
def pairs (inner : Inner) : Nat → Registry → List Char → Option (List Char)
  | 0, _, _ => none
  | count + 1, r, cs => do
    let (key, v, rest) ← pair? inner cs
    let r ← r.define [] key v
    match skipBlanks rest with
    | ',' :: rest => pairs inner count r rest
    | '}' :: rest => some rest
    | _ => none

/-- A value with at most `depth` values around one another in it. -/
def valueWithin : Nat → List Char → Option (Value × List Char)
  | depth, cs =>
    match cs with
    | [] => none
    | c :: more =>
      if c = '"' ∨ c = quote then
        (text? cs).map fun (text, rest) => (.text (String.ofList text), rest)
      else if c = '[' then
        match depth with
        | 0 => none
        | depth + 1 => (items (valueWithin depth) cs.length more).map fun rest => (.other, rest)
      else if c = '{' then
        match depth with
        | 0 => none
        | depth + 1 =>
          match skipBlanks more with
          | '}' :: rest => some (.other, rest)
          | _ => (pairs (valueWithin depth) cs.length [] more).map fun rest => (.other, rest)
      else
        match cs with
        | 't' :: 'r' :: 'u' :: 'e' :: rest => some (.boolean true, rest)
        | 'f' :: 'a' :: 'l' :: 's' :: 'e' :: rest => some (.boolean false, rest)
        | _ => number? cs

def value? (cs : List Char) : Option (Value × List Char) := valueWithin nesting cs

/-- A line that opens a table: its key, whether the table is one of an array, and the text after the
line. -/
def header? : List Char → Option (List String × Bool × List Char)
  | '[' :: '[' :: cs => do
    match ← key? cs with
    | (key, ']' :: ']' :: rest) => (lineEnd? rest).map fun rest => (key, true, rest)
    | _ => none
  | '[' :: cs => do
    match ← key? cs with
    | (key, ']' :: rest) => (lineEnd? rest).map fun rest => (key, false, rest)
    | _ => none
  | _ => none

/-- Reads at most `count` lines, where `base` is the table that the last header opened. -/
def lines : Nat → List String → Registry → List Char → Option Registry
  | 0, _, _, _ => none
  | count + 1, base, r, cs => do
    match skipBlanks cs with
    | [] => some r
    | c :: rest =>
      if c = '\n' ∨ c = '\r' ∨ c = '#' then
        lines count base r (← lineEnd? (c :: rest))
      else if c = '[' then
        let (key, next, rest) ← header? (c :: rest)
        let r ← if next then r.openNext key else r.openTable key
        lines count key r rest
      else
        let (key, v, rest) ← pair? value? (c :: rest)
        let rest ← lineEnd? rest
        lines count base (← r.define base key v) rest

/-- What a document defines; nothing if the text is no document.  A byte order mark may stand at its
front. -/
def read (text : String) : Option Registry :=
  let cs := match text.toList with
    | '\ufeff' :: cs => cs
    | cs => cs
  lines (cs.length + 1) [] [] cs

end ContentStore.Toml

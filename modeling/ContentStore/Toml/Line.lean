/-!
# Lines, blanks and comments

The reader of a TOML document works on lists of characters: each part of it takes what it reads off
the front and gives the rest, or nothing if the text is not a document.
-/

namespace ContentStore.Toml

def isBlank (c : Char) : Bool := c = ' ' || c = '\t'

def isInLine (c : Char) : Bool := c = '\t' || (32 ≤ c.toNat && c.toNat ≠ 127)

def skipBlanks (cs : List Char) : List Char := cs.dropWhile isBlank

/-- Takes one end of line off the front. -/
def newline? : List Char → Option (List Char)
  | '\n' :: cs => some cs
  | '\r' :: '\n' :: cs => some cs
  | _ => none

def skipNewline (cs : List Char) : List Char := (newline? cs).getD cs

/-- Takes blanks, a comment and the end of the line or of the text off the front. -/
def lineEnd? (cs : List Char) : Option (List Char) :=
  let afterComment := match skipBlanks cs with
    | '#' :: rest => rest.dropWhile isInLine
    | rest => rest
  match afterComment with
  | [] => some []
  | rest => newline? rest

/-- Takes blanks, comments and ends of lines off the front.  The flag tells whether a comment has
begun, which only the end of its line can end. -/
def skipLines? : Bool → List Char → Option (List Char)
  | inComment, [] => if inComment then none else some []
  | _, '\n' :: cs => skipLines? false cs
  | _, '\r' :: '\n' :: cs => skipLines? false cs
  | true, c :: cs => if isInLine c then skipLines? true cs else none
  | false, c :: cs =>
    if c = '#' then skipLines? true cs
    else if isBlank c then skipLines? false cs
    else if c = '\r' then none
    else some (c :: cs)

end ContentStore.Toml

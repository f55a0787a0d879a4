import ContentStore.Text.Utf8
import ContentStore.Text.Visible

/-!
# Quoted texts

A byte sequence is quoted between double quotes.  A quote and a backslash get a backslash before
them, the common controls have a letter, any other hidden character is written as its code point in
braces, and a byte outside every character as two uppercase hexadecimal digits.
-/

namespace ContentStore.Quoted

def codePoint (n : Nat) : String := String.ofList (Nat.toDigits 16 n)

/-- How one character is written between the quotes. -/
def escapeChar (c : Char) : String :=
  match c with
  | '"' => "\\\""
  | '\\' => "\\\\"
  | '\t' => "\\t"
  | '\n' => "\\n"
  | '\r' => "\\r"
  | '\x00' => "\\0"
  | c => if Visible.isVisible c then c.toString else "\\u\x7b" ++ codePoint c.toNat ++ "\x7d"

def upperDigit (n : Nat) : Char := if n < 10 then Char.ofNat (48 + n) else Char.ofNat (55 + n)

/-- How one byte outside every character is written between the quotes. -/
def escapeByte (b : UInt8) : String :=
  "\\x" ++ String.ofList [upperDigit (b.toNat / 16), upperDigit (b.toNat % 16)]

/-- How one piece of a byte sequence is written between the quotes. -/
def escapePiece : Utf8.Piece → String
  | .char c => escapeChar c
  | .broken bytes => String.join (bytes.map escapeByte)

def quote (bs : Bytes) : String := "\"" ++ String.join ((Utf8.pieces bs).map escapePiece) ++ "\""

end ContentStore.Quoted

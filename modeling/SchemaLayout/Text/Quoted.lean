import SchemaLayout.Text.Printable
import SchemaLayout.Text.Combining

/-!
# Quoted text

A name in a message, or a text in a file, stands between double quotes, and what could not be read
back unharmed is escaped: quotes and backslashes by a backslash, a few control characters by a
letter, and by its code everything that is not printable or would combine with the character before
it. The two kinds of quoted text differ in single quotes, which only files escape.
-/

namespace SchemaLayout.Text

/-- A character by its code, in hexadecimal digits without padding. -/
def codeEscape (c : Char) : List Char :=
  ['\\', 'u', '\x7b'] ++ Nat.toDigits 16 c.toNat ++ ['\x7d']

/-- A character of a quoted text, escaped if it has to be. -/
def escape (c : Char) : List Char :=
  match c with
  | '\x00' => ['\\', '0']
  | '\t' => ['\\', 't']
  | '\n' => ['\\', 'n']
  | '\r' => ['\\', 'r']
  | '"' => ['\\', '"']
  | '\\' => ['\\', '\\']
  | _ => if isCombining c || !isPrintable c then codeEscape c else [c]

/-- A character of a quoted text in a file. -/
def escapeInFile (c : Char) : List Char := if c = '\'' then ['\\', '\''] else escape c

/-- A name as messages quote it. -/
def quote (name : String) : String := .ofList ('"' :: name.toList.flatMap escape ++ ['"'])

/-- A text as files quote it. -/
def quoteInFile (text : String) : List Char := '"' :: text.toList.flatMap escapeInFile ++ ['"']

end SchemaLayout.Text

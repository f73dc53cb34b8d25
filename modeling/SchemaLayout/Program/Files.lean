/-!
# Files

The files that a program can read, as a value: what is found under each name. Reading a text fails
if nothing is there, if what is there is no file, and if the file is not text in UTF-8.
-/

namespace SchemaLayout

/-- What is found under a name. -/
inductive FileEntry where
  | content (bytes : ByteArray)
  | directory

/-- The files that can be read, by name. -/
abbrev Files : Type := String → Option FileEntry

/-- Why a text cannot be read. -/
inductive ReadError where
  | notFound
  | isDirectory
  | notText
deriving DecidableEq

namespace ReadError

/-- The text of an error. -/
def message : ReadError → String
  | notFound => "No such file or directory (os error 2)"
  | isDirectory => "Is a directory (os error 21)"
  | notText => "stream did not contain valid UTF-8"

end ReadError

/-- The text of a file. -/
def Files.readText (files : Files) (name : String) : Except ReadError String :=
  match files name with
  | none => .error .notFound
  | some .directory => .error .isDirectory
  | some (.content bytes) =>
    match String.fromUTF8? bytes with
    | some text => .ok text
    | none => .error .notText

end SchemaLayout

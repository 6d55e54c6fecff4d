/-!
# Refusals of the system

Every operation on a tree of files can be refused, and a refusal says why. The reasons are those
of a POSIX system; their texts carry the number that system gives them. Two of them are found
before the system is asked, and have no number: a path that no system call can take, and a file
that is no text.

## Main definitions

* `Refusal`, `Refusal.text` — the reasons, and how a message gives them
-/

namespace Branding

/-- Why an operation on files is refused. -/
inductive Refusal where
  /-- No entry has this name. -/
  | absent
  /-- A directory is in use by the system itself. -/
  | busy
  /-- An entry already has this name. -/
  | present
  /-- Something that is no directory is used as one. -/
  | notDirectory
  /-- A directory is used as a file. -/
  | isDirectory
  /-- The last name of the path does not say which directory is meant. -/
  | invalid
  /-- A name or a whole path has too many bytes. -/
  | nameTooLong
  /-- A directory that is to go still holds something. -/
  | notEmpty
  /-- More links were met than are followed. -/
  | tooManyLinks
  /-- The path holds a NUL character. -/
  | nulInPath
  /-- The bytes of a file are not the UTF-8 form of any text. -/
  | notText
  deriving DecidableEq, Repr

/-- How messages give the reason. -/
def Refusal.text : Refusal → String
  | .absent => "No such file or directory (os error 2)"
  | .busy => "Device or resource busy (os error 16)"
  | .present => "File exists (os error 17)"
  | .notDirectory => "Not a directory (os error 20)"
  | .isDirectory => "Is a directory (os error 21)"
  | .invalid => "Invalid argument (os error 22)"
  | .nameTooLong => "File name too long (os error 36)"
  | .notEmpty => "Directory not empty (os error 39)"
  | .tooManyLinks => "Too many levels of symbolic links (os error 40)"
  | .nulInPath => "file name contained an unexpected NUL byte"
  | .notText => "stream did not contain valid UTF-8"

end Branding

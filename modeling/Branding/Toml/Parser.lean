import Branding.Toml.Basic
import Branding.Toml.Moment
import Branding.Toml.Number

/-!
# Reading a settings file

A settings file is read statement by statement: a statement takes a line, except that a list and
a text between triple quotes may go on over several. The reader either gives the table that the
whole file says or nothing; why a file cannot be read is not told.

A line ends with a line feed, which a carriage return may precede. In comments and texts the tab is
the only control character.

Lists and tables can be nested, and keys strung together, up to a fixed bound.

## Main definitions

* `Toml.parse?` — the table a file says
* `Toml.value?` — the value at the head of a text, within a nesting depth
* `Toml.simple?` — the same for a value that holds no others
* `Toml.basic?`, `Toml.multiline?`, `Toml.literal?`, `Toml.multilineLiteral?` — the four kinds of
  quoted text
-/

namespace Branding

namespace Toml

/-! ### Lines and comments -/

/-- What comments and texts are made of. -/
def isPlain (c : Char) : Bool := c == '\t' || (' ' ≤ c && c != '\x7f')

/-- What follows the blanks at the head of a text. -/
def skipBlanks (text : List Char) : List Char := text.dropWhile isBlank

/-- What follows a line end. -/
def lineEnd? : List Char → Option (List Char)
  | '\n' :: rest => some rest
  | '\r' :: '\n' :: rest => some rest
  | _ => none

/-- What follows blanks, a comment, and the end of the line or of the file. -/
def statementEnd? (text : List Char) : Option (List Char) :=
  let rest :=
    match skipBlanks text with
    | '#' :: rest => rest.dropWhile isPlain
    | rest => rest
  if rest.isEmpty then some [] else lineEnd? rest

/-- What follows blanks and line ends. -/
def skipLines : List Char → List Char
  | [] => []
  | '\r' :: '\n' :: rest => skipLines rest
  | c :: rest => if isBlank c || c == '\n' then skipLines rest else c :: rest

/-- What follows blanks, line ends and comments. -/
def skipComments : (inComment : Bool) → List Char → List Char
  | _, [] => []
  | _, '\r' :: '\n' :: rest => skipComments false rest
  | true, c :: rest =>
    if c = '\n' then skipComments false rest
    else if isPlain c then skipComments true rest
    else c :: rest
  | false, c :: rest =>
    if c = '#' then skipComments true rest
    else if isBlank c || c == '\n' then skipComments false rest
    else c :: rest

/-! ### Texts -/

/-- The character whose number the digits write. -/
def codePoint? (digits : List Char) : Option Char := do
  let n ← digits.foldlM (fun n d => (hexDigit? d).map (n * 16 + ·)) 0
  if n.isValidChar then some (Char.ofNat n) else none

/-- The character an escape stands for, and how many characters the escape has after the
backslash. -/
def escape? : List Char → Option (Char × Nat)
  | 'b' :: _ => some ('\x08', 1)
  | 't' :: _ => some ('\t', 1)
  | 'n' :: _ => some ('\n', 1)
  | 'f' :: _ => some ('\x0c', 1)
  | 'r' :: _ => some ('\r', 1)
  | '"' :: _ => some ('"', 1)
  | '\\' :: _ => some ('\\', 1)
  | 'u' :: rest => if rest.length < 4 then none else (codePoint? (rest.take 4)).map (·, 5)
  | 'U' :: rest => if rest.length < 8 then none else (codePoint? (rest.take 8)).map (·, 9)
  | _ => none

/-- A text up to its closing quote, and what follows the quote; the given number of characters is
skipped first. -/
def basicFrom? : Nat → List Char → Option (List Char × List Char)
  | _, [] => none
  | skip + 1, _ :: rest => basicFrom? skip rest
  | 0, c :: rest =>
    if c = '"' then some ([], rest)
    else if c = '\\' then do
      let (c, length) ← escape? rest
      let (chars, rest) ← basicFrom? length rest
      return (c :: chars, rest)
    else if isPlain c then do
      let (chars, rest) ← basicFrom? 0 rest
      return (c :: chars, rest)
    else none

/-- A text in plain quotes, its opening quote already read. -/
def basic? (text : List Char) : Option (List Char × List Char) := basicFrom? 0 text

/-- A text up to its closing apostrophe, in which nothing is escaped. -/
def literal? : List Char → Option (List Char × List Char)
  | [] => none
  | c :: rest =>
    if c = '\'' then some ([], rest)
    else if isPlain c then do
      let (chars, rest) ← literal? rest
      return (c :: chars, rest)
    else none

/-- Three quotes that close a text, with up to two more before them that belong to it. -/
def closing? (q : Char) : List Char → Option (List Char × List Char)
  | a :: b :: c :: rest =>
    if a = q ∧ b = q ∧ c = q then
      match rest with
      | d :: e :: rest =>
        if d = q then if e = q then some ([q, q], rest) else some ([q], e :: rest)
        else some ([], d :: e :: rest)
      | [d] => if d = q then some ([q], []) else some ([], [d])
      | [] => some ([], [])
    else none
  | _ => none

/-- A text up to its closing three quotes; the given number of characters is skipped first. A
backslash at the end of a line takes away the line end and all blanks and line ends after it. -/
def multilineFrom? : Nat → List Char → Option (List Char × List Char)
  | _, [] => none
  | skip + 1, _ :: rest => multilineFrom? skip rest
  | 0, c :: rest =>
    match closing? '"' (c :: rest) with
    | some ending => some ending
    | none =>
      if c = '\\' then
        if (lineEnd? (skipBlanks rest)).isSome then
          multilineFrom? (rest.length - (skipLines rest).length) rest
        else do
          let (c, length) ← escape? rest
          let (chars, rest) ← multilineFrom? length rest
          return (c :: chars, rest)
      else if isPlain c || c == '\n' then do
        let (chars, rest) ← multilineFrom? 0 rest
        return (c :: chars, rest)
      else if c = '\r' ∧ rest.head? = some '\n' then multilineFrom? 0 rest
      else none

/-- A text between triple apostrophes, in which nothing is escaped. -/
def multilineLiteralFrom? : List Char → Option (List Char × List Char)
  | [] => none
  | c :: rest =>
    match closing? '\'' (c :: rest) with
    | some ending => some ending
    | none =>
      if isPlain c || c == '\n' then do
        let (chars, rest) ← multilineLiteralFrom? rest
        return (c :: chars, rest)
      else if c = '\r' ∧ rest.head? = some '\n' then multilineLiteralFrom? rest
      else none

/-- A text in triple quotes, the opening ones already read. A line end right after them does not
count. -/
def multiline? (text : List Char) : Option (List Char × List Char) :=
  multilineFrom? 0 ((lineEnd? text).getD text)

/-- A text in triple apostrophes, the opening ones already read. -/
def multilineLiteral? (text : List Char) : Option (List Char × List Char) :=
  multilineLiteralFrom? ((lineEnd? text).getD text)

/-! ### Keys -/

/-- A key that needs no quotes is made of these. -/
def isKeyChar (c : Char) : Bool := c.isAlphanum || c == '-' || c == '_'

/-- One key, bare or quoted. -/
def simpleKey? : List Char → Option (String × List Char)
  | [] => none
  | c :: rest =>
    if c = '"' then (basic? rest).map fun (chars, rest) => (String.ofList chars, rest)
    else if c = '\'' then (literal? rest).map fun (chars, rest) => (String.ofList chars, rest)
    else if isKeyChar c then
      some (String.ofList (c :: rest.takeWhile isKeyChar), rest.dropWhile isKeyChar)
    else none

/-- Keys with dots between them, and blanks wherever, not more than so many of them. -/
def keysFrom? : Nat → List Char → Option (List String × List Char)
  | 0, _ => none
  | count + 1, text => do
    let (key, rest) ← simpleKey? (skipBlanks text)
    match skipBlanks rest with
    | '.' :: rest =>
      let (keys, rest) ← keysFrom? count rest
      return (key :: keys, rest)
    | rest => return ([key], rest)

/-- How deep lists and tables can be nested in a value, and how many keys make a path. -/
def depthLimit : Nat := 79

/-- A path of keys: those that lead to a table, and the last. -/
def keyPath? (text : List Char) : Option (List String × String × List Char) := do
  let (keys, rest) ← keysFrom? depthLimit text
  let key ← keys.getLast?
  return (keys.dropLast, key, rest)

/-! ### Values -/

/-- A path of keys, the equals sign and a value. -/
def assignment? (value? : List Char → Option (Toml × List Char)) (text : List Char) :
    Option ((List String × String × Toml) × List Char) := do
  let (path, key, rest) ← keyPath? text
  match rest with
  | '=' :: rest =>
    let (value, rest) ← value? (skipBlanks rest)
    return ((path, key, value), rest)
  | _ => none

/-- The items of a list up to its closing bracket. A comma may follow the last. The counter
bounds their number. -/
def items? (value? : List Char → Option (Toml × List Char)) :
    Nat → List Char → Option (List Toml × List Char)
  | 0, _ => none
  | count + 1, text =>
    match skipComments false text with
    | ']' :: rest => some ([], rest)
    | text => do
      let (item, rest) ← value? text
      match skipComments false rest with
      | ']' :: rest => return ([item], rest)
      | ',' :: rest =>
        let (items, rest) ← items? value? count rest
        return (item :: items, rest)
      | _ => none

/-- The assignments of a table written in one piece, at least one, up to its closing bracket. The
counter bounds their number. -/
def assignments? (value? : List Char → Option (Toml × List Char)) :
    Nat → Members → List Char → Option (Members × List Char)
  | 0, _, _ => none
  | count + 1, members, text => do
    let ((path, key, value), rest) ← assignment? value? text
    let members ← insert? path key value .value members
    match skipBlanks rest with
    | '\x7d' :: rest => return (members, rest)
    | ',' :: rest => assignments? value? count members rest
    | _ => none

/-- A value that holds no others, and what follows it. -/
def simple? (text : List Char) : Option (Toml × List Char) :=
  let quoted := Option.map fun (chars, rest) => (string (String.ofList chars), rest)
  match text with
  | '"' :: '"' :: '"' :: rest => quoted (multiline? rest)
  | '"' :: rest => quoted (basic? rest)
  | '\'' :: '\'' :: '\'' :: rest => quoted (multilineLiteral? rest)
  | '\'' :: rest => quoted (literal? rest)
  | 't' :: 'r' :: 'u' :: 'e' :: rest => some (other, rest)
  | 'f' :: 'a' :: 'l' :: 's' :: 'e' :: rest => some (other, rest)
  | text => ((afterMoment? text).or (afterNumber? text)).map (other, ·)

/-- A list, or a table written in one piece, and what follows it. -/
def enclosing? (value? : List Char → Option (Toml × List Char)) :
    List Char → Option (Toml × List Char)
  | '[' :: rest =>
    (items? value? rest.length rest).map fun (items, rest) => (array items, rest)
  | '\x7b' :: rest =>
    match skipBlanks rest with
    | '\x7d' :: rest => some (table .value [], rest)
    | rest =>
      (assignments? value? rest.length [] rest).map fun (members, rest) =>
        (table .value members, rest)
  | _ => none

/-- The value at the head of a text, with lists and tables nested at most `depth` deep. -/
def value? : (depth : Nat) → List Char → Option (Toml × List Char)
  | 0, text => simple? text
  | depth + 1, text => (simple? text).or (enclosing? (value? depth) text)

/-! ### Statements -/

/-- A header, its opening bracket already read, and the end of its statement. -/
def header? (text : List Char) : Option (List String × String × List Char) := do
  let (path, key, rest) ← keyPath? text
  match rest with
  | ']' :: rest => return (path, key, ← statementEnd? rest)
  | _ => none

/-- The statements of a file, said in turn of a table, with the path of the last header. The
counter bounds their number. -/
def statements? : Nat → (header : List String) → Members → List Char → Option Members
  | 0, _, _, _ => none
  | count + 1, header, members, text =>
    match skipBlanks text with
    | [] => some members
    | '[' :: rest => do
      let (path, key, rest) ← header? rest
      let members ← opened? path key members
      statements? count (path ++ [key]) members rest
    | c :: rest =>
      match statementEnd? (c :: rest) with
      | some rest => statements? count header members rest
      | none => do
        let ((path, key, value), rest) ← assignment? (value? depthLimit) (c :: rest)
        let members ← insertUnder? header path key value members
        statements? count header members (← statementEnd? rest)

/-- The table a file says. A byte order mark may come first. -/
def parse? (file : String) : Option Members :=
  let text :=
    match file.toList with
    | '\ufeff' :: text => text
    | text => text
  statements? (text.length + 1) [] [] text

end Toml

end Branding

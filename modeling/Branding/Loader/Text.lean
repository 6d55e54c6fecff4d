import Branding.Brand
import Branding.Loader.Strategy

/-!
# The text of a loader

A loader is a source file that a build generates. The self-contained one maps a class name to a
file as `Branding.Loader.Resolution` does; both kinds include every helper file. The text depends
on the namespace, the directory of the helpers and the extension alone, so that the same brand
always gives the same bytes. A text is a template, given line by line, with these filled in.

Inside quotes the namespace is written with its separators doubled. The directory is put in as it
is.

## Main definitions

* `LoaderFields` — what a loader text depends on
* `LoaderLine`, `LoaderLine.fill` — a line of a template, and the line filled in
* `LoaderStrategy.opening`, `helpersTemplate` — the two parts of a template
* `LoaderFields.render` — the text for a strategy
-/

namespace Branding

/-- What a loader text depends on. -/
structure LoaderFields where
  /-- The namespace of the tree. -/
  namespaceName : List Char
  /-- The directory of the helpers, from the root of the tree. -/
  helpersDir : List Char
  /-- The extension of source files, without the dot. -/
  extension : List Char
  deriving DecidableEq, Repr

/-- A text from its lines, each ended by a line feed. -/
def unlines (lines : List (List Char)) : List Char := lines.flatMap (· ++ ['\n'])

namespace LoaderFields

/-- A text without the slashes at its two ends. -/
def trimSlashes (text : List Char) : List Char :=
  ((text.dropWhile (· == '/')).reverse.dropWhile (· == '/')).reverse

/-- The pattern of the helper files, from the directory of the loader. -/
def helpersPattern (f : LoaderFields) : List Char :=
  '/' :: trimSlashes f.helpersDir ++ "/*.".toList ++ f.extension

end LoaderFields

/-! ### Templates -/

/-- A line of a loader, before anything is filled in. -/
inductive LoaderLine where
  | text (line : String)
  /-- The namespace stands in between. -/
  | named (before after : String)
  /-- The namespace stands in between, inside quotes. -/
  | quoted (before after : String)
  /-- The extension stands in between. -/
  | extended (before after : String)
  /-- The pattern of the helper files stands in between. -/
  | helpers (before after : String)
  deriving DecidableEq, Repr

/-- A line filled in. -/
def LoaderLine.fill (f : LoaderFields) : LoaderLine → List Char
  | .text line => line.toList
  | .named before after => before.toList ++ f.namespaceName ++ after.toList
  | .quoted before after => before.toList ++ doubleSeparators f.namespaceName ++ after.toList
  | .extended before after => before.toList ++ f.extension ++ after.toList
  | .helpers before after => before.toList ++ f.helpersPattern ++ after.toList

/-- The statement that includes every helper file. -/
def helpersTemplate : List LoaderLine :=
  [.helpers "foreach (glob(__DIR__ . '" "') as $file) \x7b", .text "    require_once $file;",
    .text "\x7d"]

/-- What stands before that statement: in the loader of a build that is loaded by itself, and in
that of a build whose classes are loaded by the project. -/
def LoaderStrategy.opening : LoaderStrategy → List LoaderLine
  | .selfContained => [
    .text "<?php",
    .text "",
    .text "/**",
    .named " * " " autoloader",
    .text " *",
    .named " * Resolves " "\\* classes from this directory and loads the helper",
    .text " * functions.",
    .text " *",
    .text " * @generated Do not edit. Run `nsbrand build` to regenerate.",
    .text " */",
    .text "",
    .text "spl_autoload_register(function ($class) \x7b",
    .quoted "    $prefix = '" "\\\\';",
    .text "    $base_dir = __DIR__ . '/';",
    .text "",
    .text "    $len = strlen($prefix);",
    .text "    if (strncmp($prefix, $class, $len) !== 0) \x7b",
    .text "        return;",
    .text "    \x7d",
    .text "",
    .text "    $relative_class = substr($class, $len);",
    .extended "    $file = $base_dir . str_replace('\\\\', '/', $relative_class) . '." "';",
    .text "",
    .text "    if (file_exists($file)) \x7b",
    .text "        require $file;",
    .text "    \x7d",
    .text "\x7d);",
    .text ""]
  | .external => [
    .text "<?php",
    .text "",
    .text "/**",
    .named " * " " helpers loader",
    .text " *",
    .text " * Include this file to load helper functions. Classes are resolved by the",
    .text " * project's own autoloader.",
    .text " *",
    .text " * @generated Do not edit. Run `nsbrand build` to regenerate.",
    .text " */",
    .text ""]

/-- The text of the loader that a strategy asks for. -/
def LoaderFields.render (f : LoaderFields) (strategy : LoaderStrategy) : List Char :=
  unlines ((strategy.opening ++ helpersTemplate).map (·.fill f))

end Branding

import Branding.Terminal.Style

/-!
# The help text

## Main definitions

* `helpText` — what is shown where help is asked for
-/

namespace Branding

/-- A heading of the help text, on a line of its own. -/
def helpHeading (title : String) : List Span :=
  [⟨.plain, "\n  "⟩, ⟨.heading, title ++ ":"⟩, ⟨.plain, "\n"⟩]

/-- What is shown where help is asked for. -/
def helpText : List Span :=
  [⟨.plain, "\n  "⟩, ⟨.strong, "nsbrand"⟩,
    ⟨.plain, " - Namespace branding for vendored template trees\n"⟩] ++
  helpHeading "Usage" ++
  [⟨.plain, "    nsbrand [-v...] <command> [options]\n"⟩] ++
  helpHeading "Available Commands" ++
  [⟨.plain, "    "⟩, ⟨.green, "build"⟩,
    ⟨.plain, "         Build a branded copy of the template (recommended)\n    "⟩,
    ⟨.dimmed, "install"⟩,
    ⟨.plain, "       [deprecated] Brand the template in place (destructive)\n    "⟩,
    ⟨.green, "help"⟩, ⟨.plain, "          Show this help\n"⟩] ++
  helpHeading "Options" ++
  [⟨.plain,
    "    --prefix=<Name>   The namespace prefix (e.g., MyPlugin); remembered for later runs\n" ++
    "    --output=<path>   Output directory (build; default: ./core)\n" ++
    "    --source=<path>   Template directory (default: ./src)\n" ++
    "    --loader=<kind>   self-contained (default) or external (build)\n" ++
    "    --dry-run         Preview changes without writing files\n" ++
    "    --force           Skip the confirmation prompt (install)\n"⟩] ++
  helpHeading "Examples" ++
  [⟨.plain,
    "    nsbrand build --prefix=MyPlugin              # Build to ./core\n" ++
    "    nsbrand build --prefix=MyPlugin --output=lib # Build to ./lib\n" ++
    "    nsbrand build                                # Uses saved prefix\n" ++
    "    nsbrand build --dry-run                      # Preview only\n"⟩] ++
  helpHeading "Settings" ++
  [⟨.plain, "    Defaults can be set in nsbrand.toml ([template] and [build] tables).\n\n"⟩]

end Branding

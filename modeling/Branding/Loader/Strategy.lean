/-!
# How a build is loaded

A branded tree either comes with a loader of its own or relies on one that the project around it
already has, in which case only its helpers need including.

## Main definitions

* `LoaderStrategy`, `LoaderStrategy.ofString?`, `LoaderStrategy.text`

## Main results

* `LoaderStrategy.ofString?_eq_some_iff` — the names that are known
-/

namespace Branding

/-- How the files of a build are meant to be loaded. -/
inductive LoaderStrategy where
  /-- The build brings a loader for its namespace. -/
  | selfContained
  /-- The project loads classes by path; the build only includes its helpers. -/
  | external
  deriving DecidableEq, Repr

namespace LoaderStrategy

/-- The name a strategy is chosen by. -/
def text : LoaderStrategy → String
  | .selfContained => "self-contained"
  | .external => "external"

/-- The strategy of a name. -/
def ofString? (raw : String) : Option LoaderStrategy :=
  if raw = "self-contained" then some .selfContained
  else if raw = "external" then some .external
  else none

theorem ofString?_eq_some_iff {raw : String} {s : LoaderStrategy} :
    ofString? raw = some s ↔ raw = s.text := by
  unfold ofString?
  cases s <;> split <;> simp_all [text]

end LoaderStrategy

end Branding

import Mathlib
import Branding.Proofs.Files.Sources
import Branding.Proofs.Json.Roundtrip
import Branding.Proofs.State

/-!
# The state file is read back

A state file that was written gives the members it was written with, read back: the brand is the one
that was remembered last, and every other member is where it was. Nothing that was in the file
before can stand in the way, since the members that are kept are only those that were read from it.

## Main results

* `State.load_of_save` — the members of a state file that was written
* `State.brand?_of_remember` — the brand that was remembered
* `State.resolve_none` — a run that asks for no brand gets the one that is remembered
-/

namespace Branding

namespace Json.Members

theorem get?_rereadMembers (ms : Members) (key : String) :
    get? (rereadMembers ms) key = (ms.get? key).map reread := by
  induction ms with
  | nil => rw [rereadMembers]; rfl
  | cons m ms ih =>
    obtain ⟨k, v⟩ := m
    rw [rereadMembers, get?, get?, List.lookup_cons, List.lookup_cons]
    split
    · rfl
    · exact ih

end Json.Members

namespace State

variable {t t' : Tree} {file : Path} {brand : Brand}

theorem readable_nil : Json.Readable Json.depthLimit (.object []) :=
  .object Json.Members.nodup_keys_nil fun _ hm => absurd hm List.not_mem_nil

/-- The members of a state file can be written. -/
theorem readable_load (t : Tree) (file : Path) :
    Json.Readable Json.depthLimit (.object (load t file)) := by
  unfold load membersOf
  split
  · split
    next h => exact Json.readable_of_parse? h
    next => exact readable_nil
  · exact readable_nil

theorem readable_merge {depth : Nat} {ms extra : Json.Members}
    (h : Json.Readable (depth + 1) (.object ms)) (hextra : ∀ m ∈ extra, Json.Readable depth m.2) :
    Json.Readable (depth + 1) (.object (ms.merge extra)) := by
  cases h with
  | object hkeys hms =>
    refine .object (Json.Members.nodup_keys_merge hkeys extra) fun m hm => ?_
    exact (Json.Members.mem_merge hm).elim (hms m) (hextra m)

/-- The text of a state file when members have been put into it. -/
def savedText (t : Tree) (file : Path) (extra : Json.Members) : String :=
  (Json.object ((load t file).merge extra)).indented ++ "\n"

/-- The text of a state file gives the members back. -/
theorem membersOf_savedText (t : Tree) (file : Path) {extra : Json.Members}
    (hextra : ∀ m ∈ extra, ∀ depth, Json.Readable depth m.2) :
    membersOf (savedText t file extra) = Json.rereadMembers ((load t file).merge extra) := by
  have hreadable : Json.Readable Json.depthLimit (.object ((load t file).merge extra)) :=
    readable_merge (readable_load t file) fun m hm => hextra m hm _
  rw [membersOf, savedText, Json.parse?_indented hreadable, Json.reread]

theorem readText_of_found {l : Location} {text : String}
    (h : t.find file = .ok (l, .file text.toUTF8)) : t.readText file = .ok text := by
  have hbytes : t.readBytes file = .ok text.toUTF8 := by
    rw [Tree.readBytes, h]
    rfl
  simp only [Tree.readText, hbytes, bind, Except.bind, fromUTF8?_eq_some_iff.2 rfl]

theorem load_of_found {l : Location} {text : String}
    (h : t.find file = .ok (l, .file text.toUTF8)) :
    load t file = membersOf text := by
  rw [load, readText_of_found h]

/-- The members that were put into a state file are there, and the others are kept. -/
theorem load_of_save {extra : Json.Members} (hextra : ∀ m ∈ extra, ∀ depth, Json.Readable depth m.2)
    {u : Unit} (h : save file extra t = (.ok u, t')) :
    load t' file = Json.rereadMembers ((load t file).merge extra) := by
  obtain ⟨l, hfind⟩ := Files.writeText_found (get_bind_eq_ok.1 h)
  rw [load_of_found hfind]
  exact membersOf_savedText t file hextra

/-- The text of a state file when a brand has been remembered. -/
abbrev brandedState (t : Tree) (file : Path) (brand : Brand) : String :=
  savedText t file [(brandKey, .string brand.name)]

theorem name_ne_empty (brand : Brand) : brand.name ≠ "" := by
  intro h
  have hidentifier := brand.identifier
  rw [h] at hidentifier
  cases hidentifier

/-- Wherever the text of a state file is found, its brand is remembered there. -/
theorem brand?_of_found {l : Location}
    (h : t'.find file = .ok (l, .file (brandedState t file brand).toUTF8)) :
    brand? t' file = some brand.name := by
  have hmembers : membersOf (brandedState t file brand) =
      Json.rereadMembers ((load t file).put brandKey (.string brand.name)) := by
    refine membersOf_savedText t file fun m hm depth => ?_
    rw [List.mem_singleton.1 hm]
    exact .string depth brand.name
  rw [brand?, load_of_found h, hmembers, Json.Members.get?_rereadMembers,
    Json.Members.get?_put_self, Option.map_some, Json.reread]
  exact if_neg (name_ne_empty brand)

theorem find_of_remember {u : Unit} (h : remember file brand t = (.ok u, t')) :
    ∃ l, t'.find file = .ok (l, .file (brandedState t file brand).toUTF8) :=
  Files.writeText_found (get_bind_eq_ok.1 h)

/-- The brand that was remembered is remembered. -/
theorem brand?_of_remember {u : Unit} (h : remember file brand t = (.ok u, t')) :
    brand? t' file = some brand.name := by
  obtain ⟨l, hfind⟩ := find_of_remember h
  exact brand?_of_found hfind

/-- A run that asks for no brand gets the one that is remembered. -/
theorem resolve_none (h : brand? t file = some brand.name) (persist : Bool) :
    resolve none file persist t = (.ok ⟨brand, .persisted, false⟩, t) := by
  have hbrand : brandOf brand.name t = (.ok brand, t) := by
    rw [brandOf, Brand.ofString?_eq_some_iff.2 rfl]
    rfl
  unfold resolve
  dsimp only
  rw [get_bind_apply, h]
  dsimp only
  rw [bind_apply, hbrand]
  rfl

end State

end Branding

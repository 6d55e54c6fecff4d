import Branding.Proofs.Run.Context
import Mathlib.Data.Set.List

/-!
# Paths as they are shown

A path is shown as the way to it from the working directory. What the two paths share is left out,
every name of the working directory that is left over is stepped out of, and the rest of the path
follows. So whoever follows what is shown, from the working directory, comes to the names of the
path again: the steps back take away what the path does not share, and no more than that.

It is the working directory that must not step back, since there is no way out of a step back by its
text. A path may step back wherever it likes, also behind what it shares with the working directory.

The way is shown as a text and is read again as a path. It begins with no slash and ends with none,
so the slashes that are cut off at its end are never there, and a way that is empty is shown as a
dot.

## Main definitions

* `Path.IsCut` — no segment holds a slash

## Main results

* `Path.exists_wayFrom?` — the way from a base of names
* `RunContext.exists_ofString_shown` — what is shown is read as the way
* `RunContext.shown_leads_back` — what is shown, followed from the working directory
-/

namespace Branding

/-! ### The way from one path to another -/

namespace Path

/-- No segment of a path holds a slash, as in every path that was read. -/
def IsCut (p : Path) : Prop := ∀ s ∈ p.segments, '/' ∉ s.toList

theorem isCut_ofString (raw : String) : (ofString raw).IsCut :=
  fun _ => slash_not_mem_of_mem_ofString

theorem IsCut.join {p q : Path} (hp : p.IsCut) (hq : q.IsCut) : (p.join q).IsCut := by
  by_cases hrooted : q.rooted = true
  · rwa [Path.join, if_pos hrooted]
  · intro s hs
    by_cases hempty : s = ""
    · rw [hempty]
      decide
    · exact ((mem_segments_join (by simpa using hrooted) hempty).1 hs).elim (hp s) (hq s)

theorem wayFrom?_nil (entered : Bool) (base : List Component) :
    wayFrom? entered [] base = some (List.replicate base.length .up) := by
  induction base generalizing entered with
  | nil => rfl
  | cons b base ih =>
    rw [wayFrom?, ih]
    rfl

/-- The way from a base of names: what both share is skipped, what is left of the base is stepped
out of, and what is left of the path follows. -/
theorem exists_wayFrom? {path : List Component} {base : List String} :
    ∃ shared outer rest, base = shared ++ outer ∧ path = shared.map .name ++ rest ∧
      wayFrom? false path (base.map .name) = some (List.replicate outer.length .up ++ rest) := by
  induction base generalizing path with
  | nil => cases path <;> exact ⟨[], [], _, rfl, rfl, rfl⟩
  | cons b base ih =>
    cases path with
    | nil =>
      refine ⟨[], b :: base, [], rfl, rfl, ?_⟩
      rw [wayFrom?_nil, List.length_map, List.append_nil]
    | cons a path =>
      by_cases hab : a = .name b
      · obtain ⟨shared, outer, rest, rfl, rfl, hway⟩ := @ih path
        refine ⟨b :: shared, outer, rest, rfl, by rw [hab]; rfl, ?_⟩
        rw [List.map_cons, wayFrom?, if_pos (by simp [hab]), hway]
      · refine ⟨[], b :: base, a :: path, rfl, rfl, ?_⟩
        rw [List.map_cons, wayFrom?, if_neg (by simp [hab]), if_neg (by simp), if_neg (by simp),
          List.map_const', List.length_map]
        rfl

/-- As many steps back as there are names take these names back. -/
theorem foldl_stepNormal_up (front names : List String) :
    (List.replicate names.length .up).foldl stepNormal (front ++ names) = front := by
  induction names using List.reverseRecOn with
  | nil => exact List.append_nil front
  | append_singleton names name ih =>
    rw [List.length_append, List.length_singleton, List.replicate_succ, List.foldl_cons, stepNormal,
      ← List.append_assoc, List.dropLast_concat, ih]

theorem foldl_stepNormal_map_name (front names : List String) :
    (names.map Component.name).foldl stepNormal front = front ++ names := by
  induction names generalizing front with
  | nil => exact (List.append_nil front).symm
  | cons name names ih =>
    rw [List.map_cons, List.foldl_cons, ih, stepNormal, List.append_assoc, List.singleton_append]

/-! ### What a rooted path says -/

theorem components_of_rooted {p : Path} (h : p.rooted = true) :
    p.components = .root :: p.segments.filterMap Component.ofSegment? := by
  rw [components, if_pos h]
  rfl

/-- A component that a segment gives is a step back or a name, and is written as the segment. -/
theorem text_of_ofSegment? {s : String} {c : Component} (h : Component.ofSegment? s = some c) :
    c.text = s ∧ (c = .up ∨ ∃ name, c = .name name) ∧ s ≠ "" := by
  unfold Component.ofSegment? at h
  split at h
  · cases h
  next hblank =>
    refine ⟨?_, ?_, (not_or.1 hblank).1⟩ <;> split at h <;> cases h
    · next hup => exact hup.symm
    · rfl
    · exact Or.inl rfl
    · exact Or.inr ⟨s, rfl⟩

/-- Without steps back they are names. -/
theorem exists_names_of_up_not_mem {segments : List String}
    (h : .up ∉ segments.filterMap Component.ofSegment?) :
    ∃ names : List String, segments.filterMap Component.ofSegment? = names.map .name := by
  have hname : ∀ c ∈ segments.filterMap Component.ofSegment?, c ∈ Set.range Component.name := by
    intro c hc
    obtain ⟨s, -, hs⟩ := List.mem_filterMap.1 hc
    obtain ⟨-, rfl | ⟨name, rfl⟩, -⟩ := text_of_ofSegment? hs
    · exact absurd hc h
    · exact Set.mem_range_self name
  obtain ⟨names, hnames⟩ := (Set.range_list_map Component.name).ge hname
  exact ⟨names, hnames.symm⟩

/-- What segments say is written as segments that say it. -/
theorem filterMap_ofSegment?_map_text {cs : List Component}
    (h : ∀ c ∈ cs, Component.ofSegment? c.text = some c) :
    (cs.map Component.text).filterMap Component.ofSegment? = cs := by
  rw [List.filterMap_map]
  exact (List.filterMap_congr h).trans List.filterMap_some

end Path

namespace RunContext

open Branding.Path

variable {c : RunContext} {p : Path}

/-! ### What is shown -/

/-- A way of names is shown as it is written, since there is no slash at its end to cut off. -/
theorem shown_eq_text {names : List String} (hne : names ≠ [])
    (h : ∀ s ∈ names, s ≠ "" ∧ '/' ∉ s.toList)
    (hway : p.relativeTo? c.workingDir = some (ofNames false names)) :
    c.shown p = (ofNames false names).text := by
  have hwritten : ofNames false names = ⟨false, names⟩ := ofNames_of_ne_nil hne false
  have htrimmed : (ofNames false names).text.toList.reverse.dropWhile (· == '/') =
      (ofNames false names).text.toList.reverse := by
    refine dropWhile_beq_of_head?_ne ?_
    rw [List.head?_reverse, hwritten, toList_text]
    refine getLast?_intercalate_ne fun part hpart => ?_
    obtain ⟨s, hs, rfl⟩ := List.mem_map.1 hpart
    exact ⟨by simpa using (h s hs).1, (h s hs).2⟩
  have hempty : (ofNames false names).text ≠ "" := by
    intro hempty
    have hread := ofString_text_ofNames h
    rw [hempty, hwritten] at hread
    have hnames : [""] = names := congrArg Path.segments hread
    exact (h "" (hnames ▸ List.mem_cons_self)).1 rfl
  simp only [shown, hway, Option.getD_some, htrimmed, List.reverse_reverse, String.ofList_toList,
    if_neg hempty]

/-- What is shown of a way is read as the way. -/
theorem exists_ofString_shown {way : List Component}
    (hway : p.relativeTo? c.workingDir = some (ofComponents way))
    (h : ∀ a ∈ way, Component.ofSegment? a.text = some a ∧ '/' ∉ a.text.toList) :
    (Path.ofString (c.shown p)).rooted = false ∧
      (Path.ofString (c.shown p)).segments.filterMap Component.ofSegment? = way := by
  have htext : ∀ a ∈ way, a.text ≠ "" ∧ '/' ∉ a.text.toList :=
    fun a ha => ⟨(text_of_ofSegment? (h a ha).1).2.2, (h a ha).2⟩
  rw [ofComponents_eq htext] at hway
  cases way with
  | nil =>
    have hdot : c.shown p = "." := by
      rw [shown, hway, Option.getD_some]
      decide +kernel
    rw [hdot]
    exact ⟨by decide +kernel, by decide +kernel⟩
  | cons first way =>
    have hne : (first :: way).map Component.text ≠ [] := by simp
    have hnames : ∀ s ∈ (first :: way).map Component.text, s ≠ "" ∧ '/' ∉ s.toList := by
      simpa only [List.forall_mem_map] using htext
    rw [shown_eq_text hne hnames hway, ofString_text_ofNames hnames, ofNames_of_ne_nil hne]
    exact ⟨rfl, filterMap_ofSegment?_map_text fun a ha => (h a ha).1⟩

/-- What is shown of a rooted path leads back to its names from the working directory. -/
theorem lexical_resolve_shown (hrooted : c.workingDir.rooted = true)
    (hup : .up ∉ c.workingDir.components) (hp : p.rooted = true) (hcut : p.IsCut) :
    (c.resolve (c.shown p)).rooted = true ∧ (c.resolve (c.shown p)).lexical = p.lexical := by
  have hbase := components_of_rooted hrooted
  have hpath := components_of_rooted hp
  rw [hbase, List.mem_cons, not_or] at hup
  obtain ⟨base, hnames⟩ := exists_names_of_up_not_mem hup.2
  obtain ⟨shared, outer, rest, rfl, hrest, hway⟩ :=
    @exists_wayFrom? (p.segments.filterMap Component.ofSegment?) base
  have hrelative : p.relativeTo? c.workingDir =
      some (ofComponents (List.replicate outer.length .up ++ rest)) := by
    rw [relativeTo?, if_pos (hp.trans hrooted.symm), hbase, hpath, hnames, wayFrom?,
      if_pos (by simp), hway]
    rfl
  have hcomponents : ∀ a ∈ List.replicate outer.length Component.up ++ rest,
      Component.ofSegment? a.text = some a ∧ '/' ∉ a.text.toList := by
    intro a ha
    rcases List.mem_append.1 ha with ha | ha
    · rw [List.eq_of_mem_replicate ha]
      decide
    · have hmem : a ∈ p.segments.filterMap Component.ofSegment? := by
        rw [hrest]
        exact List.mem_append_right _ ha
      obtain ⟨s, hs, hsegment⟩ := List.mem_filterMap.1 hmem
      rw [(text_of_ofSegment? hsegment).1]
      exact ⟨hsegment, hcut s hs⟩
  obtain ⟨hrelativeShown, hsaid⟩ := exists_ofString_shown hrelative hcomponents
  refine ⟨(rooted_join hrelativeShown).trans hrooted, ?_⟩
  have hworking : c.workingDir.lexical = shared ++ outer := by
    rw [lexical, hbase, hnames, normalNames, List.foldl_cons, foldl_stepNormal_map_name]
    rfl
  rw [resolve, lexical_join hrelativeShown, ← foldl_stepNormal_filterMap, hsaid, hworking,
    List.foldl_append, foldl_stepNormal_up, lexical, hpath, hrest, normalNames, List.foldl_cons,
    List.foldl_append, foldl_stepNormal_map_name]
  rfl

theorem normalize_resolve_shown (hrooted : c.workingDir.rooted = true)
    (hup : .up ∉ c.workingDir.components) (hp : p.rooted = true) (hcut : p.IsCut) :
    (c.resolve (c.shown p)).normalize = p.normalize := by
  obtain ⟨hshown, hlexical⟩ := lexical_resolve_shown hrooted hup hp hcut
  rw [Path.normalize, Path.normalize, hshown, hp, ← lexical, hlexical, lexical]

/-! ### The directories of a run -/

/-- What is shown of a rooted path, followed from a working directory without steps back, says what
the path says. So it is for the template and the output of a run, however they were given. -/
theorem shown_leads_back {cwd : String} (hcwd : c.workingDir = .ofString cwd)
    (hrooted : c.workingDir.rooted = true) (hup : .up ∉ c.workingDir.components) :
    (∀ raw, (Path.ofString raw).rooted = true →
      (c.resolve (c.shown (.ofString raw))).normalize = (Path.ofString raw).normalize) ∧
    (∀ template, c.templateDir = .ok template →
      (c.resolve (c.shown template)).normalize = template.normalize) ∧
    ∀ output, c.outputDir = .ok output →
      (c.resolve (c.shown output)).normalize = output.normalize := by
  have hcut : c.workingDir.IsCut := hcwd ▸ isCut_ofString cwd
  have hgiven :
      ∀ raw, (c.resolve (c.shown (c.resolve raw))).normalize = (c.resolve raw).normalize :=
    fun raw => normalize_resolve_shown hrooted hup (rooted_resolve hrooted raw)
      (hcut.join (isCut_ofString raw))
  refine ⟨fun raw hraw => ?_, fun template htemplate => ?_, fun output houtput => ?_⟩
  · exact normalize_resolve_shown hrooted hup hraw (isCut_ofString raw)
  · obtain ⟨raw, rfl⟩ := exists_resolve_of_wordOf? htemplate
    exact hgiven raw
  · obtain ⟨raw, rfl⟩ := exists_resolve_of_wordOf? houtput
    exact hgiven raw

private def pluginContext : RunContext where
  workingDir := .ofString "/var//www/plugin/"
  settings := { template := { directory := "../shared/./src/" } }
  options := [("output", .value "/var/www/plugin/../../lib//core")]
  layout := .ofSettings {}

/-- A template beside the working directory, and an output that is given from the root and steps
back behind what it shares with the working directory. -/
theorem shown_leads_back_plugin :
    ∃ template output, pluginContext.templateDir = .ok template ∧
      pluginContext.outputDir = .ok output ∧
      pluginContext.shown template = "../shared/src" ∧
      pluginContext.shown output = "../../lib/core" ∧
      (pluginContext.resolve "../shared/src").normalize = template.normalize ∧
      (pluginContext.resolve "../../lib/core").normalize = output.normalize := by
  have htemplate : pluginContext.templateDir =
      .ok (.join (.ofString "/var//www/plugin/") (.ofString "../shared/./src/")) := by rfl
  have houtput : pluginContext.outputDir =
      .ok (.ofString "/var/www/plugin/../../lib//core") := by decide +kernel
  have hshownTemplate : pluginContext.shown
      (.join (.ofString "/var//www/plugin/") (.ofString "../shared/./src/")) = "../shared/src" := by
    decide +kernel
  have hshownOutput : pluginContext.shown (.ofString "/var/www/plugin/../../lib//core") =
      "../../lib/core" := by
    decide +kernel
  have hcwd : pluginContext.workingDir = .ofString "/var//www/plugin/" := rfl
  obtain ⟨-, hback, hback'⟩ := shown_leads_back hcwd (by decide) (by decide)
  refine ⟨_, _, htemplate, houtput, hshownTemplate, hshownOutput, ?_, ?_⟩
  · rw [← hback _ htemplate, hshownTemplate]
  · rw [← hback' _ houtput, hshownOutput]

end RunContext

end Branding

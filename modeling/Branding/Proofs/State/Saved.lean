import Branding.Proofs.Remembered

/-!
# Members saved among those of others

Other programs keep their members in the state file too. What is saved is put among them: a key that
is there gets its new value where it is, and a new key comes after all the others. Nothing else is
to become different, and nothing does that can be written so that the same value is read again. A
float may not: it is written with the fewest digits that stand for it alone, and they are read digit
by digit, so that the last bit may be lost. All other values are read as they were.

What is saved once more is there already, so the file that is written then is the one that is there.

## Main definitions

* `Json.isIntegral` — a value whose numbers are integers

## Main results

* `Json.reread_of_isIntegral` — a value without floats is read as it was written
* `Json.Members.merge_eq_append` — members put among others, at a glance
* `State.save_outcome` — what there is when members have been saved
-/

namespace Branding

namespace Json

/-! ### Values without floats -/

mutual

/-- Whether all numbers of a value are integers of 64 bits. -/
def isIntegral : Json → Bool
  | .number (.float _) => false
  | .array items => areIntegral items
  | .object members => haveIntegral members
  | .null | .bool _ | .number _ | .string _ => true

/-- Whether all numbers of some items are integers. -/
def areIntegral : List Json → Bool
  | [] => true
  | v :: vs => isIntegral v && areIntegral vs

/-- Whether all numbers of some members are integers. -/
def haveIntegral : List (String × Json) → Bool
  | [] => true
  | (_, v) :: ms => isIntegral v && haveIntegral ms

end

mutual

/-- A value without floats is read as it was written. -/
theorem reread_of_isIntegral : ∀ v : Json, v.isIntegral = true → v.reread = v
  | .null, _ | .bool _, _ | .string _, _ => by rw [reread]
  | .number (.natural _), _ | .number (.negative _), _ => by
    rw [reread]
    rfl
  | .number (.float x), h => by
    rw [isIntegral] at h
    cases h
  | .array items, h => by
    rw [isIntegral] at h
    rw [reread, rereadItems_of_areIntegral items h]
  | .object members, h => by
    rw [isIntegral] at h
    rw [reread, rereadMembers_of_haveIntegral members h]

theorem rereadItems_of_areIntegral : ∀ vs : List Json, areIntegral vs = true → rereadItems vs = vs
  | [], _ => by rw [rereadItems]
  | v :: vs, h => by
    rw [areIntegral, Bool.and_eq_true] at h
    rw [rereadItems, reread_of_isIntegral v h.1, rereadItems_of_areIntegral vs h.2]

theorem rereadMembers_of_haveIntegral :
    ∀ ms : List (String × Json), haveIntegral ms = true → rereadMembers ms = ms
  | [], _ => by rw [rereadMembers]
  | (k, v) :: ms, h => by
    rw [haveIntegral, Bool.and_eq_true] at h
    rw [rereadMembers, reread_of_isIntegral v h.1, rereadMembers_of_haveIntegral ms h.2]

end

theorem haveIntegral_iff {ms : Members} :
    haveIntegral ms = true ↔ ∀ m ∈ ms, m.2.isIntegral = true := by
  induction ms with
  | nil => simp [haveIntegral]
  | cons m ms ih =>
    obtain ⟨k, v⟩ := m
    rw [haveIntegral, Bool.and_eq_true, ih, List.forall_mem_cons]

/-! ### Members put among others -/

namespace Members

variable {ms extra : Members} {key : String} {value : Json}

theorem get?_eq_none_iff : ms.get? key = none ↔ key ∉ ms.keys := by
  rw [get?, List.lookup_eq_none_iff, keys, List.mem_map]
  simp only [bne_iff_ne, ne_eq, not_exists, not_and]
  exact ⟨fun h m hm heq => h m hm heq.symm, fun h m hm heq => h m hm heq.symm⟩

theorem get?_cons_self (key : String) (value : Json) (ms : Members) :
    get? ((key, value) :: ms) key = some value := by
  rw [get?, List.lookup_cons, beq_self_eq_true]

theorem get?_cons_of_ne {other : String} (h : key ≠ other) (value : Json) (ms : Members) :
    get? ((other, value) :: ms) key = ms.get? key := by
  rw [get?, List.lookup_cons, beq_false_of_ne h]
  rfl

/-- A key that is there gets its value in place. -/
theorem put_of_mem (hkeys : ms.keys.Nodup) (hkey : key ∈ ms.keys) (value : Json) :
    ms.put key value = ms.map fun m => if m.1 = key then (m.1, value) else m := by
  induction ms with
  | nil => cases hkey
  | cons m ms ih =>
    obtain ⟨k, v⟩ := m
    rw [keys_cons, List.nodup_cons] at hkeys
    rw [put, List.map_cons]
    by_cases hk : k = key
    · subst hk
      have hrest : ∀ m ∈ ms, (if m.1 = k then (m.1, value) else m) = m :=
        fun m hm => if_neg fun heq => hkeys.1 (List.mem_map.2 ⟨m, hm, heq⟩)
      rw [if_pos rfl, if_pos rfl, List.map_congr_left hrest, List.map_id']
    · rw [if_neg hk, if_neg hk, ih hkeys.2 ((List.mem_cons.1 hkey).resolve_left (Ne.symm hk))]

/-- What becomes of members that others are put among: each key that is there gets its new value in
place, and the new keys come after all the others. -/
theorem merge_eq_append (hkeys : ms.keys.Nodup) (hextra : extra.keys.Nodup) :
    ms.merge extra = ms.map (fun m => (m.1, (extra.get? m.1).getD m.2)) ++
      extra.filter fun m => m.1 ∉ ms.keys := by
  induction extra generalizing ms with
  | nil => simp [merge, get?]
  | cons m extra ih =>
    obtain ⟨key, value⟩ := m
    rw [keys_cons, List.nodup_cons] at hextra
    have hnone := get?_eq_none_iff.2 hextra.1
    have hrest : Members.merge ms ((key, value) :: extra) = (ms.put key value).merge extra := rfl
    rw [hrest, ih (nodup_keys_put hkeys key value) hextra.2, keys_put]
    by_cases hkey : key ∈ ms.keys
    · rw [if_pos hkey, List.filter_cons_of_neg (by simpa using hkey), put_of_mem hkeys hkey,
        List.map_map]
      refine congrArg (· ++ _) (List.map_congr_left fun m _ => ?_)
      by_cases hm : m.1 = key
      · rw [Function.comp_apply, if_pos hm, hm, hnone, get?_cons_self]
        rfl
      · rw [Function.comp_apply, if_neg hm, get?_cons_of_ne hm]
    · rw [if_neg hkey, List.filter_cons_of_pos (by simpa using hkey), put_of_not_mem hkey,
        List.map_append, List.append_assoc, List.map_singleton, hnone]
      have hold : ∀ m ∈ ms, (m.1, (get? extra m.1).getD m.2) =
          (m.1, (get? ((key, value) :: extra) m.1).getD m.2) := by
        intro m hm
        rw [get?_cons_of_ne]
        rintro rfl
        exact hkey (List.mem_map.2 ⟨m, hm, rfl⟩)
      have hnew : ∀ m ∈ extra, decide (m.1 ∉ ms.keys ++ [key]) = decide (m.1 ∉ ms.keys) := by
        intro m hm
        have hne : m.1 ≠ key := by
          rintro rfl
          exact hextra.1 (List.mem_map.2 ⟨m, hm, rfl⟩)
        simp [hne]
      rw [List.map_congr_left hold, List.filter_congr hnew]
      rfl

theorem get?_merge_of_not_mem (hkey : key ∉ extra.keys) :
    (ms.merge extra).get? key = ms.get? key := by
  induction extra generalizing ms with
  | nil => rfl
  | cons m extra ih =>
    rw [keys_cons, List.mem_cons, not_or] at hkey
    exact (ih hkey.2).trans (get?_put_of_ne ms m.2 hkey.1)

theorem get?_merge_of_mem (hextra : extra.keys.Nodup) {m : String × Json} (hm : m ∈ extra) :
    (ms.merge extra).get? m.1 = some m.2 := by
  induction extra generalizing ms with
  | nil => cases hm
  | cons first extra ih =>
    rw [keys_cons, List.nodup_cons] at hextra
    rcases List.mem_cons.1 hm with rfl | hm
    · exact (get?_merge_of_not_mem hextra.1).trans (get?_put_self ms m.1 m.2)
    · exact ih hextra.2 hm

theorem put_eq_self (h : ms.get? key = some value) : ms.put key value = ms := by
  induction ms with
  | nil => cases h
  | cons m ms ih =>
    obtain ⟨k, v⟩ := m
    by_cases hk : k = key
    · subst hk
      rw [get?_cons_self] at h
      rw [put, if_pos rfl, Option.some.inj h]
    · rw [get?_cons_of_ne (Ne.symm hk)] at h
      rw [put, if_neg hk, ih h]

/-- Members that are there already change nothing. -/
theorem merge_eq_self (h : ∀ m ∈ extra, ms.get? m.1 = some m.2) : ms.merge extra = ms := by
  induction extra with
  | nil => rfl
  | cons m extra ih =>
    rw [List.forall_mem_cons] at h
    have hrest : ms.merge (m :: extra) = (ms.put m.1 m.2).merge extra := rfl
    rw [hrest, put_eq_self h.1, ih h.2]

theorem merge_merge (hextra : extra.keys.Nodup) :
    (ms.merge extra).merge extra = ms.merge extra :=
  merge_eq_self fun _ hm => get?_merge_of_mem hextra hm

end Members

end Json

namespace State

variable {t t' : Tree} {file : Path} {extra : Json.Members} {u : Unit}

/-- What has been saved among members without floats is read as it was saved. -/
theorem load_of_save_integral (hintegral : ∀ m ∈ load t file, m.2.isIntegral = true)
    (hextra : ∀ m ∈ extra, ∃ s, m.2 = .string s) (h : save file extra t = (.ok u, t')) :
    load t' file = (load t file).merge extra := by
  have hreadable : ∀ m ∈ extra, ∀ depth, Json.Readable depth m.2 := by
    intro m hm depth
    obtain ⟨s, hs⟩ := hextra m hm
    rw [hs]
    exact .string depth s
  rw [load_of_save hreadable h]
  refine Json.rereadMembers_of_haveIntegral _ (Json.haveIntegral_iff.2 fun m hm => ?_)
  rcases Json.Members.mem_merge hm with hm | hm
  · exact hintegral m hm
  · obtain ⟨s, hs⟩ := hextra m hm
    rw [hs, Json.isIntegral]

/-- The object that a state file gives has no key twice. -/
theorem nodup_keys_load (t : Tree) (file : Path) : (load t file).keys.Nodup := by
  cases readable_load t file with
  | object hkeys => exact hkeys

/-- What there is when texts have been saved in a state file without floats: every key of theirs has
its new value, in place where it was there and after all the others, in their order, where it is
new; every other member is what and where it was; the file ends its last line; and to save them
again writes the file that is there. -/
theorem save_outcome (hintegral : ∀ m ∈ load t file, m.2.isIntegral = true)
    (hkeys : extra.keys.Nodup) (hextra : ∀ m ∈ extra, ∃ s, m.2 = .string s)
    (h : save file extra t = (.ok u, t')) :
    load t' file = (load t file).map (fun m => (m.1, (extra.get? m.1).getD m.2)) ++
        extra.filter (fun m => m.1 ∉ (load t file).keys) ∧
      (∀ (i : Nat) (m : String × Json), (load t file)[i]? = some m → m.1 ∉ extra.keys →
        (load t' file)[i]? = some m) ∧
      (∃ text, t'.readText file = .ok (text ++ "\n")) ∧
      save file extra t' = (.ok (), t') := by
  have hload := load_of_save_integral hintegral hextra h
  have hmerge := hload.trans (Json.Members.merge_eq_append (nodup_keys_load t file) hkeys)
  have hwrite := get_bind_eq_ok.1 h
  refine ⟨hmerge, fun i m hm hkey => ?_, ?_, ?_⟩
  · obtain ⟨hi, -⟩ := List.getElem?_eq_some_iff.1 hm
    rw [hmerge, List.getElem?_append_left (by rwa [List.length_map]), List.getElem?_map, hm,
      Option.map_some, Json.Members.get?_eq_none_iff.2 hkey]
    rfl
  · obtain ⟨l, hfind⟩ := Files.writeText_found hwrite
    exact ⟨_, readText_of_found hfind⟩
  · have hagain := Files.writeText_again hwrite
    rw [save, get_bind_apply, hload, Json.Members.merge_merge hkeys]
    exact hagain

/-- A state file that other programs write to as well. -/
private def sharedTree : Tree :=
  (∅ : Tree).put ["nsbrand.json"]
    (.file "\x7b\"n\":3,\"prefix\":\"Old\",\"tool\":\x7b\"a\":[1,-2,null]\x7d\x7d".toUTF8)

private def sharedExtra : Json.Members := [("prefix", .string "Acme"), ("suite", .string "plugins")]

/-- The brand stays between the members of others, and what is new comes after them. -/
theorem save_outcome_keeps_order :
    ∃ t', save (.ofString "/nsbrand.json") sharedExtra sharedTree = (.ok (), t') ∧
    (load t' (.ofString "/nsbrand.json")).keys = ["n", "prefix", "tool", "suite"] ∧
    save (.ofString "/nsbrand.json") sharedExtra t' = (.ok (), t') := by
  have hok : (save (.ofString "/nsbrand.json") sharedExtra sharedTree).1.isOk = true := by
    decide +kernel
  obtain ⟨u, t', hsave⟩ := exists_of_isOk hok
  obtain ⟨hload, -, -, hagain⟩ :=
    save_outcome (by decide +kernel) (by decide) (by simp [sharedExtra]) hsave
  refine ⟨t', hsave, ?_, hagain⟩
  rw [hload]
  decide +kernel

end State

end Branding

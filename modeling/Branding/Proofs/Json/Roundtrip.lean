import Mathlib
import Branding.Proofs.Json.Decimal

/-!
# JSON that is written is read back

Whatever the reader gives can be written, and what is written is read back: strings, integers, the
order of members and of items as they were, and floats as `Binary64.reread` says. The reader gives
containers that are nested within its depth, objects with no key twice and numbers in range, and of
any value like that the indented text is read in full.

## Main definitions

* `Json.Readable` — a value that the reader may give, within a nesting depth
* `Json.reread` — what a value has become once it is written and read

## Main results

* `Json.readable_of_value?` — the reader gives readable values
* `Json.Readable.readsBack`, `Json.parse?_indented` — a readable value is read back
-/

namespace Branding

namespace Json

/-! ### Strings -/

theorem hexDigit?_hexDigit : ∀ n < 16, hexDigit? (hexDigit n) = some n := by decide

theorem stringBody?_escape {e c : Char} (he : e ≠ 'u') (hc : escaped? e = some c)
    (rest : List Char) :
    stringBody? ('\\' :: e :: rest) = (stringBody? rest).map fun p => (c :: p.1, p.2) := by
  rw [stringBody?]
  · rw [hc, Option.bind_eq_bind, Option.bind_some, Option.map_eq_bind]
    rfl
  · exact fun _ _ _ _ _ h => absurd h he

theorem stringBody?_plain {c : Char} (hquote : c ≠ '"') (hback : c ≠ '\\')
    (hcontrol : 0x20 ≤ c.toNat) (rest : List Char) :
    stringBody? (c :: rest) = (stringBody? rest).map fun p => (c :: p.1, p.2) := by
  rw [stringBody?]
  · rw [if_neg (not_or.2 ⟨by omega, hback⟩), Option.map_eq_bind]
    rfl
  · exact hquote
  · exact fun _ _ _ _ _ h => absurd h hback
  · exact fun _ _ h => absurd h hback

theorem stringBody?_control {c : Char} (hcontrol : c.toNat < 0x20) (rest : List Char) :
    stringBody? ('\\' :: 'u' :: '0' :: '0' ::
        hexDigit (c.toNat / 16) :: hexDigit (c.toNat % 16) :: rest) =
      (stringBody? rest).map fun p => (c :: p.1, p.2) := by
  have hunit : hexUnit? '0' '0' (hexDigit (c.toNat / 16)) (hexDigit (c.toNat % 16)) =
      some c.toNat := by
    rw [hexUnit?, hexDigit?_hexDigit _ (by omega), hexDigit?_hexDigit _ (by omega)]
    show some (((0 * 16 + 0) * 16 + c.toNat / 16) * 16 + c.toNat % 16) = some c.toNat
    congr 1
    omega
  rw [stringBody?, hunit, Option.bind_eq_bind, Option.bind_some, if_neg (by omega),
    if_neg (by omega), Option.map_eq_bind, Char.ofNat_toNat]
  rfl

/-- Of a character that is written, the character is read. -/
theorem stringBody?_escapeChar (c : Char) (rest : List Char) :
    stringBody? (escapeChar c ++ rest) = (stringBody? rest).map fun p => (c :: p.1, p.2) := by
  unfold escapeChar
  split_ifs with hquote hback hnewline hreturn htab hbackspace hfeed hcontrol
  on_goal 9 => exact stringBody?_plain hquote hback (by omega) rest
  on_goal 8 => exact stringBody?_control hcontrol rest
  all_goals
    subst_vars
    exact stringBody?_escape (by decide) rfl rest

theorem stringBody?_quoted (chars rest : List Char) :
    stringBody? (chars.flatMap escapeChar ++ '"' :: rest) = some (chars, rest) := by
  induction chars with
  | nil => rfl
  | cons c chars ih =>
    rw [List.flatMap_cons, List.append_assoc, stringBody?_escapeChar, ih]
    rfl

/-! ### White space -/

theorem skipSpace_newLine (depth : Nat) (text : List Char) :
    skipSpace (newLine depth ++ text) = skipSpace text := by
  have hspaces : ∀ n, skipSpace (List.replicate n ' ' ++ text) = skipSpace text := by
    intro n
    induction n with
    | zero => rfl
    | succ n ih => exact ih
  exact hspaces (2 * depth)

theorem skipSpace_cons {c : Char} (hc : isSpace c = false) (text : List Char) :
    skipSpace (c :: text) = c :: text :=
  List.dropWhile_cons_of_neg (by simp [hc])

/-- What stands at the start of a line, or what separates two values, ends a number. -/
theorem endsNumber_newLine (depth : Nat) (text : List Char) :
    EndsNumber (newLine depth ++ text) := by
  intro c hc
  cases hc
  decide

theorem endsNumber_comma (text : List Char) : EndsNumber (',' :: text) := by
  intro c hc
  cases hc
  decide

/-! ### Members -/

namespace Members

theorem put_of_not_mem {ms : Members} {key : String} (h : key ∉ ms.keys) (value : Json) :
    ms.put key value = ms ++ [(key, value)] := by
  induction ms with
  | nil => rfl
  | cons m ms ih =>
    rw [keys_cons, List.mem_cons, not_or] at h
    rw [put, if_neg (Ne.symm h.1), ih h.2, List.cons_append]

/-- Members that are new and have different keys are put at the end. -/
theorem merge_of_nodup {ms extra : Members} (h : (ms ++ extra).keys.Nodup) :
    ms.merge extra = ms ++ extra := by
  induction extra generalizing ms with
  | nil => exact (List.append_nil ms).symm
  | cons m extra ih =>
    have hm : m.1 ∉ ms.keys := by
      rw [keys, List.map_append, List.map_cons] at h
      exact fun hmem => (List.disjoint_of_nodup_append h) hmem List.mem_cons_self
    have happend : ms ++ m :: extra = (ms ++ [m]) ++ extra := by simp
    rw [happend] at h ⊢
    rw [← ih h, ← put_of_not_mem hm]
    rfl

theorem nodup_keys_nil : (keys []).Nodup := List.nodup_nil

theorem nodup_keys_put {ms : Members} (h : ms.keys.Nodup) (key : String) (value : Json) :
    (ms.put key value).keys.Nodup := by
  rw [keys_put]
  split_ifs with hmem
  · exact h
  · refine List.nodup_append.2 ⟨h, List.nodup_singleton key, fun k hk k' hk' => ?_⟩
    rw [List.mem_singleton.1 hk']
    rintro rfl
    exact hmem hk

theorem nodup_keys_merge {ms : Members} (h : ms.keys.Nodup) (extra : Members) :
    (ms.merge extra).keys.Nodup := by
  induction extra generalizing ms with
  | nil => exact h
  | cons m extra ih => exact ih (nodup_keys_put h m.1 m.2)

theorem mem_put {ms : Members} {key : String} {value : Json} {m : String × Json}
    (h : m ∈ ms.put key value) : m ∈ ms ∨ m = (key, value) := by
  induction ms with
  | nil => exact Or.inr (List.mem_singleton.1 h)
  | cons m' ms ih =>
    obtain ⟨k, v⟩ := m'
    rw [put] at h
    split_ifs at h with hk
    · subst hk
      rcases List.mem_cons.1 h with h | h
      · exact Or.inr h
      · exact Or.inl (List.mem_cons_of_mem _ h)
    · rcases List.mem_cons.1 h with rfl | h
      · exact Or.inl List.mem_cons_self
      · exact (ih h).imp_left (List.mem_cons_of_mem _)

theorem mem_merge {ms extra : Members} {m : String × Json} (h : m ∈ ms.merge extra) :
    m ∈ ms ∨ m ∈ extra := by
  induction extra generalizing ms with
  | nil => exact Or.inl h
  | cons m' extra ih =>
    have hrest : m ∈ (ms.put m'.1 m'.2).merge extra := h
    rcases ih hrest with h | h
    · exact (mem_put h).imp_right fun h => by rw [h]; exact List.mem_cons_self
    · exact Or.inr (List.mem_cons_of_mem _ h)

end Members

/-! ### Readable values -/

/-- A value that the reader may give when containers are nested at most so deep. -/
inductive Readable : Nat → Json → Prop
  | null (depth : Nat) : Readable depth .null
  | bool (depth : Nat) (b : Bool) : Readable depth (.bool b)
  | number (depth : Nat) {n : Number} (h : n.InRange) : Readable depth (.number n)
  | string (depth : Nat) (s : String) : Readable depth (.string s)
  | array {depth : Nat} {items : List Json} (h : ∀ v ∈ items, Readable depth v) :
    Readable (depth + 1) (.array items)
  | object {depth : Nat} {members : Members} (hkeys : members.keys.Nodup)
      (h : ∀ m ∈ members, Readable depth m.2) : Readable (depth + 1) (.object members)

section Read

variable {α : Type} {item? : List Char → Option (α × List Char)} {close : Char}

/-- What is read of each item holds of all items. -/
theorem forall_of_items? {P : α → Prop} (hitem : ∀ {text a rest}, item? text = some (a, rest) → P a)
    {fuel : Nat} {text rest : List Char} {items : List α}
    (h : items? item? close fuel text = some (items, rest)) : ∀ a ∈ items, P a := by
  induction fuel generalizing text items rest with
  | zero => cases h
  | succ fuel ih =>
    rw [items?] at h
    obtain ⟨⟨a, left⟩, ha, h⟩ := Option.bind_eq_some_iff.1 h
    dsimp only at h
    split at h
    · cases h
    next c left' _ =>
      split_ifs at h with hclose hcomma
      · cases h
        simpa using hitem ha
      · obtain ⟨⟨more, left''⟩, hmore, h⟩ := Option.bind_eq_some_iff.1 h
        cases h
        exact List.forall_mem_cons.2 ⟨hitem ha, ih hmore⟩

theorem forall_of_container? {P : α → Prop}
    (hitem : ∀ {text a rest}, item? text = some (a, rest) → P a) {text rest : List Char}
    {items : List α} (h : container? item? close text = some (items, rest)) : ∀ a ∈ items, P a := by
  unfold container? at h
  split at h
  · cases h
  · split_ifs at h
    · cases h
      exact fun a ha => absurd ha List.not_mem_nil
    · exact forall_of_items? hitem h

theorem readable_of_literal? {word text rest : List Char} {value v : Json}
    (h : literal? word value text = some (v, rest)) : v = value := by
  unfold literal? at h
  split_ifs at h
  cases h
  rfl

theorem exists_of_member? {value? : List Char → Option (Json × List Char)} {text rest : List Char}
    {m : String × Json} (h : member? value? text = some (m, rest)) :
    ∃ text', value? text' = some (m.2, rest) := by
  unfold member? at h
  split at h
  · obtain ⟨⟨key, left⟩, -, h⟩ := Option.bind_eq_some_iff.1 h
    dsimp only at h
    split at h
    next left' _ =>
      obtain ⟨⟨value, left''⟩, hvalue, h⟩ := Option.bind_eq_some_iff.1 h
      cases h
      exact ⟨_, hvalue⟩
    · cases h
  · cases h

/-- What is read is no container, or a container of what is read one level less deep. -/
theorem value?_cases {depth : Nat} {text rest : List Char} {v : Json}
    (h : value? depth text = some (v, rest)) :
    (∀ depth, Readable depth v) ∨ ∃ depth', depth = depth' + 1 ∧
      ((∃ items text', v = .array items ∧
          container? (value? depth') ']' text' = some (items, rest)) ∨
        ∃ members text', v = .object (Members.merge [] members) ∧
          container? (member? (value? depth')) '\x7d' text' = some (members, rest)) := by
  unfold value? at h
  split at h
  · cases h
  · left
    rw [readable_of_literal? h]
    exact Readable.null
  · left
    rw [readable_of_literal? h]
    exact fun depth => Readable.bool depth true
  · left
    rw [readable_of_literal? h]
    exact fun depth => Readable.bool depth false
  · left
    obtain ⟨⟨chars, left⟩, -, heq⟩ := Option.map_eq_some_iff.1 h
    cases heq
    exact fun depth => Readable.string depth _
  · right
    split at h
    · cases h
    next depth' =>
      obtain ⟨⟨items, left⟩, hitems, heq⟩ := Option.map_eq_some_iff.1 h
      cases heq
      exact ⟨depth', rfl, Or.inl ⟨items, _, rfl, hitems⟩⟩
  · right
    split at h
    · cases h
    next depth' =>
      obtain ⟨⟨members, left⟩, hmembers, heq⟩ := Option.map_eq_some_iff.1 h
      cases heq
      exact ⟨depth', rfl, Or.inr ⟨members, _, rfl, hmembers⟩⟩
  · left
    obtain ⟨⟨n, left⟩, hn, heq⟩ := Option.map_eq_some_iff.1 h
    cases heq
    exact fun depth => Readable.number depth (inRange_of_number? hn)

/-- The reader gives readable values. -/
theorem readable_of_value? {depth : Nat} {text rest : List Char} {v : Json}
    (h : value? depth text = some (v, rest)) : Readable depth v := by
  induction depth generalizing text v rest with
  | zero =>
    rcases value?_cases h with h | ⟨depth, heq, -⟩
    · exact h 0
    · cases heq
  | succ depth ih =>
    rcases value?_cases h with h | ⟨depth', hdepth, hcontainer⟩
    · exact h (depth + 1)
    cases hdepth
    rcases hcontainer with ⟨items, text', rfl, hitems⟩ | ⟨members, text', rfl, hmembers⟩
    · exact .array (forall_of_container? ih hitems)
    · refine .object (Members.nodup_keys_merge Members.nodup_keys_nil members) fun m hm => ?_
      have hread : ∀ m ∈ members, Readable depth m.2 := by
        refine forall_of_container? (fun hm => ?_) hmembers
        obtain ⟨text, hvalue⟩ := exists_of_member? hm
        exact ih hvalue
      exact hread m ((Members.mem_merge hm).resolve_left List.not_mem_nil)

end Read

/-! ### Items and members on lines -/

/-- Items after the first, on lines at the given depth. -/
def itemLines {α : Type} (print : α → List Char) (depth : Nat) (items : List α) : List Char :=
  items.flatMap fun a => ',' :: newLine depth ++ print a

/-- A member on its line. -/
def memberChars (depth : Nat) (m : String × Json) : List Char :=
  quoteString m.1 ++ ':' :: ' ' :: m.2.indentedChars depth

theorem indentedItems_eq (depth : Nat) (items : List Json) :
    indentedItems depth items = itemLines (indentedChars depth) depth items := by
  induction items with
  | nil => rw [indentedItems]; rfl
  | cons v items ih =>
    rw [indentedItems, ih, itemLines, itemLines, List.flatMap_cons]

theorem indentedMembers_eq (depth : Nat) (members : Members) :
    indentedMembers depth members = itemLines (memberChars depth) depth members := by
  induction members with
  | nil => rw [indentedMembers]; rfl
  | cons m members ih =>
    obtain ⟨k, v⟩ := m
    rw [indentedMembers, ih, itemLines, itemLines, List.flatMap_cons, memberChars]
    simp

section Lines

variable {α β : Type} {print : α → List Char} {item? : List Char → Option (β × List Char)}
  {f : α → β} {close : Char} {depth outer : Nat} {a : α} {items : List α} {rest : List Char}

theorem length_le_length_itemLines (print : α → List Char) (depth : Nat) (items : List α) :
    items.length ≤ (itemLines print depth items).length := by
  induction items with
  | nil => exact Nat.zero_le _
  | cons a items ih =>
    rw [itemLines, List.flatMap_cons, List.length_append, List.cons_append, List.length_cons,
      List.length_cons, ← itemLines]
    omega

/-- An item that is printed is read, whatever cannot go on with it follows. -/
structure ReadsBack (print : α → List Char) (item? : List Char → Option (β × List Char)) (f : α → β)
    (close : Char) (a : α) : Prop where
  exists_cons : ∃ c text, print a = c :: text ∧ isSpace c = false ∧ c ≠ close
  item?_append : ∀ {rest}, EndsNumber rest → item? (print a ++ rest) = some (f a, rest)

theorem ReadsBack.skipSpace_append (h : ReadsBack print item? f close a) (rest : List Char) :
    skipSpace (print a ++ rest) = print a ++ rest := by
  obtain ⟨c, text, hprint, hspace, -⟩ := h.exists_cons
  rw [hprint, List.cons_append, skipSpace_cons hspace]

theorem items?_itemLines (hspace : isSpace close = false) (hcomma : close ≠ ',')
    (hitems : ∀ b ∈ a :: items, ReadsBack print item? f close b) {fuel : Nat}
    (hfuel : items.length < fuel) {text : List Char}
    (htext : skipSpace text =
      print a ++ (itemLines print depth items ++ (newLine outer ++ close :: rest))) :
    items? item? close fuel text = some (f a :: items.map f, rest) := by
  induction items generalizing a fuel text with
  | nil =>
    obtain ⟨fuel, rfl⟩ := Nat.exists_eq_add_one_of_ne_zero (Nat.ne_of_gt hfuel)
    have ha := (hitems a List.mem_cons_self).item?_append
      (endsNumber_newLine outer (close :: rest))
    rw [items?, htext, itemLines, List.flatMap_nil, List.nil_append, ha, Option.bind_eq_bind,
      Option.bind_some]
    dsimp only
    rw [skipSpace_newLine, skipSpace_cons hspace]
    exact if_pos rfl
  | cons b items ih =>
    obtain ⟨fuel, rfl⟩ := Nat.exists_eq_add_one_of_ne_zero (Nat.ne_of_gt (Nat.zero_lt_of_lt hfuel))
    have hlines : itemLines print depth (b :: items) ++ (newLine outer ++ close :: rest) =
        ',' :: (newLine depth ++ (print b ++
          (itemLines print depth items ++ (newLine outer ++ close :: rest)))) := by
      simp [itemLines]
    have ha := (hitems a List.mem_cons_self).item?_append (endsNumber_comma (newLine depth ++
      (print b ++ (itemLines print depth items ++ (newLine outer ++ close :: rest)))))
    have hb : ReadsBack print item? f close b := hitems b (by simp)
    have hmore : items? item? close fuel (newLine depth ++ (print b ++
        (itemLines print depth items ++ (newLine outer ++ close :: rest)))) =
          some (f b :: items.map f, rest) :=
      ih (fun b' hb' => hitems b' (List.mem_cons_of_mem _ hb')) (Nat.lt_of_succ_lt_succ hfuel)
        (by rw [skipSpace_newLine, hb.skipSpace_append])
    rw [items?, htext, hlines, ha, Option.bind_eq_bind, Option.bind_some]
    dsimp only
    rw [skipSpace_cons (by decide)]
    dsimp only
    rw [if_neg (Ne.symm hcomma), if_pos rfl, hmore]
    rfl

theorem container?_itemLines (depth outer : Nat) (rest : List Char)
    (hspace : isSpace close = false) (hcomma : close ≠ ',')
    (hitems : ∀ b ∈ a :: items, ReadsBack print item? f close b) :
    container? item? close (newLine depth ++ (print a ++
        (itemLines print depth items ++ (newLine outer ++ close :: rest)))) =
      some (f a :: items.map f, rest) := by
  have ha := hitems a List.mem_cons_self
  obtain ⟨c, text, hprint, hc, hne⟩ := ha.exists_cons
  have hread : ∀ fuel, items.length < fuel → items? item? close fuel (print a ++
      (itemLines print depth items ++ (newLine outer ++ close :: rest))) =
        some (f a :: items.map f, rest) :=
    fun _ hfuel => items?_itemLines hspace hcomma hitems hfuel (ha.skipSpace_append _)
  unfold container?
  rw [skipSpace_newLine, ha.skipSpace_append]
  rw [hprint] at hread ⊢
  dsimp only [List.cons_append]
  rw [if_neg hne]
  refine hread _ ?_
  have := length_le_length_itemLines print depth items
  simp only [List.length_cons, List.length_append]
  omega

end Lines

/-! ### Reading back -/

mutual

/-- What a value has become once it is written and read. -/
def reread : Json → Json
  | .null => .null
  | .bool b => .bool b
  | .number n => .number n.reread
  | .string s => .string s
  | .array items => .array (rereadItems items)
  | .object members => .object (rereadMembers members)

/-- What items have become. -/
def rereadItems : List Json → List Json
  | [] => []
  | v :: vs => reread v :: rereadItems vs

/-- What members have become. -/
def rereadMembers : List (String × Json) → List (String × Json)
  | [] => []
  | (k, v) :: ms => (k, reread v) :: rereadMembers ms

end

theorem rereadItems_eq_map (items : List Json) : rereadItems items = items.map reread := by
  induction items with
  | nil => rw [rereadItems]; rfl
  | cons v items ih => rw [rereadItems, ih, List.map_cons]

theorem rereadMembers_eq_map (members : Members) :
    rereadMembers members = members.map fun m => (m.1, m.2.reread) := by
  induction members with
  | nil => rw [rereadMembers]; rfl
  | cons m members ih => rw [rereadMembers, ih, List.map_cons]

theorem keys_rereadMembers (members : Members) :
    Members.keys (rereadMembers members) = members.keys := by
  rw [rereadMembers_eq_map, Members.keys, Members.keys, List.map_map]
  rfl

theorem exists_cons_of_number? {text rest : List Char} {n : Number}
    (h : number? text = some (n, rest)) :
    ∃ c text', text = c :: text' ∧ (c = '-' ∨ c.isDigit = true) := by
  cases text with
  | nil => cases h
  | cons c text =>
    refine ⟨c, text, rfl, ?_⟩
    by_cases hc : c = '-'
    · exact Or.inl hc
    · rw [number?_of_ne hc] at h
      obtain ⟨⟨hne, -⟩, -⟩ := unsignedNumber?_eq_some_iff.1 h
      right
      by_contra hdigit
      exact hne (List.takeWhile_cons_of_neg hdigit)

theorem ne_of_number {c d : Char} (hc : c = '-' ∨ c.isDigit = true)
    (hd : d ≠ '-' ∧ d.isDigit = false) : c ≠ d := by
  rintro rfl
  rcases hc with hc | hc
  · exact hd.1 hc
  · rw [hd.2] at hc
    cases hc

theorem value?_eq_number? {c : Char} (hc : c = '-' ∨ c.isDigit = true) (depth : Nat)
    (text : List Char) :
    value? depth (c :: text) = (number? (c :: text)).map fun p => (.number p.1, p.2) := by
  unfold value?
  split
  case h_8 => rfl
  case h_1 heq => cases heq
  all_goals
    next heq => exact absurd (List.cons.inj heq).1 (ne_of_number hc (by decide))

theorem readsBack_member {depth : Nat} {m : String × Json} {n : Nat}
    (h : ReadsBack (indentedChars n) (value? depth) reread ']' m.2) :
    ReadsBack (memberChars n) (member? (value? depth)) (fun m => (m.1, m.2.reread)) '\x7d' m where
  exists_cons := ⟨'"', _, rfl, by decide, by decide⟩
  item?_append := by
    intro rest hrest
    have htext : memberChars n m ++ rest = '"' :: (m.1.toList.flatMap escapeChar ++
        '"' :: (':' :: ' ' :: (m.2.indentedChars n ++ rest))) := by
      simp [memberChars, quoteString]
    have hspace : skipSpace (' ' :: (m.2.indentedChars n ++ rest)) = m.2.indentedChars n ++ rest :=
      h.skipSpace_append rest
    rw [htext, member?, stringBody?_quoted, Option.bind_eq_bind, Option.bind_some]
    dsimp only
    rw [skipSpace_cons (by decide)]
    show (value? depth (skipSpace (' ' :: (m.2.indentedChars n ++ rest)))).bind _ = _
    rw [hspace, h.item?_append hrest, Option.bind_some, String.ofList_toList]
    rfl

theorem literal?_append (word rest : List Char) (value : Json) :
    literal? word value (word ++ rest) = some (value, rest) := by
  rw [literal?, List.take_left, if_pos rfl, List.drop_left]

theorem value?_null (depth : Nat) (rest : List Char) :
    value? depth ("null".toList ++ rest) = some (.null, rest) := by
  show value? depth ('n' :: 'u' :: 'l' :: 'l' :: rest) = _
  rw [value?]
  exact literal?_append "null".toList rest .null

theorem value?_true (depth : Nat) (rest : List Char) :
    value? depth ("true".toList ++ rest) = some (.bool true, rest) := by
  show value? depth ('t' :: 'r' :: 'u' :: 'e' :: rest) = _
  rw [value?]
  exact literal?_append "true".toList rest (.bool true)

theorem value?_false (depth : Nat) (rest : List Char) :
    value? depth ("false".toList ++ rest) = some (.bool false, rest) := by
  show value? depth ('f' :: 'a' :: 'l' :: 's' :: 'e' :: rest) = _
  rw [value?]
  exact literal?_append "false".toList rest (.bool false)

theorem container?_close {α : Type} (item? : List Char → Option (α × List Char)) {close : Char}
    (hspace : isSpace close = false) (rest : List Char) :
    container? item? close (close :: rest) = some ([], rest) := by
  rw [container?, skipSpace_cons hspace]
  exact if_pos rfl

theorem indentedChars_array (n : Nat) (v : Json) (items : List Json) (rest : List Char) :
    indentedChars n (.array (v :: items)) ++ rest = '[' :: (newLine (n + 1) ++
      (indentedChars (n + 1) v ++ (itemLines (indentedChars (n + 1)) (n + 1) items ++
        (newLine n ++ ']' :: rest)))) := by
  rw [indentedChars, indentedItems_eq]
  simp

theorem indentedChars_object (n : Nat) (m : String × Json) (members : Members) (rest : List Char) :
    indentedChars n (.object (m :: members)) ++ rest = '\x7b' :: (newLine (n + 1) ++
      (memberChars (n + 1) m ++ (itemLines (memberChars (n + 1)) (n + 1) members ++
        (newLine n ++ '\x7d' :: rest)))) := by
  obtain ⟨k, v⟩ := m
  rw [indentedChars, indentedMembers_eq, memberChars]
  simp

/-- A readable value is read back, whatever line it stands on. -/
theorem Readable.readsBack {depth : Nat} {v : Json} (h : Readable depth v) (n : Nat) :
    ReadsBack (indentedChars n) (value? depth) reread ']' v := by
  induction h generalizing n with
  | null depth =>
    refine ⟨⟨'n', _, by rw [indentedChars]; rfl, by decide, by decide⟩, fun _ => ?_⟩
    rw [indentedChars, reread, value?_null]
  | bool depth b =>
    cases b with
    | true =>
      refine ⟨⟨'t', _, by rw [indentedChars]; rfl, by decide, by decide⟩, fun _ => ?_⟩
      rw [indentedChars, reread, value?_true]
    | false =>
      refine ⟨⟨'f', _, by rw [indentedChars]; rfl, by decide, by decide⟩, fun _ => ?_⟩
      rw [indentedChars, reread, value?_false]
  | number depth hn =>
    have hread := number?_text hn
    obtain ⟨c, text, htext, hc⟩ := exists_cons_of_number? hread
    have hspace : isSpace c = false := by
      simp [isSpace, ne_of_number hc]
    refine ⟨⟨c, text, by rw [indentedChars, htext], hspace, ne_of_number hc (by decide)⟩,
      fun hrest => ?_⟩
    have happend := number?_append hrest hread
    rw [indentedChars, reread]
    rw [htext, List.cons_append] at happend ⊢
    rw [value?_eq_number? hc, happend]
    rfl
  | string depth s =>
    refine ⟨⟨'"', _, by rw [indentedChars]; rfl, by decide, by decide⟩, fun {rest} _ => ?_⟩
    have htext : quoteString s ++ rest = '"' :: (s.toList.flatMap escapeChar ++ '"' :: rest) := by
      simp [quoteString]
    rw [indentedChars, reread, htext, value?, stringBody?_quoted, Option.map_some]
    dsimp only
    rw [String.ofList_toList]
  | @array depth items hitems ih =>
    cases items with
    | nil =>
      refine ⟨⟨'[', [']'], by rw [indentedChars], by decide, by decide⟩, fun {rest} _ => ?_⟩
      rw [indentedChars]
      show value? (depth + 1) ('[' :: ']' :: rest) = _
      rw [value?, container?_close _ (by decide)]
      rfl
    | cons v items =>
      refine ⟨⟨'[', _, by rw [indentedChars]; rfl, by decide, by decide⟩, fun {rest} _ => ?_⟩
      have hlines := container?_itemLines (n + 1) n rest (by decide) (by decide) fun b hb =>
        ih b hb (n + 1)
      rw [reread, rereadItems_eq_map, indentedChars_array, value?, hlines]
      rfl
  | @object depth members hkeys hmembers ih =>
    cases members with
    | nil =>
      refine ⟨⟨'\x7b', ['\x7d'], by rw [indentedChars], by decide, by decide⟩, fun {rest} _ => ?_⟩
      rw [indentedChars]
      show value? (depth + 1) ('\x7b' :: '\x7d' :: rest) = _
      rw [value?, container?_close _ (by decide)]
      rfl
    | cons m members =>
      refine ⟨⟨'\x7b', _, by rw [indentedChars]; rfl, by decide, by decide⟩, fun {rest} _ => ?_⟩
      have hlines := container?_itemLines (n + 1) n rest (by decide) (by decide) fun b hb =>
        readsBack_member (ih b hb (n + 1))
      have hmerge : Members.merge [] ((m :: members).map fun m => (m.1, m.2.reread)) =
          (m :: members).map fun m => (m.1, m.2.reread) := by
        refine Members.merge_of_nodup ?_
        rw [List.nil_append, ← rereadMembers_eq_map, keys_rereadMembers]
        exact hkeys
      rw [reread, rereadMembers_eq_map, indentedChars_object, value?, hlines, Option.map_some]
      dsimp only
      rw [List.map_cons] at hmerge ⊢
      rw [hmerge]

theorem readable_of_parse? {text : String} {v : Json} (h : parse? text = some v) :
    Readable depthLimit v := by
  obtain ⟨⟨value, rest⟩, hvalue, h⟩ := Option.bind_eq_some_iff.1 h
  dsimp only at h
  split_ifs at h
  cases h
  exact readable_of_value? hvalue

/-- A readable value that is written on lines, the last of them ended, is read back. -/
theorem parse?_indented {v : Json} (h : Readable depthLimit v) :
    parse? (v.indented ++ "\n") = some v.reread := by
  have hread := h.readsBack 0
  have htext : (v.indented ++ "\n").toList = v.indentedChars 0 ++ ['\n'] := by
    rw [indented, String.toList_append, String.toList_ofList]
    rfl
  have hend : EndsNumber ['\n'] := endsNumber_newLine 0 []
  rw [parse?, htext, hread.skipSpace_append, hread.item?_append hend]
  rfl

end Json

end Branding

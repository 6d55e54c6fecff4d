import Branding.Options
import Mathlib.Data.List.TakeWhile

/-!
# Options that are given

A long token is read for itself wherever it stands, so a key is given when a token says so, and one
more flag at the end leaves all other options as they were.

The reader takes one token or two at a time, so what a token means depends on those before it. But
it depends on the last of them alone, and on that only where it is a key by itself: the key waits,
and a token that does not begin long is its value. So tokens can be cut everywhere else, and the two
parts read apart.

## Main definitions

* `Token.IsBareKey`, `Token.BeginsLong` — what the text of a token says to its neighbours
* `Options.waitingBehind` — the key that waits for a value behind tokens

## Main results

* `Options.has_parse` — a long key is given by a token of its own
* `Options.read_append`, `Options.get?_parse_append` — tokens cut in two
* `Options.parse_concat_flag` — one more flag
-/

namespace Branding

theorem Token.ofLong_key {long : List Char} (hne : long ≠ []) (heq : '=' ∉ long) :
    ofLong long = .key (.ofList long) := by
  have hdrop : long.dropWhile (· != '=') = [] := by
    rw [List.dropWhile_eq_nil_iff]
    exact fun c hc => bne_iff_ne.2 fun h => heq (h ▸ hc)
  unfold ofLong
  split
  · exact absurd rfl hne
  · exact absurd List.mem_cons_self heq
  · rw [hdrop]

theorem Token.ofLong_assignment {long : List Char} (hne : long ≠ []) (heq : '=' ∉ long)
    (value : List Char) :
    ofLong (long ++ '=' :: value) = .assignment (.ofList long) (.ofList value) := by
  have hlong : ∀ c ∈ long, (c != '=') = true :=
    fun c hc => bne_iff_ne.2 fun h => heq (h ▸ hc)
  have hdrop : (long ++ '=' :: value).dropWhile (· != '=') = '=' :: value := by
    rw [List.dropWhile_append_of_pos hlong]
    rfl
  have htake : (long ++ '=' :: value).takeWhile (· != '=') = long := by
    rw [List.takeWhile_append_of_pos hlong]
    simp
  unfold ofLong
  split
  next h => simp at h
  next h =>
    obtain ⟨c, long, rfl⟩ := List.exists_cons_of_ne_nil hne
    obtain ⟨rfl, -⟩ := List.cons.inj h
    exact absurd List.mem_cons_self heq
  next => rw [hdrop, htake]

namespace Token

/-- A token that is a key by itself: two dashes and a name without an equals sign. -/
def IsBareKey (name token : String) : Prop :=
  name ≠ "" ∧ '=' ∉ name.toList ∧ token = "--" ++ name

/-- A token that begins with two dashes. -/
def BeginsLong (token : String) : Prop := ∃ rest, token = "--" ++ rest

/-- The key that waits for a value behind a token. -/
def waiting : Token → Option String
  | .key name => some name
  | .assignment _ _ | .keyless | .letter _ | .other => none

theorem ofString_long (rest : String) : ofString ("--" ++ rest) = ofLong rest.toList := by
  rw [ofString, String.toList_append]
  rfl

theorem isLong_ofLong (long : List Char) : (ofLong long).isLong = true := by
  unfold ofLong
  split
  · rfl
  · rfl
  · split <;> rfl

/-- Two dashes make a token long, and nothing else does. -/
theorem isLong_ofString_iff {token : String} :
    (ofString token).isLong = true ↔ BeginsLong token := by
  constructor
  · intro h
    unfold ofString at h
    split at h
    next long hlist =>
      refine ⟨.ofList long, ?_⟩
      rw [← String.toList_inj, hlist]
      simp
    · split at h <;> cases h
    · cases h
  · rintro ⟨rest, rfl⟩
    rw [ofString_long]
    exact isLong_ofLong _

instance (token : String) : Decidable (BeginsLong token) :=
  decidable_of_iff _ isLong_ofString_iff

instance (name token : String) : Decidable (IsBareKey name token) :=
  inferInstanceAs (Decidable (_ ∧ _ ∧ _))

theorem ofString_eq_key_iff {name token : String} :
    ofString token = .key name ↔ IsBareKey name token := by
  constructor
  · intro h
    obtain ⟨rest, rfl⟩ := isLong_ofString_iff.1 (by rw [h]; rfl : (ofString token).isLong = true)
    rw [ofString_long] at h
    unfold ofLong at h
    split at h
    · cases h
    · cases h
    next hnil _ =>
      split at h
      · cases h
      next hdrop =>
        cases h
        rw [String.ofList_toList]
        refine ⟨by simpa using hnil, fun hmem => ?_, rfl⟩
        exact absurd (List.dropWhile_eq_nil_iff.1 hdrop '=' hmem) (by decide)
  · rintro ⟨hne, heq, rfl⟩
    rw [ofString_long, ofLong_key (by simpa using hne) heq, String.ofList_toList]

/-- Behind a token that is no key by itself nothing waits. -/
theorem waiting_ofString_eq_none {token : String} (h : ∀ name, ¬ IsBareKey name token) :
    (ofString token).waiting = none := by
  cases htoken : ofString token with
  | key name => exact absurd (ofString_eq_key_iff.1 htoken) (h name)
  | assignment | keyless | letter | other => rfl

end Token

namespace Options

theorem has_iff {options : Options} {key : String} :
    options.has key = true ↔ ∃ v, (key, v) ∈ options := by
  rw [has, get?, List.lookup_isSome_iff]
  simp

/-- The options that a token settles, given the key that waits for a value before it. -/
def settled (pending : Option String) (s : String) : Options :=
  match pending, Token.ofString s with
  | some key, .letter _ | some key, .other => [(key, .value s)]
  | pending, .assignment key value => ofPending pending ++ [(key, .value value)]
  | pending, .letter c => ofPending pending ++ [(String.singleton c, .flag)]
  | pending, .key _ | pending, .keyless | pending, .other => ofPending pending

/-- One token settles options, and reading goes on with the key that waits behind it. -/
theorem read_cons (pending : Option String) (s : String) (rest : List String) :
    read pending (s :: rest) = settled pending s ++ read (Token.ofString s).waiting rest := by
  cases hs : Token.ofString s with
  | assignment | key | keyless => simp [read, settled, hs, Token.waiting]
  | letter | other => cases pending <;> simp [read, settled, hs, Token.waiting, ofPending]

theorem exists_mem_read_some (key : String) (tokens : List String) :
    ∃ v, (key, v) ∈ read (some key) tokens := by
  cases tokens with
  | nil => exact ⟨.flag, List.mem_cons_self⟩
  | cons s rest =>
    cases hs : Token.ofString s with
    | letter | other => exact ⟨.value s, by simp [read, hs]⟩
    | assignment | key | keyless => exact ⟨.flag, by simp [read, hs, ofPending]⟩

/-- A long token is never taken for the value of the key before it. -/
theorem exists_mem_read {key token : String}
    (htoken : Token.ofString token = .key key ∨ ∃ v, Token.ofString token = .assignment key v)
    {tokens : List String} (h : token ∈ tokens) (pending : Option String) :
    ∃ v, (key, v) ∈ read pending tokens := by
  induction tokens generalizing pending with
  | nil => cases h
  | cons s rest ih =>
    rcases List.mem_cons.1 h with rfl | h
    · rcases htoken with htoken | ⟨value, htoken⟩
      · obtain ⟨v, hv⟩ := exists_mem_read_some key rest
        exact ⟨v, by simp [read, htoken, hv]⟩
      · exact ⟨.value value, by simp [read, htoken]⟩
    · obtain ⟨v, hv⟩ := ih h (Token.ofString s).waiting
      exact ⟨v, read_cons pending s rest ▸ List.mem_append_right _ hv⟩

/-- A long key is given by a token of its own, with or without a value in it. -/
theorem has_parse {key : String} (hne : key ≠ "") (heq : '=' ∉ key.toList) {tokens : List String}
    (h : ∃ token ∈ tokens, token = "--" ++ key ∨ ∃ value, token = "--" ++ key ++ "=" ++ value) :
    (parse tokens).has key = true := by
  have hnil : key.toList ≠ [] := by simpa using hne
  obtain ⟨token, htoken, hlong⟩ := h
  refine has_iff.2 (exists_mem_read ?_ htoken none)
  rcases hlong with rfl | ⟨value, rfl⟩
  · exact Or.inl (Token.ofString_eq_key_iff.2 ⟨hne, heq, rfl⟩)
  · refine Or.inr ⟨value, ?_⟩
    have hlist : (key ++ ("=" ++ value)).toList = key.toList ++ '=' :: value.toList := by simp
    rw [String.append_assoc, String.append_assoc, Token.ofString_long, hlist,
      Token.ofLong_assignment hnil heq, String.ofList_toList, String.ofList_toList]

/-! ### Tokens cut in two -/

/-- The key that waits for a value behind tokens: it is for the last of them to say. -/
def waitingBehind (pending : Option String) (tokens : List String) : Option String :=
  tokens.getLast?.elim pending fun token => (Token.ofString token).waiting

theorem waitingBehind_cons (pending : Option String) (s : String) (rest : List String) :
    waitingBehind pending (s :: rest) = waitingBehind (Token.ofString s).waiting rest := by
  rw [waitingBehind, List.getLast?_cons, waitingBehind]
  cases rest.getLast? <;> rfl

/-- What is read behind tokens depends on them by the key that waits for a value there. -/
theorem exists_read_append (pending : Option String) (tokens : List String) :
    ∃ front, ∀ more,
      read pending (tokens ++ more) = front ++ read (waitingBehind pending tokens) more := by
  induction tokens generalizing pending with
  | nil => exact ⟨[], fun _ => rfl⟩
  | cons s rest ih =>
    obtain ⟨front, hfront⟩ := ih (Token.ofString s).waiting
    refine ⟨settled pending s ++ front, fun more => ?_⟩
    rw [List.cons_append, read_cons, hfront, waitingBehind_cons, List.append_assoc]

/-- A key that waits takes no value from a token that begins long, or from none. -/
theorem read_eq_ofPending_append {pending : Option String} {tokens : List String}
    (h : pending = none ∨ ∀ token ∈ tokens.head?, Token.BeginsLong token) :
    read pending tokens = ofPending pending ++ read none tokens := by
  rcases h with rfl | h
  · rfl
  cases tokens with
  | nil => simp [read, ofPending]
  | cons s rest =>
    have hlong := Token.isLong_ofString_iff.2 (h s rfl)
    cases hs : Token.ofString s with
    | letter | other => rw [hs] at hlong; cases hlong
    | assignment | key | keyless => simp [read, hs, ofPending]

/-- Where the cut parts no key from its value, the two parts are read apart. -/
theorem read_append {pending : Option String} {tokens more : List String}
    (h : waitingBehind pending tokens = none ∨ ∀ token ∈ more.head?, Token.BeginsLong token) :
    read pending (tokens ++ more) = read pending tokens ++ read none more := by
  obtain ⟨front, hfront⟩ := exists_read_append pending tokens
  have htokens : read pending tokens = front ++ ofPending (waitingBehind pending tokens) := by
    simpa [read] using hfront []
  rw [hfront, read_eq_ofPending_append h, htokens, List.append_assoc]

/-- A key takes the next token for its value, unless that begins long. -/
theorem parse_bareKey_cons {key token : String} (htoken : Token.IsBareKey key token) {v : String}
    (hv : ¬ Token.BeginsLong v) (rest : List String) :
    parse (token :: v :: rest) = (key, .value v) :: parse rest := by
  have hshort : (Token.ofString v).isLong = false := by
    rwa [Bool.eq_false_iff, Ne, Token.isLong_ofString_iff]
  have hkey := Token.ofString_eq_key_iff.2 htoken
  cases hs : Token.ofString v with
  | assignment | key | keyless => rw [hs] at hshort; cases hshort
  | letter | other => simp [parse, read, hkey, hs, ofPending]

theorem get?_cons (key : String) (v : OptionValue) (options : Options) (other : String) :
    get? ((key, v) :: options) other =
      (options.get? other).or (if other = key then some v else none) := by
  rw [← List.singleton_append, get?_append]
  congr 1
  by_cases h : other = key
  · simp [get?, h]
  · simp [get?, h]

/-- Two lists of tokens one after the other give, key by key, what the later gives, or else what the
earlier gives. Only where the earlier ends with a key by itself and the later begins with a token
that is not long does the cut part the two: that token is the value of the key, whatever it looks
like, and the later list is read from behind it. -/
theorem get?_parse_append (tokens more : List String) :
    ((∀ token ∈ tokens.getLast?, ∀ key, ¬ Token.IsBareKey key token) ∨
        (∀ token ∈ more.head?, Token.BeginsLong token) →
      ∀ key, (parse (tokens ++ more)).get? key =
        ((parse more).get? key).or ((parse tokens).get? key)) ∧
    ∀ (key token v : String) (rest : List String), Token.IsBareKey key token →
      more = v :: rest → ¬ Token.BeginsLong v →
        ∀ other, (parse (tokens ++ [token] ++ more)).get? other =
          ((parse rest).get? other).or
            (if other = key then some (.value v) else (parse tokens).get? other) := by
  constructor
  · intro h key
    have hcut : waitingBehind none tokens = none ∨
        ∀ token ∈ more.head?, Token.BeginsLong token := by
      refine h.imp_left fun h => ?_
      rw [waitingBehind]
      cases hlast : tokens.getLast? with
      | none => rfl
      | some token => exact Token.waiting_ofString_eq_none (h token hlast)
    rw [parse, read_append hcut, get?_append]
    rfl
  · rintro key token v rest htoken rfl hv other
    have hlong : ∀ s ∈ (token :: v :: rest).head?, Token.BeginsLong s := by
      simpa using ⟨key, htoken.2.2⟩
    have hparse : parse (tokens ++ [token] ++ v :: rest) =
        parse tokens ++ (key, .value v) :: parse rest := by
      rw [List.append_assoc, List.singleton_append, parse, read_append (Or.inr hlong),
        ← parse_bareKey_cons htoken hv rest]
      rfl
    rw [hparse, get?_append, get?_cons, Option.or_assoc]
    congr 1
    split
    · rfl
    · rfl

/-- A later option overrides an earlier one of its key, and a value may look like a flag. -/
theorem get?_parse_append_force :
    (∀ token ∈ ["--force=no"].head?, Token.BeginsLong token) ∧
      (parse (["--force", "--output"] ++ ["--force=no"])).get? "force" = some (.value "no") ∧
      Token.IsBareKey "output" "--output" ∧ ¬ Token.BeginsLong "-x" ∧
      (parse (["--force"] ++ ["--output"] ++ ["-x", "-f"])).get? "output" = some (.value "-x") := by
  have hlong : ∀ token ∈ ["--force=no"].head?, Token.BeginsLong token := by decide
  have hkey : Token.IsBareKey "output" "--output" := by decide
  have hshort : ¬ Token.BeginsLong "-x" := by decide
  refine ⟨hlong, ?_, hkey, hshort, ?_⟩
  · rw [(get?_parse_append ["--force", "--output"] ["--force=no"]).1 (Or.inr hlong) "force"]
    decide
  · rw [(get?_parse_append ["--force"] ["-x", "-f"]).2 _ _ _ _ hkey rfl hshort "output"]
    decide

/-! ### One more flag -/

theorem parse_concat_flag (tokens : List String) {token key : String}
    (htoken : token = "--" ++ key) (hne : key ≠ "") (heq : '=' ∉ key.toList) :
    parse (tokens ++ [token]) = parse tokens ++ [(key, .flag)] := by
  have hkey : Token.ofString token = .key key := Token.ofString_eq_key_iff.2 ⟨hne, heq, htoken⟩
  rw [parse, read_append (Or.inr (by simpa using ⟨key, htoken⟩)), parse]
  simp [read, hkey, ofPending]

variable {options : Options} {key key' : String}

/-- A flag says nothing about another key. -/
theorem value?_concat_flag (h : key ≠ key') :
    value? (options ++ [(key', .flag)]) key = options.value? key := by
  have hlast : get? [(key', OptionValue.flag)] key = none := by
    rw [get?, List.reverse_singleton, List.lookup_cons, beq_false_of_ne h]
    rfl
  rw [value?, get?_append, hlast, Option.none_or]
  rfl

theorem has_concat_flag : has (options ++ [(key, .flag)]) key = true :=
  has_iff.2 ⟨.flag, by simp⟩

end Options

end Branding

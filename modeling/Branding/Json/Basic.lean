import Branding.Binary64

/-!
# JSON values

The state file is a JSON object that other programs may write to as well, so its values are kept
whole: keys in the order they were written, integers apart from other numbers.

## Main definitions

* `Json`, `Json.Number` — a value
* `Json.Members` — the members of an object, in order
* `Json.Members.get?`, `Json.Members.put`, `Json.Members.merge` — look up, replace in place or
  append, and several of those in turn

## Main results

* `Json.Members.get?_put_self`, `Json.Members.get?_put_of_ne` — what a look-up finds after a put
* `Json.Members.keys_put` — a put keeps the order of the keys
-/

namespace Branding

/-- A number: an integer of 64 bits, or else a binary64 value. -/
inductive Json.Number where
  /-- Not negative, below `2 ^ 64`. -/
  | natural (n : Nat)
  /-- The negative of `n`, for `n` from one to `2 ^ 63`. -/
  | negative (n : Nat)
  | float (x : Binary64)
  deriving DecidableEq, Repr

/-- A JSON value. -/
inductive Json where
  | null
  | bool (b : Bool)
  | number (n : Json.Number)
  | string (s : String)
  | array (items : List Json)
  | object (members : List (String × Json))

namespace Json

/-- The members of an object, in the order of their keys' first appearance. -/
abbrev Members := List (String × Json)

namespace Members

/-- The value of a key. -/
def get? (ms : Members) (key : String) : Option Json := ms.lookup key

/-- Give a key a value: in place when the key is there, at the end when it is new. -/
def put : Members → String → Json → Members
  | [], key, value => [(key, value)]
  | (k, v) :: ms, key, value => if k = key then (k, value) :: ms else (k, v) :: put ms key value

/-- Put the members of one object into another, in order. -/
def merge (ms extra : Members) : Members := extra.foldl (fun ms m => ms.put m.1 m.2) ms

/-- The keys, in order. -/
def keys (ms : Members) : List String := ms.map Prod.fst

@[simp] theorem get?_put_self (ms : Members) (key : String) (value : Json) :
    (ms.put key value).get? key = some value := by
  induction ms with
  | nil => simp [put, get?]
  | cons m ms ih =>
    obtain ⟨k, v⟩ := m
    by_cases h : k = key
    · subst h
      simp [put, get?]
    · simp only [put, h, if_false, get?, List.lookup_cons]
      rw [beq_false_of_ne (Ne.symm h)]
      exact ih

theorem get?_put_of_ne (ms : Members) {key other : String} (value : Json) (h : other ≠ key) :
    (ms.put key value).get? other = ms.get? other := by
  induction ms with
  | nil => simp [put, get?, List.lookup_cons, beq_false_of_ne h]
  | cons m ms ih =>
    obtain ⟨k, v⟩ := m
    by_cases hk : k = key
    · subst hk
      simp [put, get?, List.lookup_cons, beq_false_of_ne h]
    · simp only [put, hk, if_false, get?, List.lookup_cons]
      split
      · rfl
      · exact ih

@[simp] theorem keys_nil : keys [] = [] := rfl

@[simp] theorem keys_cons (m : String × Json) (ms : Members) : keys (m :: ms) = m.1 :: keys ms :=
  rfl

/-- A put keeps the order of the keys, and a new key comes last. -/
theorem keys_put (ms : Members) (key : String) (value : Json) :
    (ms.put key value).keys = if key ∈ ms.keys then ms.keys else ms.keys ++ [key] := by
  induction ms with
  | nil => simp [put]
  | cons m ms ih =>
    obtain ⟨k, v⟩ := m
    by_cases h : k = key
    · simp [put, h]
    · have h' : ¬ key = k := fun e => h e.symm
      simp only [put, h, if_false, keys_cons, ih, List.mem_cons, h', false_or]
      split <;> rfl

end Members

end Json

end Branding

import Branding.Proofs.Path.Lexical
import Mathlib.Data.List.Lex
import Mathlib.Data.String.Basic

/-!
# Paths in the order of their bytes

The system compares names byte by byte, and paths component by component. A tree keeps its entries
in the order of their names, compared character by character. The two orders are one, because the
bytes of a character begin with a larger byte where it takes more of them, and otherwise say its
number, largest part first. It is not the order of the texts of the paths, in which a slash is a
character among others.

## Main definitions

* `textBytes` — the bytes of a text
* `Path.componentBytes` — the bytes of a path, component by component

## Main results

* `utf8EncodeChar_append_lt` — characters are in the order of their bytes
* `Path.componentBytes_ofNames_lt` — and so are lists of names
-/

namespace Branding

/-- The bytes of a text. -/
def textBytes (s : String) : List UInt8 := s.toUTF8.data.toList

/-- The bytes of a path, component by component. -/
def Path.componentBytes (p : Path) : List (List UInt8) := p.components.map fun c => textBytes c.text

theorem textBytes_eq (s : String) : textBytes s = s.toList.flatMap String.utf8EncodeChar := by
  conv_lhs => rw [← String.ofList_toList (s := s)]
  show (String.ofList s.toList).toByteArray.data.toList = _
  rw [String.toByteArray_ofList, List.utf8Encode, List.toList_data_toByteArray]

theorem toNat_val_lt (c : Char) : c.val.toNat < 0x110000 := by
  have hvalid := c.valid
  simp only [UInt32.isValidChar, Nat.isValidChar] at hvalid
  omega

/-- A character with a smaller number has smaller bytes, whatever follows. -/
theorem utf8EncodeChar_append_lt {a b : Char} (h : a < b) (s t : List UInt8) :
    String.utf8EncodeChar a ++ s < String.utf8EncodeChar b ++ t := by
  have hlt : a.val.toNat < b.val.toNat := h
  have hb := toNat_val_lt b
  unfold String.utf8EncodeChar
  generalize a.val.toNat = v at hlt
  generalize b.val.toNat = w at hlt hb
  simp only
  split_ifs <;>
    simp (disch := omega) only [List.cons_append, List.nil_append, List.cons_lt_cons_iff,
      UInt8.lt_iff_toNat_lt, ← UInt8.toNat_inj, UInt8.toNat_ofNat', Nat.mod_eq_of_lt] <;>
    omega

theorem flatMap_utf8EncodeChar_lt {cs ds : List Char} (h : cs < ds) :
    cs.flatMap String.utf8EncodeChar < ds.flatMap String.utf8EncodeChar := by
  induction cs generalizing ds with
  | nil =>
    cases ds with
    | nil => exact absurd h (lt_irrefl _)
    | cons d ds =>
      obtain ⟨byte, bytes, hbytes⟩ := List.exists_cons_of_ne_nil (@String.utf8EncodeChar_ne_nil d)
      rw [List.flatMap_nil, List.flatMap_cons, hbytes]
      exact List.nil_lt_cons byte _
  | cons c cs ih =>
    cases ds with
    | nil => cases h
    | cons d ds =>
      rw [List.flatMap_cons, List.flatMap_cons]
      rcases List.cons_lt_cons_iff.1 h with hlt | ⟨rfl, hrest⟩
      · exact utf8EncodeChar_append_lt hlt _ _
      · exact List.append_left_lt (ih hrest)

/-- Texts are in the order of their bytes. -/
theorem textBytes_lt {a b : String} (h : a < b) : textBytes a < textBytes b := by
  rw [textBytes_eq, textBytes_eq]
  exact flatMap_utf8EncodeChar_lt (String.lt_iff_toList_lt.1 h)

/-- Names come before others in a tree when they come before them name by name. -/
theorem lt_of_compare_eq_lt {names names' : List String} (h : compare names names' = .lt) :
    names < names' := by
  induction names generalizing names' with
  | nil =>
    cases names' with
    | nil => cases h
    | cons name names' => exact List.nil_lt_cons name names'
  | cons name names ih =>
    cases names' with
    | nil => cases h
    | cons name' names' =>
      rw [List.cons_lt_cons_iff]
      have hcons : (compare name name').then (compare names names') = .lt :=
        List.compareLex_cons_cons.symm.trans h
      rcases Ordering.then_eq_lt.1 hcons with hlt | ⟨heq, hrest⟩
      · exact Or.inl (compare_lt_iff_lt.1 hlt)
      · exact Or.inr ⟨compare_eq_iff_eq.1 heq, ih hrest⟩

/-- Paths of names are in the order of their bytes. -/
theorem Path.componentBytes_ofNames_lt {names names' : List String} (h : ∀ s ∈ names, IsName s)
    (h' : ∀ s ∈ names', IsName s) (hlt : compare names names' = .lt) :
    (ofNames false names).componentBytes < (ofNames false names').componentBytes := by
  have hbytes : ∀ {names : List String}, (∀ s ∈ names, IsName s) →
      (ofNames false names).componentBytes = names.map textBytes := by
    intro names hnames
    rw [componentBytes, components_ofNames hnames, if_neg (by simp), List.nil_append, List.map_map]
    rfl
  rw [hbytes h, hbytes h']
  exact List.map_lt (fun _ _ => textBytes_lt) (lt_of_compare_eq_lt hlt)

end Branding

import ElmSuite.Decimal.Double
import ElmSuite.Text.CodePoints

/-!
# JSON values

A JSON value with exact integers and with objects that keep the order of their
fields. A JSON string is a sequence of code points, since an escape may denote
a surrogate that stands alone.
-/

namespace ElmSuite

/-- A JSON value. -/
inductive JsonValue where
  | null
  | bool (b : Bool)
  | integer (n : Int)
  | double (x : Double)
  | string (s : CodePoints)
  | array (items : List JsonValue)
  | object (fields : List (CodePoints × JsonValue))

namespace JsonValue

/-- The word for the type of a value. -/
def typeName : JsonValue → String
  | null => "NoneType"
  | bool _ => "bool"
  | integer _ => "int"
  | double _ => "float"
  | string _ => "str"
  | array _ => "list"
  | object _ => "dict"

/-- The fields of an object with `key` set to `value`: in its place if it is there, else last. -/
def setField (key : CodePoints) (value : JsonValue) :
    List (CodePoints × JsonValue) → List (CodePoints × JsonValue)
  | [] => [(key, value)]
  | (k, v) :: rest => if k = key then (k, value) :: rest else (k, v) :: setField key value rest

/-- The value of a field. -/
def field? (fields : List (CodePoints × JsonValue)) (key : String) : Option JsonValue :=
  fields.lookup (CodePoints.ofString key)

/-- The value of the first of several fields that is there. -/
def firstField? (fields : List (CodePoints × JsonValue)) (keys : List String) : Option JsonValue :=
  keys.findSome? (field? fields)

/-- Objects with alike fields hold alike values in the first of several fields that is there. -/
theorem firstField?_alike {alike : Option JsonValue → Option JsonValue → Prop}
    (hnone : alike none none) (hsome : ∀ a b, alike a b → a.isSome = b.isSome)
    {fields others : List (CodePoints × JsonValue)} {keys : List String}
    (h : ∀ key ∈ keys, alike (field? fields key) (field? others key)) :
    alike (firstField? fields keys) (firstField? others keys) := by
  induction keys with
  | nil => exact hnone
  | cons key keys ih =>
    have hkey := h key (List.mem_cons_self ..)
    have hthere := hsome _ _ hkey
    have hrest := ih fun other hmem => h other (List.mem_cons_of_mem key hmem)
    simp only [firstField?, List.findSome?_cons] at hrest ⊢
    generalize field? fields key = a at hkey hthere ⊢
    generalize field? others key = b at hkey hthere ⊢
    cases a with
    | none =>
      cases b with
      | none => exact hrest
      | some value => cases hthere
    | some value =>
      cases b with
      | none => cases hthere
      | some other => exact hkey

/-- Setting a field does not touch the order of the keys that are there. -/
theorem map_fst_setField (key : CodePoints) (value : JsonValue)
    (fields : List (CodePoints × JsonValue)) :
    (setField key value fields).map Prod.fst =
      if key ∈ fields.map Prod.fst then fields.map Prod.fst else fields.map Prod.fst ++ [key] := by
  induction fields with
  | nil => simp [setField]
  | cons f rest ih =>
    by_cases h : f.1 = key
    · simp [setField, h]
    · simp only [setField, h, if_false, List.map_cons, ih, List.mem_cons, Ne.symm h, false_or]
      split <;> simp

theorem lookup_setField (key : CodePoints) (value : JsonValue)
    (fields : List (CodePoints × JsonValue)) : (setField key value fields).lookup key = some value := by
  induction fields with
  | nil => simp [setField]
  | cons f rest ih =>
    obtain ⟨name, old⟩ := f
    by_cases h : name = key
    · simp [setField, h]
    · simp [setField, h, List.lookup_cons, beq_eq_false_iff_ne.2 (Ne.symm h), ih]

end JsonValue

end ElmSuite

import ProgramGraph.Error
import ProgramGraph.Text.Integer
import Std.Data.ExtTreeMap

/-!
# Bags of named texts

A `Bag` maps names to texts. A name that the bag does not hold reads as the empty text, and no text
is ever converted on the way in or out. Typed values pass through their text: `setValue` writes the
text of a `PropertyValue`, `parse` reads a text as a `ParsedValue` of a given `ValueType`.

Nodes and edges carry their properties in a bag, and a bag is also the state that an execution
carries along a path when the caller asks for no other.
-/

namespace ProgramGraph

/-- A finite map from names to texts. -/
structure Bag where
  entries : Std.ExtTreeMap String String := ∅
deriving DecidableEq

/-- A typed value that a bag can hold as text. -/
inductive PropertyValue where
  | text (s : String)
  | bool (b : Bool)
  | int (i : Int)
deriving DecidableEq, Repr

/-- The text of a truth value. -/
def boolText (b : Bool) : String :=
  if b then "true" else "false"

/-- The text under which a bag holds the value. -/
def PropertyValue.render : PropertyValue → String
  | text s => s
  | bool b => boolText b
  | int i => toString i

/-- A value that a text can be read as. -/
inductive ParsedValue where
  | text (s : String)
  | bool (b : Bool)
  | int (i : Int)
  | char (c : Char)
deriving DecidableEq, Repr

/-- The text of the value, in the one form in which it is written. -/
def ParsedValue.render : ParsedValue → String
  | text s => s
  | bool b => boolText b
  | int i => toString i
  | char c => String.singleton c

/-- The types a text can be read as. -/
inductive ValueType where
  | int (range : Text.IntRange)
  | bool
  | char
  | text
deriving DecidableEq, Repr

namespace ValueType

/-- The name of the type in error texts. -/
def name : ValueType → String
  | int range => range.name
  | bool => "bool"
  | char => "char"
  | text => "string"

/-- The literals `true` and `false`, spelled exactly so. -/
def readBool? (s : String) : Option Bool :=
  if s = "true" then some true else if s = "false" then some false else none

/-- Exactly one character. -/
def readChar? (s : String) : Option Char :=
  match s.toList with
  | [c] => some c
  | _ => none

/-- Reads a text as a value of the type. -/
def read? : ValueType → String → Option ParsedValue
  | int range, s => (range.read? s).map .int
  | bool, s => (readBool? s).map .bool
  | char, s => (readChar? s).map .char
  | text, s => some (.text s)

end ValueType

namespace Bag

instance : EmptyCollection Bag := ⟨{}⟩

instance : Inhabited Bag := ⟨∅⟩

/-- The text under a name, empty if there is none. -/
def get (b : Bag) (key : String) : String :=
  b.entries.getD key ""

/-- Writes a text under a name, over the text that was there. -/
def set (b : Bag) (key value : String) : Bag :=
  ⟨b.entries.insert key value⟩

/-- Removes a name. -/
def erase (b : Bag) (key : String) : Bag :=
  ⟨b.entries.erase key⟩

/-- The text under a name, if there is one. -/
def get? (b : Bag) (key : String) : Option String :=
  b.entries[key]?

def contains (b : Bag) (key : String) : Bool :=
  b.entries.contains key

def size (b : Bag) : Nat :=
  b.entries.size

def isEmpty (b : Bag) : Bool :=
  b.entries.isEmpty

/-- The entries, ordered by name. -/
def toList (b : Bag) : List (String × String) :=
  b.entries.toList

/-- The bag of a list of entries; of two entries of one name the later one counts. -/
def ofList (entries : List (String × String)) : Bag :=
  entries.foldl (fun b (key, value) => b.set key value) ∅

/-- Writes a typed value under a name. -/
def setValue (b : Bag) (key : String) (value : PropertyValue) : Bag :=
  b.set key value.render

/-- Reads one of the two literals `true` and `false`. -/
def flag (b : Bag) (key : String) : Option Bool :=
  ValueType.readBool? (b.get key)

/-- Reads the text under a name as a typed value. There is no value if the text is empty, and an
error if it is not of the type. -/
def parse (b : Bag) (key : String) (type : ValueType) : Except Error (Option ParsedValue) :=
  let raw := b.get key
  if raw.isEmpty then .ok none
  else match type.read? raw with
    | some value => .ok (some value)
    | none => .error (.propertyType key raw type.name)

/-! ### What each operation does to the view `get?` -/

@[simp]
theorem get?_set (b : Bag) (k k' v : String) :
    (b.set k v).get? k' = if k = k' then some v else b.get? k' := by
  simp [get?, set, Std.ExtTreeMap.getElem?_insert]

@[simp]
theorem get?_empty (k : String) : (∅ : Bag).get? k = none :=
  Std.ExtTreeMap.getElem?_empty

theorem get_eq_getD_get? (b : Bag) (k : String) : b.get k = (b.get? k).getD "" := by
  simp [get, get?, Std.ExtTreeMap.getD_eq_getD_getElem?]

@[simp]
theorem get_set (b : Bag) (k k' v : String) :
    (b.set k v).get k' = if k = k' then v else b.get k' := by
  simp only [get_eq_getD_get?, get?_set]
  split <;> rfl

theorem ext_get? {b c : Bag} (h : ∀ k, b.get? k = c.get? k) : b = c := by
  cases b; cases c
  simp only [mk.injEq]
  exact Std.ExtTreeMap.ext_getElem? h

@[simp]
theorem set_set (b : Bag) (k v w : String) : (b.set k v).set k w = b.set k w := by
  refine ext_get? fun k' => ?_
  simp only [get?_set]
  split <;> rfl

end Bag

end ProgramGraph

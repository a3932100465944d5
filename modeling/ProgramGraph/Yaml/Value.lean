import ProgramGraph.Yaml.PlainValue

/-!
# Values of a document

A `Value` is what a part of a document means once its spelling is forgotten: plain scalars are
resolved, the tags of the standard types have been obeyed, and a tag of the document's own is kept
beside the value it marks. The entries of a mapping stand in the order in which they were added.
-/

namespace ProgramGraph.Yaml

/-- What a part of a document means. -/
inductive Value where
  | null
  | bool (b : Bool)
  | int (i : Int)
  /-- A number that is not an integer, as it is written. -/
  | float (text : String)
  | string (s : String)
  | sequence (items : List Value)
  | mapping (entries : List (Value × Value))
  | tagged (tag : String) (value : Value)
deriving Repr, Inhabited

namespace Value

/-! ### Equality -/

mutual

/-- Are two values the same? Numbers that are not integers are the same if they are rounded to the
same number, and mappings if they have the same entries in whatever order. -/
def same : Value → Value → Bool
  | null, null => true
  | bool a, bool b => a == b
  | int a, int b => a == b
  | float a, float b => PlainValue.float? a.toList == PlainValue.float? b.toList
  | string a, string b => a == b
  | sequence a, sequence b => sameItems a b
  | mapping a, mapping b => a.length == b.length && sameEntries a b
  | tagged s a, tagged t b => s == t && same a b
  | _, _ => false

/-- Are the items the same, one by one? -/
def sameItems : List Value → List Value → Bool
  | [], [] => true
  | a :: as, b :: bs => same a b && sameItems as bs
  | _, _ => false

/-- Is each of the entries among the others? -/
def sameEntries : List (Value × Value) → List (Value × Value) → Bool
  | [], _ => true
  | (a, x) :: as, bs => bs.any (fun (b, y) => same a b && same x y) && sameEntries as bs

end

/-! ### Entries of a mapping -/

/-- Does a key occur twice? -/
def hasDuplicateKey : List (Value × Value) → Bool
  | [] => false
  | (k, _) :: entries => entries.any (fun e => same e.1 k) || hasDuplicateKey entries

/-- The value under a name. -/
def lookup (entries : List (Value × Value)) (name : String) : Option Value :=
  (entries.find? fun e => e.1.same (.string name)).map Prod.snd

/-- Puts a value under a key. If the key is there, only its value is replaced; otherwise the entry
is added at the end. -/
def insert : List (Value × Value) → Value × Value → List (Value × Value)
  | [], e => [e]
  | (k, v) :: entries, e =>
    if k.same e.1 then (k, e.2) :: entries else (k, v) :: insert entries e

/-! ### Tags -/

/-- The value without the tags around it. -/
def untag : Value → Value
  | tagged _ v => v.untag
  | v => v

end Value

end ProgramGraph.Yaml

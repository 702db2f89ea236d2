import StackCompiler.Json.Basic

/-! Taking JSON values apart.
A reader of nested values counts the levels of nesting that may still be opened: every array and
every object it looks into costs one. Members it does not know are skipped and cost nothing. -/
namespace StackCompiler.Json

/-- How many more arrays and objects may be opened inside one another. -/
abbrev Levels := Nat

def text? : Json → Option String
  | string s => s
  | _ => none

def bool? : Json → Option Bool
  | bool b => some b
  | _ => none

def double? : Json → Option Float
  | number n => n.toFloat?
  | _ => none

/-- An integer token between the two bounds. -/
def intIn? (least most : Int) : Json → Option Int
  | number n => n.toInt?.filter fun i => least ≤ i && i ≤ most
  | _ => none

def int32? (v : Json) : Option Int32 :=
  (v.intIn? Int32.minValue.toInt Int32.maxValue.toInt).map Int32.ofInt

def int64? (v : Json) : Option Int64 :=
  (v.intIn? Int64.minValue.toInt Int64.maxValue.toInt).map Int64.ofInt

def uint64? (v : Json) : Option UInt64 :=
  (v.intIn? 0 (UInt64.size - 1 : Nat)).map fun i => i.toNat.toUInt64

abbrev Fields := List (String × Json)

/-- The members of an object whose keys are all texts and repeat none of the known keys. -/
def fields? (known : List String) : Json → Option Fields
  | object members => do
    let fields ← members.mapM fun m => m.1.map (·,m.2)
    if known.all fun k => fields.countP (·.1 == k) ≤ 1 then some fields else none
  | _ => none

namespace Fields

def required {α : Type} (fs : Fields) (key : String) (read : Json → Option α) : Option α :=
  (fs.lookup key).bind read

/-- A member that may be left out, but not null. -/
def optional {α : Type} (fs : Fields) (key : String) (default : α) (read : Json → Option α) :
    Option α :=
  match fs.lookup key with
  | none => some default
  | some v => read v

/-- A member that may be left out or null. -/
def nullable {α : Type} (fs : Fields) (key : String) (read : Json → Option α) :
    Option (Option α) :=
  match fs.lookup key with
  | none | some null => some none
  | some v => (read v).map some

end Fields

/-- A constant given by its name, or by an object that maps the name to null. -/
def oneOf? {α : Type} (table : List (String × α)) : Levels → Json → Option α
  | _, string (some name) => table.lookup name
  | _ + 1, object [(some name,null)] => table.lookup name
  | _, _ => none

def list? {α : Type} (read : Levels → Json → Option α) : Levels → Json → Option (List α)
  | n + 1, array items => items.mapM (read n)
  | _, _ => none

end StackCompiler.Json

import Stencil.Decimal.Numeral
import Stencil.Yaml.Node

/-! # Values

The values that are asked of a node: a text, a flag, a number, or the fields of a record.  Any
scalar is a text, whatever it looks like; flags and numbers are plain scalars, or literal ones with
a fitting tag.  A document without content, or with an empty one, is a record without fields.
-/

namespace Stencil.Yaml.Node

/-- The text of a scalar. -/
def text : Node → Except Error String
  | .scalar _ _ cs => .ok (String.ofList cs)
  | _ => .error .expectedText

/-- The text of a scalar that is not quoted; a literal one needs the tag of what it stands for. -/
def unquoted? (tag : Tag) : Node → Option (List Char)
  | .scalar _ .plain cs => some cs
  | .scalar ⟨_, some own⟩ .literal cs => if own = tag then some cs else none
  | _ => none

/-- The flag that a word stands for. -/
def flagOfWord? (cs : List Char) : Option Bool :=
  match String.ofList cs with
  | "true" | "True" | "TRUE" => some true
  | "false" | "False" | "FALSE" => some false
  | _ => none

/-- The flag that a node stands for. -/
def flag (node : Node) : Except Error Bool :=
  match (node.unquoted? (Tag.ofText "tag:yaml.org,2002:bool")).bind flagOfWord? with
  | some value => .ok value
  | none => .error .expectedFlag

/-- A number without a plus sign in front of it; another sign must not follow one. -/
def withoutPlus? : List Char → Option (List Char)
  | '+' :: '+' :: _ => none
  | '+' :: '-' :: _ => none
  | '+' :: cs => some cs
  | cs => some cs

/-- The number that a word stands for: infinity and NaN have a point in front, and every other
number is finite. -/
def numberOfWord? (cs : List Char) : Option Float :=
  match withoutPlus? cs with
  | none => none
  | some unsigned =>
    if [".inf", ".Inf", ".INF"].contains (String.ofList unsigned) then
      some (Float.ofBits 0x7ff0000000000000)
    else if ["-.inf", "-.Inf", "-.INF"].contains (String.ofList cs) then
      some (Float.ofBits 0xfff0000000000000)
    else if [".nan", ".NaN", ".NAN"].contains (String.ofList cs) then
      some (Float.ofBits 0x7ff8000000000000)
    else Numeral.readDouble? unsigned

/-- The single precision number that a node stands for, rounded twice. -/
def number (node : Node) : Except Error Float32 :=
  match (node.unquoted? (Tag.ofText "tag:yaml.org,2002:float")).bind numberOfWord? with
  | some value => .ok (Precision.narrow value)
  | none => .error .expectedNumber

/-- The word that stands for nothing. -/
def isNullWord (cs : List Char) : Bool :=
  ["null", "Null", "NULL", "~"].contains (String.ofList cs)

/-- The name in a tag of one's own, which starts with an exclamation mark. -/
def nameOfTag? : Tag → Option String
  | 0x21 :: name => String.fromUTF8? ⟨name.toArray⟩
  | _ => none

/-- The name that a node chooses: the name in its tag, if it is a plain scalar that says nothing
else, or its text if the tag holds no name. -/
def chosenName : Node → Except Error String
  | .scalar properties style cs =>
    match properties.tag?.bind nameOfTag? with
    | some name =>
      if style = .plain ∧ (cs.isEmpty || isNullWord cs) then .ok name else .error .expectedName
    | none => .ok (String.ofList cs)
  | _ => .error .expectedName

/-- The fields of a record: names and nodes, in order. -/
abbrev Fields := List (String × Node)

/-- The fields of a document.  Every key is a scalar. -/
def fields : Option Document → Except Error Fields
  | none => .ok []
  | some d =>
    match d.root with
    | .mapping _ entries =>
      entries.mapM fun (key, value) => do return (← (d.follow key).text, d.follow value)
    | .scalar _ .plain [] => .ok []
    | _ => .error .expectedMapping

/-- The field with a name, if the record has one; it must not have two. -/
def field? (record : Fields) (name : String) : Except Error (Option Node) :=
  match record.filter fun entry => entry.1 == name with
  | [] => .ok none
  | [entry] => .ok (some entry.2)
  | _ => .error (.duplicateKey name)

/-- The value of a field, or another if the record lacks it. -/
def fieldOr {α : Type} (record : Fields) (name : String) (read : Node → Except Error α)
    (standard : α) : Except Error α := do
  match ← field? record name with
  | some node => read node
  | none => return standard

/-- The value of a field that the record has to have. -/
def requiredField {α : Type} (record : Fields) (name : String) (read : Node → Except Error α) :
    Except Error α := do
  match ← field? record name with
  | some node => read node
  | none => throw (.missingKey name)

end Stencil.Yaml.Node
